import Odbk.Api
import Odbk.Lib.InlineHook

/-!
# The state of the backend inside its target process

`Process` is everything the loader and the hook installer read and write: the
context `s_ctx`, the API function pointers, the hooks made through MinHook, the
dbghelp pointers of namespace `odbk` and the log sent to the frontend. `World`
is what the operating system answers. The context is created by the first load;
a process without one is modelled by the context that load would create.
-/

namespace Odbk

/-- `HMODULE`; `nullptr` is `0`. -/
abbrev Handle := Nat

def nullptr : Handle := 0

/-- The detours `f_hook` of `odbk_lhook.cpp`. -/
inductive Detour where
  | luaOpenHook | luaNewstateHook | luaLNewstateHook | luaopenBaseHook | luaCloseHook
  | luaNewthreadHook | luaPcallHook | luaPcallkHook | luaCallHook | luaCallkHook
  | luaLNewmetatableHook | luaSethookHook | luaLLoadbufferxHook | luaLLoadbufferHook
  | luaLLoadfilexHook | luaLLoadfileHook | luaLoadHook | luaLoad510Hook | luaLOpenlibsHook
  | luaIOpenlibHook
  deriving DecidableEq, Repr

/-- The API function a detour stands in for. -/
def Detour.fn : Detour → Fn
  | .luaOpenHook => .luaOpen
  | .luaNewstateHook => .luaNewstate
  | .luaLNewstateHook => .luaLNewstate
  | .luaopenBaseHook => .luaopenBase
  | .luaCloseHook => .luaClose
  | .luaNewthreadHook => .luaNewthread
  | .luaPcallHook => .luaPcall
  | .luaPcallkHook => .luaPcallk
  | .luaCallHook => .luaCall
  | .luaCallkHook => .luaCallk
  | .luaLNewmetatableHook => .luaLNewmetatable
  | .luaSethookHook => .luaSethook
  | .luaLLoadbufferxHook => .luaLLoadbufferx
  | .luaLLoadbufferHook => .luaLLoadbuffer
  | .luaLLoadfilexHook => .luaLLoadfilex
  | .luaLLoadfileHook => .luaLLoadfile
  | .luaLoadHook => .luaLoad
  | .luaLoad510Hook => .luaLoad
  | .luaLOpenlibsHook => .luaLOpenlibs
  | .luaIOpenlibHook => .luaIOpenlib

/-- The pointers of namespace `odbk` that the module scan calls through. -/
inductive DbgFn where
  | ldrLockLoaderLock | ldrUnlockLoaderLock | symLoadModule64 | symGetModuleInfo64
  | symUnloadModule64 | symEnumSymbols
  deriving DecidableEq, Repr

/-- Severity of a log line: `ODBKM_INFO`, `ODBKM_WARN`, `ODBKM_ERROR`. -/
inductive MsgType where
  | info | warn | error
  deriving DecidableEq, Repr

structure LogMessage where
  type : MsgType
  content : String
  deriving DecidableEq, Repr

/-- The fields of `odbk_lua_context` that the code uses. -/
structure OdbkLuaContext where
  specifiedModules : List String
  symbols : Symbols
  restricts : List String
  keyModule : Handle
  keyModuleName : String
  version : Int
  registryIndex : Int
  globalsIndex : Int
  hookTailCall : Int

/-- `new odbk_lua_context()`: the fields without an initializer are zeroed. -/
def OdbkLuaContext.new : OdbkLuaContext where
  specifiedModules := []
  symbols := .empty
  restricts := []
  keyModule := nullptr
  keyModuleName := ""
  version := 510
  registryIndex := 0
  globalsIndex := 0
  hookTailCall := 0

/-- The process: `ptr f` is the pointer `__f`, `registry` holds the hooks. -/
structure Process extends Patched Fn Addr Detour where
  ctx : OdbkLuaContext
  dbghelp : DbgFn → Bool
  log : List LogMessage

/-- A process nothing was loaded into yet, with the given dbghelp pointers set. -/
def Process.fresh (dbghelp : DbgFn → Bool) : Process where
  ptr := fun _ => none
  registry := .empty
  ctx := .new
  dbghelp := dbghelp
  log := []

/-- `odbk_core::print` of a formatted line. -/
def Process.print (type : MsgType) (content : String) (p : Process) : Process :=
  { p with log := p.log ++ [⟨type, content ++ "\r\n"⟩] }

def Process.withSymbols (symbols : Symbols) (p : Process) : Process :=
  { p with ctx := { p.ctx with symbols := symbols } }

@[simp] theorem symbols_withSymbols (symbols : Symbols) (p : Process) :
    (p.withSymbols symbols).ctx.symbols = symbols := rfl

/-- The fields of `odbk_core` that the loader reads. -/
structure OdbkCore where
  appInst : Handle
  appModule : Handle
  deriving DecidableEq, Repr

/-- Which file `SymLoadModule64` was given. -/
inductive SymSource where
  | image | pdb
  deriving DecidableEq, Repr

/-- `SYM_TYPE`, as far as it is told apart. -/
inductive SymType where
  | symNone | symExport | symOther
  deriving DecidableEq, Repr

/-- The fields of `IMAGEHLP_MODULE64` that are read. -/
structure SymModule where
  symType : SymType
  cvData : String
  deriving DecidableEq, Repr

/-- `SYMBOL_INFO`; the name may be null. -/
structure SymbolInfo where
  name : Option String
  address : Addr
  deriving DecidableEq, Repr

/-- What the operating system answers while a load runs. The module handles it
can return are listed, so there are finitely many. -/
structure World where
  modules : List Handle
  /-- `GetModuleHandleA` -/
  getModuleHandle : String → Handle
  /-- the (name, address) pairs that the export walk of a module visits -/
  exports : Handle → List (String × Addr)
  /-- the names `odbk_get_imports` appends for a module -/
  imports : Handle → List String
  /-- the toolhelp snapshot; `none` is a null snapshot handle -/
  snapshot : Option (List Handle)
  moduleName : Handle → String
  moduleFileName : Handle → String
  /-- the base that `SymLoadModule64` returns in one scan; `0` is failure, or a module that
  was loaded before -/
  symLoadModule64 : Handle → SymSource → Nat
  symGetModuleInfo64 : Handle → SymSource → Option SymModule
  /-- a file with the module's name and extension `pdb` exists -/
  pdbFileExists : Handle → Bool
  /-- the file found by `locate_sym_file`, if any -/
  locateSymFile : Handle → SymSource → Option String
  /-- what `SymEnumSymbols` reports for the mask `lua*` -/
  luaSymbols : Handle → SymSource → List (Option SymbolInfo)
  getModuleHandle_mem : ∀ name, getModuleHandle name ≠ nullptr → getModuleHandle name ∈ modules
  snapshot_mem : ∀ l, snapshot = some l → ∀ h ∈ l, h ∈ modules

/-- A process with no module to be found. -/
def World.quiet : World where
  modules := []
  getModuleHandle _ := nullptr
  exports _ := []
  imports _ := []
  snapshot := some []
  moduleName _ := ""
  moduleFileName _ := ""
  symLoadModule64 _ _ := 0
  symGetModuleInfo64 _ _ := none
  pdbFileExists _ := false
  locateSymFile _ _ := none
  luaSymbols _ _ := []
  getModuleHandle_mem := by simp
  snapshot_mem := by simp

/-- A process with the modules given in its snapshot. -/
def World.snapshotOf (modules : List Handle) : World :=
  { World.quiet with
    modules := modules
    snapshot := some modules
    getModuleHandle_mem := fun _ h => absurd rfl h
    snapshot_mem := by
      intro l hl h hh
      cases hl
      exact hh }

/-- A process whose modules all have one export table. -/
def World.exporting (table : List (String × Addr)) : World :=
  { World.quiet with exports := fun _ => table }

/-- Why a load does not return: a call through a null pointer of namespace
`odbk`, or a scan deeper than it was allowed to go. -/
inductive Fault where
  | nullCall (f : DbgFn)
  | depth
  deriving DecidableEq, Repr

end Odbk
