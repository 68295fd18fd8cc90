import Odbk.FinishLoad
import Odbk.ModuleScan

/-!
# Loading a Lua VM: `odbk_load_lua_internal`

A load fills the symbols map, from the exports of the given module or, for a
null handle, from the process, and then binds the API to it. Proved here:

* `odbkLoadLuaInternal_module`: a load of a given module depends on that
  module's exports alone;
* `odbkLoadLuaInternal_process`: a load with a null handle binds the symbols that
  were left over, merged with the exports of the first specified module loaded,
  as no scan finds anything with an empty restriction set;
* `odbkLoadLuaInternal_ok`: whatever the handle, a load binds the API in a process
  that still has its pointers, its hooks and its version fields;
* `configured_load`: loads never set the restriction set;
* `failed_load_keeps`: what a failed load changes;
* `static_link_not_found`: statically linked Lua is never found.
-/

namespace Odbk

open BindScript

/-- `odbk_get_exports` -/
def odbkGetExports (W : World) (hModule : Handle) (exports : Symbols) : Symbols :=
  exports.emplaceAll (W.exports hModule)

def builtinModules : List String :=
  ["lua51.dll", "lua52.dll", "lua53.dll", "liblua51.dll", "liblua52.dll", "liblua53.dll",
    "slua.dll", "ulua.dll", "tolua.dll", "xlua.dll"]

def useSlibWarnMsg : String :=
  "Warning: The lua engine dynamic library not found, it maybe take more than 7 seconds to start "
    ++ "debug at first time after the target .exe changed!\n"
    ++ "*** Suggest use dynamic lua engine library, then:\n"
    ++ "1.You can start debug fastly at anytime\n"
    ++ "2.You can debug release mode exe without .pdb\n"

/-- `load_specified_modules` -/
def loadSpecifiedModules (p : Process) : Bool := !p.ctx.specifiedModules.isEmpty

/-- `load_sym_from_cache` -/
def loadSymFromCache : Bool := false

/-- `load_sym_restricts` returns before it reads anything. -/
def loadSymRestricts (p : Process) : Process := p

def Process.useBuiltin (p : Process) : Process :=
  if loadSpecifiedModules p then p
  else { p with ctx := { p.ctx with specifiedModules := builtinModules } }

/-- The first of the named modules that is loaded. -/
def World.firstLoaded (W : World) (names : List String) : Option Handle :=
  (names.map W.getModuleHandle).find? (· ≠ nullptr)

/-- The symbols of the first specified module that is loaded. -/
def tryExports (W : World) (p : Process) : Process :=
  match W.firstLoaded p.ctx.specifiedModules with
  | some handle => p.withSymbols (odbkGetExports W handle p.ctx.symbols)
  | none => p

/-- The branch of `odbk_load_lua_internal` for a null handle. -/
def loadFromProcess (W : World) (core : OdbkCore) (p : Process) : Except Fault Process :=
  let p := tryExports W p.useBuiltin
  if p.ctx.symbols.isEmpty then
    let p := p.print .warn useSlibWarnMsg
    if loadSymFromCache then .ok p
    else
      let p := if p.ctx.restricts = [] then loadSymRestricts p else p
      match loadSymFromAppModules W core p with
      | .error e => .error e
      | .ok s => .ok s.process
  else .ok p

/-- `odbk_load_lua_internal` -/
def odbkLoadLuaInternal (W : World) (core : OdbkCore) (hLua : Handle) (p : Process) :
    Except Fault (Process × Bool) :=
  if hLua = nullptr then
    match loadFromProcess W core p with
    | .error e => .error e
    | .ok p => .ok (odbkLuaFinishLoad p)
  else .ok (odbkLuaFinishLoad (p.withSymbols (odbkGetExports W hLua .empty)))

/-! ## A given module -/

/-- The symbols of one module alone. -/
def moduleTable (W : World) (hModule : Handle) : Symbols := odbkGetExports W hModule .empty

theorem odbkLoadLuaInternal_module (W : World) (core : OdbkCore) {hLua : Handle}
    (h : hLua ≠ nullptr) (p : Process) :
    odbkLoadLuaInternal W core hLua p =
      .ok (odbkLuaFinishLoad (p.withSymbols (moduleTable W hLua))) := by
  simp [odbkLoadLuaInternal, h, moduleTable]

theorem load_exporting (base : Addr) (fns : List Fn) (core : OdbkCore) (p : Process) :
    odbkLoadLuaInternal (World.exporting (stockTable base fns)) core 1 p =
      .ok ((odbkLuaFinishLoad (p.withSymbols (stockSymbols base fns))).1,
        accepts (stockSymbols base fns)) := by
  have hn : (1 : Handle) ≠ nullptr := by decide
  rw [odbkLoadLuaInternal_module _ core hn]
  exact congrArg Except.ok (Prod.ext rfl (odbkLuaFinishLoad_snd _))

/-! ## The process -/

/-- What every process keeps that only loads change: nothing sets the restriction
set, and the specified modules are the built-in ones once they are set. -/
structure Configured (p : Process) : Prop where
  restricts : p.ctx.restricts = []
  specified : p.ctx.specifiedModules = [] ∨ p.ctx.specifiedModules = builtinModules

theorem configured_fresh (dbghelp : DbgFn → Bool) : Configured (Process.fresh dbghelp) :=
  ⟨rfl, Or.inl rfl⟩

/-- The exports of the first builtin-named module loaded. -/
def processExports (W : World) : List (String × Addr) :=
  match W.firstLoaded builtinModules with
  | some handle => W.exports handle
  | none => []

theorem specifiedModules_useBuiltin {p : Process} (hp : Configured p) :
    p.useBuiltin.ctx.specifiedModules = builtinModules := by
  unfold Process.useBuiltin loadSpecifiedModules
  rcases hp.specified with h | h <;> simp [h, builtinModules]

theorem useBuiltin_frame (p : Process) :
    p.useBuiltin = { p with ctx := { p.ctx with
      specifiedModules := p.useBuiltin.ctx.specifiedModules } } := by
  unfold Process.useBuiltin
  split <;> rfl

/-- The process a load with a null handle binds, before any scan. -/
def merged (W : World) (p : Process) : Process :=
  { p with ctx := { p.ctx with
    specifiedModules := builtinModules
    symbols := p.ctx.symbols.emplaceAll (processExports W) } }

theorem tryExports_eq {p : Process} (W : World) (hp : Configured p) :
    tryExports W p.useBuiltin = merged W p := by
  have hs := specifiedModules_useBuiltin hp
  have hf := useBuiltin_frame p
  rw [hs] at hf
  rw [hf]
  unfold tryExports merged processExports
  cases W.firstLoaded builtinModules with
  | none => simp only [EmplaceMap.emplaceAll_nil]
  | some handle => rfl

/-- The symbol scan of a new process returns. -/
def ScanReturns (W : World) (core : OdbkCore) (dbghelp : DbgFn → Bool) : Prop :=
  ∃ s, loadSymFromAppModules W core (Process.fresh dbghelp) = .ok s

theorem scanReturns_iff {W : World} {core : OdbkCore} {p : Process}
    (hr : p.ctx.restricts = []) :
    ScanReturns W core p.dbghelp ↔ ∃ s, loadSymFromAppModules W core p = .ok s := by
  have hd : (Process.fresh p.dbghelp).dbghelp = p.dbghelp := rfl
  have hf : (Process.fresh p.dbghelp).ctx.restricts = [] := rfl
  constructor
  · rintro ⟨s, h⟩
    exact loadSymFromAppModules_alike hd hf hr h
  · rintro ⟨s, h⟩
    exact loadSymFromAppModules_alike hd.symm hr hf h

theorem loadFromProcess_ok {W : World} {core : OdbkCore} {p q : Process} (hp : Configured p)
    (h : loadFromProcess W core p = .ok q) :
    ∃ log, q = { merged W p with log := log } := by
  unfold loadFromProcess at h
  simp only [tryExports_eq W hp, loadSymRestricts, ite_self, loadSymFromCache] at h
  split at h
  case isTrue =>
    cases hs : loadSymFromAppModules W core ((merged W p).print .warn useSlibWarnMsg) with
    | error e => simp [hs] at h
    | ok s =>
      have hr : ((merged W p).print .warn useSlibWarnMsg).ctx.restricts = [] := hp.restricts
      have hc := loadSymFromAppModules_of_no_restricts hr hs
      have hq : q = s.process := by simpa [hs] using h.symm
      refine ⟨s.process.log, ?_⟩
      rw [hq]
      exact (scan_frame hs).eq_of_ctx hc
  case isFalse =>
    cases h
    exact ⟨(merged W p).log, rfl⟩

theorem loadFromProcess_returns_iff {W : World} {core : OdbkCore} {p : Process}
    (hp : Configured p) :
    (∃ q, loadFromProcess W core p = .ok q) ↔
      ((merged W p).ctx.symbols.isEmpty = true → ScanReturns W core p.dbghelp) := by
  unfold loadFromProcess
  simp only [tryExports_eq W hp, loadSymRestricts, ite_self, loadSymFromCache]
  have hr : ((merged W p).print .warn useSlibWarnMsg).ctx.restricts = [] := hp.restricts
  rw [show p.dbghelp = ((merged W p).print .warn useSlibWarnMsg).dbghelp from rfl,
    scanReturns_iff hr]
  by_cases he : (merged W p).ctx.symbols.isEmpty = true
  · rw [if_pos (by exact he)]
    cases loadSymFromAppModules W core ((merged W p).print .warn useSlibWarnMsg) with
    | error e => simp [he]
    | ok s => simp
  · rw [if_neg (by exact he)]
    simp [he]

/-- **A load with a null handle** binds the merged symbols. -/
theorem odbkLoadLuaInternal_process {W : World} {core : OdbkCore} {p : Process} {r : Process × Bool}
    (hp : Configured p) (h : odbkLoadLuaInternal W core nullptr p = .ok r) :
    ∃ log, r = odbkLuaFinishLoad { merged W p with log := log } := by
  simp only [odbkLoadLuaInternal, if_true] at h
  cases hl : loadFromProcess W core p with
  | error e =>
    rw [hl] at h
    cases h
  | ok q =>
    rw [hl] at h
    cases h
    obtain ⟨log, rfl⟩ := loadFromProcess_ok hp hl
    exact ⟨log, rfl⟩

/-- When a load with a null handle returns: it scans only if nothing was found. -/
theorem odbkLoadLuaInternal_process_returns_iff {W : World} {core : OdbkCore} {p : Process}
    (hp : Configured p) :
    (∃ r, odbkLoadLuaInternal W core nullptr p = .ok r) ↔
      ((merged W p).ctx.symbols.isEmpty = true → ScanReturns W core p.dbghelp) := by
  rw [← loadFromProcess_returns_iff hp]
  simp only [odbkLoadLuaInternal, if_true]
  cases loadFromProcess W core p with
  | error e => simp
  | ok q => simp

/-! ## Any load -/

/-- Filling the symbols map leaves what the binding and the hooks work on. -/
structure FillFrame (p q : Process) : Prop where
  ptr : q.ptr = p.ptr
  registry : q.registry = p.registry
  dbghelp : q.dbghelp = p.dbghelp
  ctx : q.ctx = { p.ctx with
    specifiedModules := q.ctx.specifiedModules
    symbols := q.ctx.symbols
    keyModule := q.ctx.keyModule
    keyModuleName := q.ctx.keyModuleName }

theorem ScanFrame.fill {p q r : Process} (hpq : q = { p with ctx := { p.ctx with
    specifiedModules := q.ctx.specifiedModules, symbols := q.ctx.symbols } })
    (h : ScanFrame q r) : FillFrame p r := by
  constructor
  · rw [h.ptr, hpq]
  · rw [h.registry, hpq]
  · rw [h.dbghelp, hpq]
  · rw [h.ctx, hpq]

theorem tryExports_frame (W : World) (p : Process) :
    tryExports W p = { p with ctx := { p.ctx with symbols := (tryExports W p).ctx.symbols } } := by
  unfold tryExports
  split <;> rfl

theorem loadFromProcess_frame {W : World} {core : OdbkCore} {p q : Process}
    (h : loadFromProcess W core p = .ok q) : FillFrame p q := by
  have hb := useBuiltin_frame p
  have ht := tryExports_frame W p.useBuiltin
  generalize hx : tryExports W p.useBuiltin = x at ht
  have hpx : x = { p with ctx := { p.ctx with
      specifiedModules := x.ctx.specifiedModules, symbols := x.ctx.symbols } } := by
    rw [ht, hb]
  simp only [loadFromProcess, hx, loadSymRestricts, ite_self, loadSymFromCache] at h
  split at h
  case isTrue =>
    cases hs : loadSymFromAppModules W core (x.print .warn useSlibWarnMsg) with
    | error e => simp [hs] at h
    | ok s =>
      have hq : q = s.process := by simpa [hs] using h.symm
      have hlog : ScanFrame x (x.print .warn useSlibWarnMsg) := ⟨rfl, rfl, rfl, rfl⟩
      rw [hq]
      exact ScanFrame.fill hpx (hlog.trans (scan_frame hs))
  case isFalse =>
    cases h
    exact ScanFrame.fill hpx (ScanFrame.refl q)

theorem restricts_tryExports (W : World) (p : Process) :
    (tryExports W p.useBuiltin).ctx.restricts = p.ctx.restricts := by
  rw [tryExports_frame, useBuiltin_frame]

/-- With symbols exported there is no scan. -/
theorem loadFromProcess_of_symbols {W : World} {core : OdbkCore} {p : Process}
    (h : (tryExports W p.useBuiltin).ctx.symbols.isEmpty = false) :
    loadFromProcess W core p = .ok (tryExports W p.useBuiltin) := by
  simp only [loadFromProcess, h, Bool.false_eq_true, if_false]

/-- With an empty restriction set the symbols are those exported. -/
theorem loadFromProcess_symbols {W : World} {core : OdbkCore} {p q : Process}
    (hr : p.ctx.restricts = []) (h : loadFromProcess W core p = .ok q) :
    q.ctx.symbols = (tryExports W p.useBuiltin).ctx.symbols := by
  have hx := restricts_tryExports W p
  simp only [loadFromProcess, loadSymRestricts, ite_self, loadSymFromCache] at h
  generalize tryExports W p.useBuiltin = x at h hx
  split at h
  case isTrue =>
    cases hs : loadSymFromAppModules W core (x.print .warn useSlibWarnMsg) with
    | error e => simp [hs] at h
    | ok s =>
      have hq : q = s.process := by simpa [hs] using h.symm
      have hr' : (x.print .warn useSlibWarnMsg).ctx.restricts = [] := hx.trans hr
      rw [hq, loadSymFromAppModules_of_no_restricts hr' hs]
      rfl
  case isFalse =>
    cases h
    rfl

/-- **Any load** fills the symbols map and binds the API. -/
theorem odbkLoadLuaInternal_ok {W : World} {core : OdbkCore} {hLua : Handle} {p : Process}
    {r : Process × Bool} (h : odbkLoadLuaInternal W core hLua p = .ok r) :
    ∃ q, r = odbkLuaFinishLoad q ∧ FillFrame p q := by
  unfold odbkLoadLuaInternal at h
  split at h
  case isTrue =>
    cases hl : loadFromProcess W core p with
    | error e =>
      rw [hl] at h
      cases h
    | ok q =>
      rw [hl] at h
      cases h
      exact ⟨q, rfl, loadFromProcess_frame hl⟩
  case isFalse =>
    cases h
    exact ⟨_, rfl, rfl, rfl, rfl, rfl⟩

theorem odbkLuaFinishLoad_ctx_frame (p : Process) :
    (odbkLuaFinishLoad p).1.ctx.restricts = p.ctx.restricts ∧
      (odbkLuaFinishLoad p).1.ctx.specifiedModules = p.ctx.specifiedModules ∧
      (odbkLuaFinishLoad p).1.ctx.symbols = p.ctx.symbols := by
  rw [ctx_odbkLuaFinishLoad]
  cases detectVersion p.ctx.symbols with
  | none => exact ⟨rfl, rfl, rfl⟩
  | some v => exact ⟨rfl, rfl, rfl⟩

/-- **Step lemma.** Loads never set the restriction set. -/
theorem configured_load {W : World} {core : OdbkCore} {hLua : Handle} {p : Process}
    {r : Process × Bool} (hp : Configured p) (h : odbkLoadLuaInternal W core hLua p = .ok r) :
    Configured r.1 := by
  by_cases hn : hLua = nullptr
  · subst hn
    obtain ⟨log, rfl⟩ := odbkLoadLuaInternal_process hp h
    obtain ⟨hr, hs, _⟩ := odbkLuaFinishLoad_ctx_frame { merged W p with log := log }
    exact ⟨hr.trans hp.restricts, Or.inr hs⟩
  · rw [odbkLoadLuaInternal_module W core hn, Except.ok.injEq] at h
    subst h
    obtain ⟨hr, hs, _⟩ := odbkLuaFinishLoad_ctx_frame (p.withSymbols (moduleTable W hLua))
    exact ⟨hr.trans hp.restricts, hs ▸ hp.specified⟩

/-! ## Failed loads -/

/-- **A failed load is not undone.** The symbols are those of the new module. Unless
it is no Lua at all, the version fields are set from it, and the pointers
bound up to the first missing name hold what it gives. Everything else stays. -/
theorem failed_load_keeps (W : World) (core : OdbkCore) {hLua : Handle} (hn : hLua ≠ nullptr)
    (p : Process) {q : Process} (h : odbkLoadLuaInternal W core hLua p = .ok (q, false)) :
    q.ctx.symbols = moduleTable W hLua ∧ q.registry = p.registry ∧
      match detectVersion (moduleTable W hLua) with
      | none => q = p.withSymbols (moduleTable W hLua)
      | some v =>
        q.ctx = (p.withSymbols (moduleTable W hLua)).ctx.setVersion v ∧
        ∃ pre s post, selected (moduleTable W hLua) v = pre ++ s :: post ∧
          missing (getLuaFn (moduleTable W hLua)) s = true ∧
          (∀ t ∈ pre, missing (getLuaFn (moduleTable W hLua)) t = false) ∧
          ∀ f, q.ptr f = ((pre ++ [s]).filter fun t => t.slot = f).getLast?.elim (p.ptr f)
            fun t => firstOf (getLuaFn (moduleTable W hLua)) t.names := by
  rw [odbkLoadLuaInternal_module W core hn, Except.ok.injEq] at h
  have hq : q = (odbkLuaFinishLoad (p.withSymbols (moduleTable W hLua))).1 := by rw [h]
  have hacc : accepts (moduleTable W hLua) = false := by
    have := odbkLuaFinishLoad_snd (p.withSymbols (moduleTable W hLua))
    rw [h] at this
    exact this.symm
  refine ⟨?_, ?_, ?_⟩
  · rw [hq]
    exact (odbkLuaFinishLoad_ctx_frame _).2.2
  · rw [hq, registry_odbkLuaFinishLoad]
    rfl
  cases hv : detectVersion (moduleTable W hLua) with
  | none =>
    have hv' : detectVersion (p.withSymbols (moduleTable W hLua)).ctx.symbols = none := hv
    rw [odbkLuaFinishLoad_eq, hv'] at hq
    exact hq
  | some v =>
    have hv' : detectVersion (p.withSymbols (moduleTable W hLua)).ctx.symbols = some v := hv
    cases hm : firstMissing (moduleTable W hLua) v with
    | none =>
      rw [(accepts_iff _).mpr ⟨v, hv, hm⟩] at hacc
      cases hacc
    | some s =>
      obtain ⟨pre, post, hsel, hpre, hptr⟩ := ptr_of_missing _ hv' hm
      refine ⟨?_, pre, s, post, hsel, List.find?_some hm, hpre, fun f => ?_⟩
      · rw [hq, ctx_odbkLuaFinishLoad, hv']
      · rw [hq]
        exact hptr f

/-- A module with the first functions of Lua 5.2; `lua_close` is missing. -/
def truncatedWorld : World := World.exporting (stockTable 1048576 truncatedFns)

/-- The refused module takes two pointers and clears a third; the others stay with the
module before it. -/
theorem failed_load_keeps_truncated :
    ∃ p q, odbkLoadLuaInternal (World.exporting (stockTable 4096 lua51Fns)) ⟨0, 0⟩ 1
        (Process.fresh fun _ => true) = .ok (p, true) ∧
      odbkLoadLuaInternal truncatedWorld ⟨0, 0⟩ 1 p = .ok (q, false) ∧
      q.ptr .luaNewthread = some (.image (Fn.stockAddr 1048576 .luaNewthread)) ∧
      p.ptr .luaClose = some (.image (Fn.stockAddr 4096 .luaClose)) ∧ q.ptr .luaClose = none ∧
      q.ptr .luaPushstring = some (.image (Fn.stockAddr 4096 .luaPushstring)) := by
  have hfirst := load_exporting 4096 lua51Fns ⟨0, 0⟩ (Process.fresh fun _ => true)
  have hclose := ptr_stockSymbols (f := .luaClose) (accepts_lua51 4096) (by decide) rfl rfl
    (Process.fresh fun _ => true)
  have hpush := ptr_stockSymbols (f := .luaPushstring) (accepts_lua51 4096) (by decide) rfl rfl
    (Process.fresh fun _ => true)
  rw [accepts_lua51] at hfirst
  generalize (odbkLuaFinishLoad ((Process.fresh fun _ => true).withSymbols
    (stockSymbols 4096 lua51Fns))).1 = p at hfirst hclose hpush
  have hsecond := load_exporting 1048576 truncatedFns ⟨0, 0⟩ p
  rw [accepts_truncated] at hsecond
  generalize (odbkLuaFinishLoad (p.withSymbols (stockSymbols 1048576 truncatedFns))).1 = q at hsecond
  obtain ⟨_, _, hkept⟩ := failed_load_keeps truncatedWorld ⟨0, 0⟩ (by decide) p hsecond
  have hT : moduleTable truncatedWorld 1 = stockSymbols 1048576 truncatedFns := rfl
  rw [hT, detectVersion_truncated] at hkept
  obtain ⟨_, pre, s, post, hsel, hmiss, hpre, hptr⟩ := hkept
  -- the steps run, up to the one for `lua_close`
  have hrun := (reached_append hpre hmiss post).symm
  rw [← hsel] at hrun
  rw [hrun.trans executed_truncated] at hptr
  refine ⟨p, q, hfirst, hsecond, ?_, hclose, ?_, ?_⟩
  · simp [hptr, getFunction, getFunctionOptional, getFunctionUnless, firstOf,
      getLuaFn_stockSymbols, truncatedFns]
  · simp [hptr, getFunction, getFunctionOptional, getFunctionUnless, firstOf,
      getLuaFn_stockSymbols, truncatedFns]
  · simp [hptr, getFunction, getFunctionOptional, getFunctionUnless, hpush]

/-- A module that exports `lua_gettop` and nothing else. -/
def gettopWorld : World := World.exporting (stockTable 4096 [.luaGettop])

theorem load_gettopWorld (core : OdbkCore) (p : Process) :
    odbkLoadLuaInternal gettopWorld core 1 p =
      .ok ((odbkLuaFinishLoad (p.withSymbols (moduleTable gettopWorld 1))).1, false) := by
  have hacc : accepts (stockSymbols 4096 [.luaGettop]) = false := by decide +kernel
  rw [gettopWorld, load_exporting, hacc]
  rfl

/-- The load fails, and the version fields and the symbols are not as they were. -/
theorem failed_load_changes_context :
    ∃ q, odbkLoadLuaInternal gettopWorld ⟨0, 0⟩ 1 (Process.fresh fun _ => true) = .ok (q, false) ∧
      q.ctx.registryIndex ≠ (Process.fresh fun _ => true).ctx.registryIndex ∧
      q.ctx.symbols.isEmpty ≠ (Process.fresh fun _ => true).ctx.symbols.isEmpty := by
  have hv : detectVersion (moduleTable gettopWorld 1) =
      some ⟨510, -10000, -10002, some luaHookTailRet⟩ := by decide +kernel
  refine ⟨_, load_gettopWorld _ _, ?_, ?_⟩
  · rw [ctx_odbkLuaFinishLoad]
    have hv' : detectVersion ((Process.fresh fun _ => true).withSymbols
        (moduleTable gettopWorld 1)).ctx.symbols = _ := hv
    rw [hv']
    decide
  · rw [(odbkLuaFinishLoad_ctx_frame _).2.2]
    decide +kernel

/-! ## Statically linked Lua -/

/-- The symbols of an enumeration that have a name. -/
def namedSymbols (l : List (Option SymbolInfo)) : List (String × Addr) :=
  l.filterMap fun i =>
    match i with
    | some ⟨some name, address⟩ => some (name, address)
    | _ => none

/-- Lua is linked into module `M`: no module with a built-in name is loaded, `M` is
in the snapshot, its debug symbols have all that a load requires, and no other
module has `lua*` symbols. -/
structure StaticallyLinked (W : World) (core : OdbkCore) (dbghelp : DbgFn → Bool) (M : Handle) :
    Prop where
  loaded : ∀ f, dbghelp f = true
  noBuiltin : ∀ name ∈ builtinModules, W.getModuleHandle name = nullptr
  snapshot : ∃ entries, W.snapshot = some entries ∧ M ∈ entries
  notApp : M ≠ core.appInst
  symbols : ∃ o l, openSymbols W dbghelp M = .ok o ∧ o.base ≠ 0 ∧
    (∀ e ∈ l, e ∈ namedSymbols (W.luaSymbols M o.source)) ∧
    accepts (EmplaceMap.empty.emplaceAll l) = true
  alone : ∀ h source, h ≠ M → namedSymbols (W.luaSymbols h source) = []

theorem firstLoaded_eq_none {W : World} {names : List String}
    (h : ∀ name ∈ names, W.getModuleHandle name = nullptr) : W.firstLoaded names = none := by
  rw [World.firstLoaded, List.find?_eq_none]
  intro a ha
  obtain ⟨name, hname, rfl⟩ := List.mem_map.mp ha
  simp [h name hname]

/-- A new process without a builtin-named module binds the empty table. -/
theorem load_without_builtin {W : World} {core : OdbkCore} {dbghelp : DbgFn → Bool}
    (hd : ∀ f, dbghelp f = true)
    (hb : ∀ name ∈ builtinModules, W.getModuleHandle name = nullptr) :
    ∃ q, odbkLoadLuaInternal W core nullptr (Process.fresh dbghelp) = .ok (q, false) ∧
      ∀ f, q.ptr f = none := by
  have hc := configured_fresh dbghelp
  have hx : processExports W = [] := by rw [processExports, firstLoaded_eq_none hb]
  have hs : (merged W (Process.fresh dbghelp)).ctx.symbols = .empty := by
    rw [merged, hx]
    rfl
  obtain ⟨r, hr⟩ := (odbkLoadLuaInternal_process_returns_iff hc).mpr fun _ =>
    loadSymFromAppModules_ok W core (p := Process.fresh dbghelp) hd
  obtain ⟨log, hlog⟩ := odbkLoadLuaInternal_process hc hr
  have hv : detectVersion ({ merged W (Process.fresh dbghelp) with log := log }).ctx.symbols =
      none := by
    rw [show ({ merged W (Process.fresh dbghelp) with log := log } : Process).ctx.symbols =
      .empty from hs]
    rfl
  rw [odbkLuaFinishLoad_eq, hv] at hlog
  refine ⟨_, by rw [hr, hlog], fun f => rfl⟩

/-- **Statically linked Lua is never found**: the restriction set is never read, so
no symbol passes it. -/
theorem static_link_not_found {W : World} {core : OdbkCore} {dbghelp : DbgFn → Bool} {M : Handle}
    (h : StaticallyLinked W core dbghelp M) :
    ∃ q, odbkLoadLuaInternal W core nullptr (Process.fresh dbghelp) = .ok (q, false) ∧
      ∀ f, q.ptr f = none :=
  load_without_builtin h.loaded h.noBuiltin

/-- A process whose only module, `1`, has Lua 5.1 linked into it. -/
def staticWorld : World where
  modules := [1]
  getModuleHandle _ := nullptr
  exports _ := []
  imports _ := []
  snapshot := some [1]
  moduleName _ := "game.exe"
  moduleFileName _ := "C:\\game.exe"
  symLoadModule64 _ _ := 4096
  symGetModuleInfo64 _ _ := some ⟨.symOther, ""⟩
  pdbFileExists _ := false
  locateSymFile _ _ := none
  luaSymbols h _ :=
    if h = 1 then (stockTable 4096 lua51Fns).map fun e => some ⟨some e.1, e.2⟩ else []
  getModuleHandle_mem := by simp
  snapshot_mem := by simp

theorem namedSymbols_some (l : List (String × Addr)) :
    namedSymbols (l.map fun e => some ⟨some e.1, e.2⟩) = l := by
  rw [namedSymbols, List.filterMap_map]
  exact List.filterMap_some

theorem staticallyLinked_staticWorld : StaticallyLinked staticWorld ⟨7, 0⟩ (fun _ => true) 1 where
  loaded _ := rfl
  noBuiltin _ _ := rfl
  snapshot := ⟨[1], rfl, List.mem_singleton.mpr rfl⟩
  notApp := by decide
  symbols :=
    ⟨⟨4096, .image, some ⟨.symOther, ""⟩, [.symLoadModule64 1 .image]⟩, stockTable 4096 lua51Fns,
      rfl, by decide, fun e he => by
        show e ∈ namedSymbols ((stockTable 4096 lua51Fns).map fun e => some ⟨some e.1, e.2⟩)
        rwa [namedSymbols_some],
      accepts_lua51 4096⟩
  alone h source hne := by
    show namedSymbols (if h = 1 then _ else []) = []
    rw [if_neg hne]
    rfl

theorem static_link_not_found_lua51 :
    ∃ q, odbkLoadLuaInternal staticWorld ⟨7, 0⟩ nullptr (Process.fresh fun _ => true) =
        .ok (q, false) ∧ ∀ f, q.ptr f = none :=
  static_link_not_found staticallyLinked_staticWorld

/-- Lua 5.1 is linked into the program, and the load does not find it. -/
theorem static_lua51_missed :
    StaticallyLinked staticWorld ⟨7, 0⟩ (fun _ => true) 1 ∧
      ¬ ∃ q, odbkLoadLuaInternal staticWorld ⟨7, 0⟩ nullptr (Process.fresh fun _ => true) =
        .ok (q, true) := by
  refine ⟨staticallyLinked_staticWorld, ?_⟩
  rintro ⟨q, hq⟩
  have h := staticallyLinked_staticWorld
  obtain ⟨q', hq', _⟩ := load_without_builtin h.loaded h.noBuiltin
  rw [hq'] at hq
  cases hq

end Odbk
