import Odbk.Thunks

/-!
# The integer and raw-access wrappers of `odbk_lload.h`

The backend names an API function by a macro. For the functions with an integer
parameter or result the macro stands for the pointer on 64-bit builds and for a
thunk on 32-bit builds; `lua_tointeger` stands for a function that calls
`lua_tointegerx`. Proved here:

* `enters_eq`: in both configurations a wrapper calls through one pointer;
* `wrappers_served_iff`: which tables have all their wrappers served.
-/

namespace Odbk

open InlineAsm

/-! ## The macros -/

/-- `ODBK_BITS` -/
inductive Bits where
  | bits32 | bits64
  deriving DecidableEq, Repr

/-- The functions `__f__thunk`. -/
inductive Thunk where
  | luaRawgeti | luaRawseti | luaPushinteger | luaTointegerx
  deriving DecidableEq, Repr

/-- The name the thunk is pasted from. -/
def Thunk.fn : Thunk → Fn
  | .luaRawgeti => .luaRawgeti
  | .luaRawseti => .luaRawseti
  | .luaPushinteger => .luaPushinteger
  | .luaTointegerx => .luaTointegerx

/-- What a macro stands for. -/
inductive Callee where
  | pointer (f : Fn)
  | thunk (t : Thunk)
  deriving DecidableEq, Repr

/-- `ODBK_GET_FUN` -/
def odbkGetFun (f : Fn) : Callee := .pointer f

/-- `ODBK_GET_FUN_THUNK` -/
def odbkGetFunThunk (bits : Bits) (t : Thunk) : Callee :=
  match bits with
  | .bits32 => .thunk t
  | .bits64 => odbkGetFun t.fn

/-! ## Calls -/

/-- The arguments of a wrapper call; each wrapper reads its own. -/
structure WrapperArgs where
  L : Dword
  idx : Dword
  n : BitVec 64
  isnum : Dword

def Thunk.run (p : Process) (m : Machine) (args : WrapperArgs) :
    Thunk → Except ThunkStop ThunkState
  | .luaRawgeti => luaRawgetiThunk p m args.L args.idx args.n
  | .luaRawseti => luaRawsetiThunk p m args.L args.idx args.n
  | .luaPushinteger => luaPushintegerThunk p m args.L args.n
  | .luaTointegerx => luaTointegerxThunk p m args.L args.idx args.isnum

/-- A call through one pointer. -/
def callThrough (p : Process) (f : Fn) : Except ThunkStop (List (Code Addr)) :=
  match p.ptr f with
  | none => .error (.nullCall f)
  | some c => .ok [c]

/-- The code that a call enters through the API pointers. -/
def Callee.enters (p : Process) (m : Machine) (args : WrapperArgs) :
    Callee → Except ThunkStop (List (Code Addr))
  | .pointer f => callThrough p f
  | .thunk t => (t.run p m args).map fun s => s.calls.map Prod.fst

/-- `__lua_tointeger__compact` -/
def luaTointegerCompact (bits : Bits) (p : Process) (m : Machine) (args : WrapperArgs) :
    Except ThunkStop (List (Code Addr)) :=
  (odbkGetFunThunk bits .luaTointegerx).enters p m { args with isnum := 0 }

inductive Wrapper where
  | luaRawgeti | luaRawseti | luaPushinteger | luaTointeger | luaTointegerx
  deriving DecidableEq, Repr

/-- The code that a wrapper call enters through the API pointers. -/
def Wrapper.enters (bits : Bits) (p : Process) (m : Machine) (args : WrapperArgs) :
    Wrapper → Except ThunkStop (List (Code Addr))
  | .luaRawgeti => (odbkGetFunThunk bits .luaRawgeti).enters p m args
  | .luaRawseti => (odbkGetFunThunk bits .luaRawseti).enters p m args
  | .luaPushinteger => (odbkGetFunThunk bits .luaPushinteger).enters p m args
  | .luaTointeger => luaTointegerCompact bits p m args
  | .luaTointegerx => (odbkGetFunThunk bits .luaTointegerx).enters p m args

/-- The pointer that a wrapper calls through. -/
def Wrapper.pointer : Wrapper → Fn
  | .luaRawgeti => .luaRawgeti
  | .luaRawseti => .luaRawseti
  | .luaPushinteger => .luaPushinteger
  | .luaTointeger => .luaTointegerx
  | .luaTointegerx => .luaTointegerx

theorem thunk_enters (p : Process) (m : Machine) (args : WrapperArgs) (t : Thunk) :
    (Callee.thunk t).enters p m args = callThrough p t.fn := by
  have hpush : ∀ f front vars, (runThunk p m
      (pushThunkCode f front (4 * (front.length + 1)) (4 * (front.length + 2))) vars).map
        (fun s => s.calls.map Prod.fst) = callThrough p f := by
    intro f front vars
    rw [pushThunk_run p m f front rfl rfl vars, callThrough]
    cases p.ptr f <;> rfl
  rw [Callee.enters]
  cases t with
  | luaRawgeti => exact hpush .luaRawgeti [.idx, .l] _
  | luaRawseti => exact hpush .luaRawseti [.idx, .l] _
  | luaPushinteger => exact hpush .luaPushinteger [.l] _
  | luaTointegerx =>
    simp only [Thunk.run, luaTointegerxThunk, Thunk.fn]
    rw [tointegerxThunk_run, callThrough]
    cases p.ptr .luaTointegerx <;> rfl

/-- **A wrapper calls through its pointer**, in both configurations. -/
theorem enters_eq (bits : Bits) (p : Process) (m : Machine) (args : WrapperArgs) (w : Wrapper) :
    w.enters bits p m args = callThrough p w.pointer := by
  have h : ∀ t args, (odbkGetFunThunk bits t).enters p m args = callThrough p t.fn := by
    intro t args
    cases bits with
    | bits32 => exact thunk_enters p m args t
    | bits64 => rfl
  cases w with
  | luaRawgeti => exact h .luaRawgeti args
  | luaRawseti => exact h .luaRawseti args
  | luaPushinteger => exact h .luaPushinteger args
  | luaTointeger => exact h .luaTointegerx _
  | luaTointegerx => exact h .luaTointegerx args

/-! ## Tables and wrappers -/

/-- The VM functions by which a wrapper could be served. -/
def Wrapper.names : Wrapper → List String
  | .luaRawgeti => ["lua_rawgeti"]
  | .luaRawseti => ["lua_rawseti"]
  | .luaPushinteger => ["lua_pushinteger"]
  | .luaTointeger => ["lua_tointeger", "lua_tointegerx"]
  | .luaTointegerx => ["lua_tointegerx"]

/-- A call enters one function of the table and goes through no null pointer. -/
def Reaches (T : Symbols) (r : Except ThunkStop (List (Code Addr))) : Prop :=
  ∃ name a, T.find? name = some a ∧ a ≠ 0 ∧ r = .ok [.image a]

/-- Every wrapper that the table has a function for reaches one. -/
def WrappersServed (bits : Bits) (T : Symbols) (p : Process) : Prop :=
  ∀ w : Wrapper, (∃ name ∈ w.names, (getLuaFn T name).isSome = true) →
    ∀ m args, Reaches T (w.enters bits p m args)

/-- The pointer of a wrapper after a load in a new process. -/
theorem ptr_wrapper (dbghelp : DbgFn → Bool) {T : Symbols} (ha : accepts T = true) (w : Wrapper) :
    (freshLoad dbghelp T).ptr w.pointer =
      if w = .luaRawseti then none else getLuaFn T w.pointer.name := by
  rw [ptr_freshLoad dbghelp ha]
  cases w with
  | luaRawseti => rfl
  | _ => exact offer_of_bindNames rfl T

theorem reaches_iff (bits : Bits) (dbghelp : DbgFn → Bool) {T : Symbols} (ha : accepts T = true)
    (w : Wrapper) (m : Machine) (args : WrapperArgs) :
    Reaches T (w.enters bits (freshLoad dbghelp T) m args) ↔
      w ≠ .luaRawseti ∧ (getLuaFn T w.pointer.name).isSome = true := by
  rw [enters_eq, callThrough, ptr_wrapper dbghelp ha]
  by_cases hw : w = .luaRawseti
  · subst hw
    constructor
    · rintro ⟨name, a, _, _, hr⟩
      cases hr
    · rintro ⟨hne, _⟩
      exact absurd rfl hne
  · rw [if_neg hw]
    cases hg : getLuaFn T w.pointer.name with
    | none =>
      constructor
      · rintro ⟨name, a, _, _, hr⟩
        cases hr
      · rintro ⟨_, hs⟩
        cases hs
    | some c =>
      obtain ⟨a, rfl⟩ := image_of_getLuaFn hg
      refine ⟨fun _ => ⟨hw, rfl⟩, fun _ => ⟨_, a, find_of_getLuaFn hg, ?_, rfl⟩⟩
      rintro rfl
      rw [getLuaFn, find_of_getLuaFn hg] at hg
      simp at hg

theorem offered_of_served {bits : Bits} {dbghelp : DbgFn → Bool} {T : Symbols}
    (ha : accepts T = true) (h : WrappersServed bits T (freshLoad dbghelp T)) {w : Wrapper}
    (hw : ∃ name ∈ w.names, (getLuaFn T name).isSome = true) :
    w ≠ .luaRawseti ∧ (getLuaFn T w.pointer.name).isSome = true := by
  -- any machine and any arguments: the wrapper calls through one pointer
  let m : Machine := ⟨⟨0, 0, false, false⟩, [], fun _ _ => ⟨0, 0, false, false⟩⟩
  exact (reaches_iff bits dbghelp ha w m ⟨0, 0, 0, 0⟩).mp (h w hw m _)

/-- **Which tables have their wrappers served**, in both configurations: those
without `lua_rawseti` that have `lua_tointegerx` if they have `lua_tointeger`. -/
theorem wrappers_served_iff (dbghelp : DbgFn → Bool) {T : Symbols}
    (h : (odbkLuaFinishLoad ((Process.fresh dbghelp).withSymbols T)).2 = true) :
    (∀ bits, WrappersServed bits T (freshLoad dbghelp T)) ↔
      getLuaFn T "lua_rawseti" = none ∧
        ((getLuaFn T "lua_tointeger").isSome = true →
          (getLuaFn T "lua_tointegerx").isSome = true) := by
  have ha : accepts T = true := by
    rw [odbkLuaFinishLoad_snd] at h
    exact h
  constructor
  · intro hall
    constructor
    · by_contra hseti
      have hs := Option.isSome_iff_ne_none.mpr hseti
      exact (offered_of_served (w := .luaRawseti) ha (hall .bits64)
        ⟨_, List.mem_singleton_self _, hs⟩).1 rfl
    · intro hs
      exact (offered_of_served (w := .luaTointeger) ha (hall .bits64)
        ⟨_, List.mem_cons_self, hs⟩).2
  · rintro ⟨hseti, hint⟩ bits w ⟨name, hname, hs⟩ m args
    apply (reaches_iff bits dbghelp ha w m args).mpr
    cases w with
    | luaRawseti =>
      rw [List.mem_singleton.mp hname, hseti] at hs
      cases hs
    | luaTointeger =>
      refine ⟨nofun, ?_⟩
      rcases List.mem_pair.mp hname with rfl | rfl
      · exact hint hs
      · exact hs
    | luaRawgeti =>
      rw [List.mem_singleton.mp hname] at hs
      exact ⟨nofun, hs⟩
    | luaPushinteger =>
      rw [List.mem_singleton.mp hname] at hs
      exact ⟨nofun, hs⟩
    | luaTointegerx =>
      rw [List.mem_singleton.mp hname] at hs
      exact ⟨nofun, hs⟩

theorem wrappers_served_iff_lua51 :
    (∀ bits, WrappersServed bits (stockSymbols 4096 lua51Fns)
        (freshLoad (fun _ => true) (stockSymbols 4096 lua51Fns))) ↔
      getLuaFn (stockSymbols 4096 lua51Fns) "lua_rawseti" = none ∧
        ((getLuaFn (stockSymbols 4096 lua51Fns) "lua_tointeger").isSome = true →
          (getLuaFn (stockSymbols 4096 lua51Fns) "lua_tointegerx").isSome = true) := by
  have ha := accepts_lua51 4096
  have hl : (odbkLuaFinishLoad
      ((Process.fresh fun _ => true).withSymbols (stockSymbols 4096 lua51Fns))).2 = true := by
    rw [odbkLuaFinishLoad_snd, symbols_withSymbols, ha]
  exact wrappers_served_iff (fun _ => true) hl

/-- Lua 5.1 is accepted and has `lua_rawseti`, whose wrapper goes through a null
pointer in both builds. -/
theorem lua51_wrappers_null :
    accepts (stockSymbols 4096 lua51Fns) = true ∧
      ∀ bits, ¬ WrappersServed bits (stockSymbols 4096 lua51Fns)
        (freshLoad (fun _ => true) (stockSymbols 4096 lua51Fns)) := by
  have ha := accepts_lua51 4096
  have hseti := getLuaFn_stockSymbols 4096 lua51Fns .luaRawseti
  rw [if_pos (by decide)] at hseti
  refine ⟨ha, fun bits h => ?_⟩
  have hs : (getLuaFn (stockSymbols 4096 lua51Fns) "lua_rawseti").isSome = true := by
    rw [show getLuaFn _ "lua_rawseti" = _ from hseti, Option.isSome_some]
  exact (offered_of_served (w := .luaRawseti) ha h ⟨_, List.mem_singleton_self _, hs⟩).1 rfl

end Odbk
