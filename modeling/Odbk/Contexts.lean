import Odbk.Install
import Odbk.Wrappers
import Odbk.Lib.ParamSlots

/-!
# Continuation contexts through `lua_callk_hook` and `lua_pcallk_hook`

Both detours take the context as an `int`; the pointer `__lua_callk` takes an
`int` as well, `__lua_pcallk` a `ptrdiff_t`. Lua 5.2 declares the context as
`int`, Lua 5.3 as `lua_KContext`, which has pointer size. Proved here:

* `callk_arrives`, `pcallk_arrives`: what the original functions receive;
* `contexts_survive_iff`: which contexts they receive unchanged;
* `callk_found`, `pcallk_found`: what they receive is what they find in the arguments that
  `Detour.body` passes them;
* `continuation_once`: after an install in a new process, a call of either function
  runs its detour and then the original.
-/

namespace Odbk

open ParamSlots

def Bits.width : Bits → Nat
  | .bits32 => 32
  | .bits64 => 64

/-! ## Prototypes -/

/-- The context type of the VM: `int`, from 5.3 on `lua_KContext`. -/
def contextType (version : Int) : CType := if 530 ≤ version then .word else .int

/-- `lua_callk` of the VM -/
def luaCallkPrototype (version : Int) : List CType :=
  [.word, .int, .int, contextType version, .word]

/-- `lua_pcallk` of the VM -/
def luaPcallkPrototype (version : Int) : List CType :=
  [.word, .int, .int, .int, contextType version, .word]

/-- `lua_callk_func_t` -/
def luaCallkFuncT : List CType := [.word, .int, .int, .int, .word]

/-- `lua_pcallk_func_t` -/
def luaPcallkFuncT : List CType := [.word, .int, .int, .int, .word, .word]

/-- The parameters of `lua_callk_hook`. -/
def luaCallkHookParams : List CType := [.word, .int, .int, .int, .word]

/-- The parameters of `lua_pcallk_hook`. -/
def luaPcallkHookParams : List CType := [.word, .int, .int, .int, .int, .word]

/-! ## Calls -/

variable {w : Nat}

/-- What the original `lua_callk` receives when its hooked code is called. -/
def callkReceives (abi : Abi w) (version : Int) (args : List (CVal w)) : List (CVal w) :=
  relayAll abi (luaCallkPrototype version) luaCallkHookParams luaCallkFuncT args

/-- What the original `lua_pcallk` receives when its hooked code is called. -/
def pcallkReceives (abi : Abi w) (version : Int) (args : List (CVal w)) : List (CVal w) :=
  relayAll abi (luaPcallkPrototype version) luaPcallkHookParams luaPcallkFuncT args

/-- Both originals receive the context, and all other arguments, as they were
passed. -/
def ContextSurvives (abi : Abi w) (version : Int) (ctx : CVal w) : Prop :=
  ∀ (L k : BitVec w) (nargs nresults errfunc : BitVec 32),
    callkReceives abi version [.word L, .int nargs, .int nresults, ctx, .word k] =
        [.word L, .int nargs, .int nresults, ctx, .word k] ∧
      pcallkReceives abi version
          [.word L, .int nargs, .int nresults, .int errfunc, ctx, .word k] =
        [.word L, .int nargs, .int nresults, .int errfunc, ctx, .word k]

/-- Everything but the context arrives as it was passed. -/
theorem callk_arrives (abi : Abi w) (version : Int) (L k : BitVec w)
    (nargs nresults : BitVec 32) (ctx : CVal w) :
    callkReceives abi version [.word L, .int nargs, .int nresults, ctx, .word k] =
      [.word L, .int nargs, .int nresults, relay abi (contextType version) .int .int ctx,
        .word k] := by
  have hint := relay_same abi (.int nargs)
  have hint' := relay_same abi (.int nresults)
  simp only [CVal.type] at hint hint'
  simp only [callkReceives, luaCallkPrototype, luaCallkHookParams, luaCallkFuncT, relayAll, hint,
    hint']
  rfl

theorem pcallk_arrives (abi : Abi w) (version : Int) (L k : BitVec w)
    (nargs nresults errfunc : BitVec 32) (ctx : CVal w) :
    pcallkReceives abi version [.word L, .int nargs, .int nresults, .int errfunc, ctx, .word k] =
      [.word L, .int nargs, .int nresults, .int errfunc,
        relay abi (contextType version) .int .word ctx, .word k] := by
  have hint := fun d => relay_same abi (.int d)
  simp only [CVal.type] at hint
  simp only [pcallkReceives, luaPcallkPrototype, luaPcallkHookParams, luaPcallkFuncT, relayAll,
    hint]
  rfl

/-- The context is the only argument that can change on the way. -/
theorem survives_iff_relay (abi : Abi w) (version : Int) (ctx : CVal w) :
    ContextSurvives abi version ctx ↔
      relay abi (contextType version) .int .int ctx = ctx ∧
        relay abi (contextType version) .int .word ctx = ctx := by
  constructor
  · intro h
    obtain ⟨hc, hp⟩ := h 0 0 0 0 0
    rw [callk_arrives] at hc
    rw [pcallk_arrives] at hp
    simp only [List.cons.injEq, true_and, and_true] at hc hp
    exact ⟨hc, hp⟩
  · rintro ⟨hc, hp⟩ L k nargs nresults errfunc
    rw [callk_arrives, pcallk_arrives, hc, hp]
    exact ⟨rfl, rfl⟩

theorem width_ge (bits : Bits) : 32 ≤ bits.width := by
  cases bits <;> decide

/-- **Which contexts survive the hooks**: all of them on 32-bit builds and with
Lua 5.2; with Lua 5.3 on 64-bit builds the numbers of 32 bits for which the
compiler of `lua_callk_hook` happens to leave the right upper half. -/
theorem contexts_survive_iff (bits : Bits) (abi : Abi bits.width) (version : Int)
    (ctx : CVal bits.width) (ht : ctx.type = contextType version) :
    ContextSurvives abi version ctx ↔
      bits = .bits32 ∨ version < 530 ∨
        ∃ x, ctx = .word x ∧ (-2 ^ 31 ≤ x.toInt ∧ x.toInt < 2 ^ 31) ∧
          abi.passInt x (x.setWidth 32) = x := by
  rw [survives_iff_relay]
  by_cases hver : 530 ≤ version
  · have hword : contextType version = .word := by
      rw [contextType, if_pos hver]
    rw [hword] at ht ⊢
    cases ctx with
    | int d => cases ht
    | word x =>
      rw [relay_narrowed, relay_extended, CVal.word.injEq, CVal.word.injEq,
        signExtend_low_iff (width_ge bits)]
      constructor
      · rintro ⟨hslot, hnum⟩
        exact Or.inr (Or.inr ⟨x, rfl, hnum, hslot⟩)
      · rintro (rfl | hlt | ⟨y, hy, hnum, hslot⟩)
        · have hle : -2 ^ 31 ≤ x.toInt := BitVec.le_toInt x
          have hlt : x.toInt < 2 ^ 31 := BitVec.toInt_lt
          exact ⟨passInt_of_width abi x, hle, hlt⟩
        · omega
        · cases hy
          exact ⟨hslot, hnum⟩
  · have hint : contextType version = .int := by
      rw [contextType, if_neg hver]
    rw [hint] at ht ⊢
    cases ctx with
    | int d =>
      have hsame := relay_same abi (.int d)
      have hwide := relay_int abi (width_ge bits) d
      constructor
      · intro _
        right
        left
        omega
      · intro _
        exact ⟨hsame, hwide⟩
    | word x => cases ht

theorem contexts_survive_iff_small :
    (CVal.word 7 : CVal Bits.bits64.width).type = contextType 530 ∧
      (ContextSurvives (w := Bits.bits64.width) Abi.zeroExtending 530 (.word 7) ↔
        Bits.bits64 = .bits32 ∨ (530 : Int) < 530 ∨
          ∃ x : BitVec Bits.bits64.width, CVal.word 7 = CVal.word x ∧
            (-2 ^ 31 ≤ x.toInt ∧ x.toInt < 2 ^ 31) ∧
            Abi.zeroExtending.passInt x (x.setWidth 32) = x) :=
  ⟨rfl, contexts_survive_iff .bits64 Abi.zeroExtending 530 (.word 7) rfl⟩

/-- A context of `2 ^ 32` arrives as another number. -/
theorem high_context_lost :
    ¬ ContextSurvives (w := Bits.bits64.width) Abi.zeroExtending 530 (.word 4294967296) := by
  intro h
  obtain ⟨_, hp⟩ := (survives_iff_relay _ _ _).mp h
  revert hp
  decide

/-! ## The arguments that the detours pass -/

/-- What the backend is built for: the size of words, the compiler of the detours, and what
is in a slot that nothing was passed in. -/
structure Target where
  bits : Bits
  abi : Abi bits.width
  stale : BitVec bits.width

/-- The slot in which an argument arrives. -/
def Target.slot (t : Target) : Val → BitVec t.bits.width
  | .word n => BitVec.ofNat _ n
  | .undefined => t.stale
  | .int v => t.abi.passInt (t.slot v) ((t.slot v).setWidth 32)
  | .ptrdiff v => ((t.slot v).setWidth 32).signExtend _

/-- What a function with parameters of these types finds in them. -/
def Target.found (t : Target) (types : List CType) (args : List Val) :
    List (CVal t.bits.width) :=
  List.zipWith (fun type v => type.read (t.slot v)) types (params types.length args)

/-- An argument, as the program passes it. -/
def Target.passed (t : Target) (v : CVal t.bits.width) : Val := .word (t.abi.pass 0 v).toNat

theorem Target.slot_passed (t : Target) (v : CVal t.bits.width) :
    t.slot (t.passed v) = t.abi.pass 0 v :=
  (BitVec.ofNat_toNat _ _).trans (BitVec.setWidth_eq _)

theorem Target.read_passed (t : Target) (v : CVal t.bits.width) :
    v.type.read (t.slot (t.passed v)) = v := by
  rw [t.slot_passed, read_pass]

theorem passInt_of_bits32 (t : Target) (h : t.bits = .bits32) (x : BitVec t.bits.width) :
    t.abi.passInt x (x.setWidth 32) = x := by
  obtain ⟨bits, abi, _⟩ := t
  obtain rfl : bits = .bits32 := h
  exact passInt_of_width abi x

theorem toInt_of_bits32 (t : Target) (h : t.bits = .bits32) (x : BitVec t.bits.width) :
    -2 ^ 31 ≤ x.toInt ∧ x.toInt < 2 ^ 31 := by
  obtain ⟨bits, _, _⟩ := t
  obtain rfl : bits = .bits32 := h
  exact ⟨BitVec.le_toInt x, BitVec.toInt_lt⟩

section Found

variable (t : Target) (version : Int) (p : Process) (L k : BitVec t.bits.width)
  (nargs nresults errfunc : BitVec 32) (ctx : CVal t.bits.width)

/-- **One detour, two models.** The original `lua_callk` receives what it finds in the
arguments that the detour passes. -/
theorem callk_found :
    ∃ args', Detour.luaCallkHook.body p
        ([.word L, .int nargs, .int nresults, ctx, .word k].map t.passed) =
          some (.luaCallk, args') ∧
      t.found (luaCallkPrototype version) args' =
        callkReceives t.abi version [.word L, .int nargs, .int nresults, ctx, .word k] := by
  refine ⟨_, rfl, ?_⟩
  have hword := fun x => t.read_passed (.word x)
  have hint := fun d => t.read_passed (.int d)
  have hctx : (contextType version).read (t.slot (.int (t.passed ctx))) =
      relay t.abi (contextType version) .int .int ctx := by
    rw [Target.slot, t.slot_passed]
    rfl
  simp only [CVal.type] at hword hint
  rw [callk_arrives, ← hctx]
  simp [Target.found, luaCallkPrototype, params, List.range_succ, List.modify, hword, hint]

theorem pcallk_found :
    ∃ args', Detour.luaPcallkHook.body p
        ([.word L, .int nargs, .int nresults, .int errfunc, ctx, .word k].map t.passed) =
          some (.luaPcallk, args') ∧
      t.found (luaPcallkPrototype version) args' =
        pcallkReceives t.abi version
          [.word L, .int nargs, .int nresults, .int errfunc, ctx, .word k] := by
  refine ⟨_, rfl, ?_⟩
  have hword := fun x => t.read_passed (.word x)
  have hint := fun d => t.read_passed (.int d)
  have hctx : (contextType version).read (t.slot (.ptrdiff (t.passed ctx))) =
      relay t.abi (contextType version) .int .word ctx := by
    rw [Target.slot, t.slot_passed]
    rfl
  simp only [CVal.type] at hword hint
  rw [pcallk_arrives, ← hctx]
  simp [Target.found, luaPcallkPrototype, params, List.range_succ, List.modify, hword, hint]

end Found

/-- Before 5.3 the VM reads the low half of the slot, and from then on all of it. -/
theorem read_context_iff {version : Int} {x y : BitVec w} (hlow : x.setWidth 32 = y.setWidth 32) :
    (contextType version).read x = (contextType version).read y ↔ version < 530 ∨ x = y := by
  by_cases hver : 530 ≤ version
  · rw [contextType, if_pos hver, CType.read, CType.read, CVal.word.injEq]
    exact ⟨Or.inr, fun h => h.resolve_left (by omega)⟩
  · rw [contextType, if_neg hver, CType.read, CType.read, hlow]
    exact ⟨fun _ => Or.inl (by omega), fun _ => rfl⟩

/-- When the original `lua_callk` finds the context that was passed to it. -/
theorem callk_context_iff (t : Target) (version : Int) (v : Val) :
    (contextType version).read (t.slot (.int v)) = (contextType version).read (t.slot v) ↔
      t.bits = .bits32 ∨ version < 530 ∨
        t.abi.passInt (t.slot v) ((t.slot v).setWidth 32) = t.slot v := by
  rw [Target.slot, read_context_iff (t.abi.low_passInt _ _)]
  refine ⟨Or.inr, ?_⟩
  rintro (hbits | h)
  · exact Or.inr (passInt_of_bits32 t hbits _)
  · exact h

/-- When the original `lua_pcallk` finds the context that was passed to it. -/
theorem pcallk_context_iff (t : Target) (version : Int) (v : Val) :
    (contextType version).read (t.slot (.ptrdiff v)) = (contextType version).read (t.slot v) ↔
      t.bits = .bits32 ∨ version < 530 ∨
        (-2 ^ 31 ≤ (t.slot v).toInt ∧ (t.slot v).toInt < 2 ^ 31) := by
  rw [Target.slot, read_context_iff (low_signExtend (width_ge t.bits) _),
    signExtend_low_iff (width_ge t.bits)]
  refine ⟨Or.inr, ?_⟩
  rintro (hbits | h)
  · exact Or.inr (toInt_of_bits32 t hbits _)
  · exact h

/-! ## The calls that run the detours -/

/-- The functions with a continuation. -/
def continuationSites : List (Fn × Detour) :=
  [(.luaCallk, .luaCallkHook), (.luaPcallk, .luaPcallkHook)]

theorem continuationSites_hooked (version : Int) :
    ∀ e ∈ continuationSites, e ∈ hookSites version := by
  have h : ∀ b c : Bool, ∀ e ∈ continuationSites, e ∈ hookSitesOf b c := by decide
  exact h _ _

/-- After an install in a new process, a call of a function with a continuation
runs its detour once and then the original. -/
theorem continuation_once {T : Symbols} {v : LuaVersion} {dbghelp : DbgFn → Bool} {p' : Process}
    (hi : Installed T v (Process.fresh dbghelp) p') (hd : DistinctAddresses T) {f : Fn}
    {d : Detour} (he : (f, d) ∈ continuationSites) {a : Addr}
    (ha : getLuaFn T f.name = some (.image a)) : RunsOnceThen p' (.image a) d a := by
  have hsite := continuationSites_hooked v.version (f, d) he
  have hcase : spared T f = false ∧ bindNames f = [f.name] ∧ d.callee p' = some f := by
    simp only [continuationSites, List.mem_cons, List.not_mem_nil, or_false,
      Prod.mk.injEq] at he
    rcases he with ⟨rfl, rfl⟩ | ⟨rfl, rfl⟩ <;> exact ⟨rfl, rfl, rfl⟩
  obtain ⟨hs, hb, hcallee⟩ := hcase
  have hp := rebound_fresh_of_offer dbghelp hs ((offer_of_bindNames hb T).trans ha)
  apply (once_iff hi.managed.enabled (hooked_fresh hi hd hsite hp) a).mpr
  exact ⟨f, hcallee, leadsTo_fresh hi hd hsite hp⟩

end Odbk
