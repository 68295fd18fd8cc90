import Odbk.Process

/-!
# The detours of `odbk_lhook.cpp` and the calls that reach them

A detour reads its parameters and calls on through the API pointers. `runCall`
follows a call from a code address to the machine code that ends up running.
A parameter that is passed on at the type of the function it goes to is handed on as it
came; the contexts of the two functions with a continuation are cut to an `int` (see
`Contexts`). Proved here:

* `callee_eq`: which pointer a detour calls does not depend on its arguments;
* `runCall_hooked`: entering hooked code runs its detour and then whatever the
  detour's pointer leads to;
* `callsOnce_iff`: when a call runs its detour once and then some code with some
  arguments, and returns its result;
* `once_iff`: entering hooked code runs its detour once and then that same code
  exactly when the pointer the detour calls leads there.
-/

namespace Odbk

open HookRegistry

/-- What a callee finds in a parameter: a word, nothing defined if the call site does not
pass one, or a parameter that its caller read as an `int` and passed on as one (`int`) or
as a `ptrdiff_t` (`ptrdiff`). -/
inductive Val where
  | word (n : Nat)
  | undefined
  | int (v : Val)
  | ptrdiff (v : Val)
  deriving DecidableEq, Repr

def Val.null : Val := .word 0

/-- The first `n` parameters of a callee. -/
def params (n : Nat) (args : List Val) : List Val :=
  (List.range n).map fun i => args.getD i .undefined

/-! ## The bodies -/

/-- `luaL_loadbufferx_hook` with its parameters read: the function called and the
arguments passed, `none` if neither pointer is set. -/
def luaLLoadbufferxBody (p : Process) (ps : List Val) : Option (Fn × List Val) :=
  if (p.ptr .luaLLoadbufferx).isSome then some (.luaLLoadbufferx, ps)
  else if (p.ptr .luaLLoadbuffer).isSome then some (.luaLLoadbuffer, ps.take 4)
  else none

/-- `luaL_loadfilex_hook` -/
def luaLLoadfilexBody (p : Process) (ps : List Val) : Option (Fn × List Val) :=
  if (p.ptr .luaLLoadfilex).isSome then some (.luaLLoadfilex, ps)
  else if (p.ptr .luaLLoadfile).isSome then some (.luaLLoadfile, ps.take 2)
  else none

/-- `lua_load_hook` -/
def luaLoadBody (p : Process) (ps : List Val) : Option (Fn × List Val) :=
  if p.ctx.version ≤ 510 then some (.luaLoad, ps.take 4) else some (.luaLoad, ps)

/-- What a detour does with a call: the API function it calls through its pointer
and the arguments it passes, or nothing. -/
def Detour.body (p : Process) (d : Detour) (args : List Val) : Option (Fn × List Val) :=
  match d with
  | .luaOpenHook => some (.luaOpen, params 0 args)
  | .luaNewstateHook => some (.luaNewstate, params 2 args)
  | .luaLNewstateHook => some (.luaLNewstate, params 0 args)
  | .luaopenBaseHook => some (.luaopenBase, params 1 args)
  | .luaCloseHook => some (.luaClose, params 1 args)
  | .luaNewthreadHook => some (.luaNewthread, params 1 args)
  | .luaPcallHook => some (.luaPcall, params 4 args)
  | .luaPcallkHook => some (.luaPcallk, (params 6 args).modify 4 .ptrdiff)
  | .luaCallHook => some (.luaCall, params 3 args)
  | .luaCallkHook => some (.luaCallk, (params 5 args).modify 3 .int)
  | .luaLNewmetatableHook => some (.luaLNewmetatable, params 2 args)
  | .luaSethookHook => some (.luaSethook, params 4 args)
  | .luaLLoadbufferxHook => luaLLoadbufferxBody p (params 5 args)
  | .luaLLoadbufferHook => luaLLoadbufferxBody p (params 4 args ++ [.null])
  | .luaLLoadfilexHook => luaLLoadfilexBody p (params 3 args)
  | .luaLLoadfileHook => luaLLoadfilexBody p (params 2 args ++ [.null])
  | .luaLoadHook => luaLoadBody p (params 5 args)
  | .luaLoad510Hook => luaLoadBody p (params 4 args ++ [.null])
  | .luaLOpenlibsHook => some (.luaLOpenlibs, params 1 args)
  | .luaIOpenlibHook => some (.luaIOpenlib, params 4 args)

/-- The first of two functions whose pointer is set. -/
def firstBound (p : Process) (f g : Fn) : Option Fn :=
  if (p.ptr f).isSome then some f else if (p.ptr g).isSome then some g else none

/-- The API function whose pointer a detour calls. -/
def Detour.callee (p : Process) : Detour → Option Fn
  | .luaLLoadbufferxHook => firstBound p .luaLLoadbufferx .luaLLoadbuffer
  | .luaLLoadbufferHook => firstBound p .luaLLoadbufferx .luaLLoadbuffer
  | .luaLLoadfilexHook => firstBound p .luaLLoadfilex .luaLLoadfile
  | .luaLLoadfileHook => firstBound p .luaLLoadfilex .luaLLoadfile
  | d => some d.fn

theorem callee_eq (p : Process) (d : Detour) (args : List Val) :
    (d.body p args).map Prod.fst = d.callee p := by
  have hb : ∀ ps, (luaLLoadbufferxBody p ps).map Prod.fst =
      firstBound p .luaLLoadbufferx .luaLLoadbuffer := by
    intro ps
    unfold luaLLoadbufferxBody firstBound
    split
    · rfl
    · split <;> rfl
  have hf : ∀ ps, (luaLLoadfilexBody p ps).map Prod.fst =
      firstBound p .luaLLoadfilex .luaLLoadfile := by
    intro ps
    unfold luaLLoadfilexBody firstBound
    split
    · rfl
    · split <;> rfl
  have hl : ∀ ps, (luaLoadBody p ps).map Prod.fst = some .luaLoad := by
    intro ps
    unfold luaLoadBody
    split <;> rfl
  cases d with
  | luaLLoadbufferxHook => exact hb _
  | luaLLoadbufferHook => exact hb _
  | luaLLoadfilexHook => exact hf _
  | luaLLoadfileHook => exact hf _
  | luaLoadHook => exact hl _
  | luaLoad510Hook => exact hl _
  | _ => rfl

theorem firstBound_isSome {p : Process} {f g x : Fn} (h : firstBound p f g = some x) :
    (p.ptr x).isSome = true ∧ (x = f ∨ x = g) := by
  unfold firstBound at h
  split at h
  case isTrue hf =>
    cases h
    exact ⟨hf, Or.inl rfl⟩
  case isFalse =>
    split at h
    case isTrue hg =>
      cases h
      exact ⟨hg, Or.inr rfl⟩
    case isFalse => cases h

/-! ## Calls -/

/-- What happens during a call, in order. -/
inductive Event where
  | detour (d : Detour)
  | original (a : Addr) (args : List Val)
  | nullCall (f : Fn)
  deriving DecidableEq, Repr

/-- Follow a call of the code at an address, at most `fuel` calls deep. -/
def runCall (p : Process) : Nat → Code Addr → List Val → List Event
  | 0, _, _ => []
  | fuel + 1, c, args =>
    match p.registry.enter c with
    | none =>
      match p.registry.origin c with
      | some a => [.original a args]
      | none => []
    | some d =>
      .detour d ::
        match d.body p args with
        | none => []
        | some (f, args') =>
          match p.ptr f with
          | none => [.nullCall f]
          | some c' => runCall p fuel c' args'

/-- The result of a call, where `vm` tells what the code of the VM returns. A detour
returns the result of the function it calls, or `-1` where it calls none. -/
def callResult (p : Process) (vm : Addr → List Val → Int) :
    Nat → Code Addr → List Val → Option Int
  | 0, _, _ => none
  | fuel + 1, c, args =>
    match p.registry.enter c with
    | none => (p.registry.origin c).map fun a => vm a args
    | some d =>
      match d.body p args with
      | none => some (-1)
      | some (f, args') =>
        match p.ptr f with
        | none => none
        | some c' => callResult p vm fuel c' args'

/-- Every hook is enabled. -/
def AllEnabled (p : Process) : Prop := ∀ c, p.registry.enter c = p.registry.detourOf c

/-- Entering hooked code runs its detour and then whatever its pointer leads to. -/
theorem runCall_hooked {p : Process} {c : Code Addr} {d : Detour}
    (he : p.registry.enter c = some d) {args args' : List Val} {f : Fn}
    (hb : d.body p args = some (f, args')) {c' : Code Addr} (hc : p.ptr f = some c')
    (fuel : Nat) : runCall p (fuel + 1) c args = .detour d :: runCall p fuel c' args' := by
  simp only [runCall, he, hb, hc]

theorem runCall_original {p : Process} {c : Code Addr} (he : p.registry.enter c = none) {a : Addr}
    (ho : p.registry.origin c = some a) (args : List Val) (fuel : Nat) :
    runCall p (fuel + 1) c args = [.original a args] := by
  simp only [runCall, he, ho]

theorem leads_eq_some {r : HookRegistry Addr Detour} {c : Code Addr} {a : Addr} :
    r.leads c = some a ↔ r.detourOf c = none ∧ r.origin c = some a := by
  have h := detourOf_isSome_iff r c
  unfold leads
  by_cases hc : c ∈ r.targets
  · have hs := h.mpr hc
    rw [if_pos hc]
    cases hd : r.detourOf c with
    | none =>
      rw [hd] at hs
      cases hs
    | some d => simp
  · rw [if_neg hc]
    cases hd : r.detourOf c with
    | none => simp
    | some d =>
      rw [hd] at h
      exact absurd (h.mp rfl) hc

/-- A detour whose pointer leads to the code `a` hands its arguments to that code. -/
theorem runCall_once {p : Process} (hall : AllEnabled p) {c : Code Addr} {d : Detour}
    (hd : p.registry.detourOf c = some d) {args args' : List Val} {f : Fn}
    (hb : d.body p args = some (f, args')) {a : Addr} (hl : p.leadsTo f = some a) (fuel : Nat) :
    runCall p (fuel + 2) c args = [.detour d, .original a args'] := by
  rw [Patched.leadsTo, Option.bind_eq_some_iff] at hl
  obtain ⟨c', hc, hlead⟩ := hl
  obtain ⟨hd', ho⟩ := leads_eq_some.mp hlead
  rw [runCall_hooked ((hall c).trans hd) hb hc, runCall_original ((hall c').trans hd') ho]

/-- A call runs the detour once and then the code `a`, whose result it returns. -/
def CallsOnce (p : Process) (c : Code Addr) (args : List Val) (d : Detour) (a : Addr)
    (args' : List Val) : Prop :=
  ∀ fuel, runCall p (fuel + 2) c args = [.detour d, .original a args'] ∧
    ∀ vm, callResult p vm (fuel + 2) c args = some (vm a args')

/-- A call that runs code of an image at once went through no detour. -/
theorem origin_of_runCall {p : Process} {fuel : Nat} {c : Code Addr} {args args' : List Val}
    {a : Addr} (h : runCall p (fuel + 1) c args = [.original a args']) :
    p.registry.enter c = none ∧ p.registry.origin c = some a := by
  cases he : p.registry.enter c with
  | some d =>
    simp only [runCall, he] at h
    cases h
  | none =>
    cases ho : p.registry.origin c with
    | none =>
      simp only [runCall, he, ho] at h
      cases h
    | some b =>
      rw [runCall_original he ho] at h
      cases h
      exact ⟨rfl, rfl⟩

/-- One call deep: the detour's pointer leads to the code, which gets what the detour
passes. -/
theorem runCall_once_iff {p : Process} (hall : AllEnabled p) {c : Code Addr} {d : Detour}
    (hd : p.registry.detourOf c = some d) {args args' : List Val} {a : Addr} :
    runCall p 2 c args = [.detour d, .original a args'] ↔
      ∃ f, d.body p args = some (f, args') ∧ p.leadsTo f = some a := by
  have he : p.registry.enter c = some d := (hall c).trans hd
  constructor
  · intro hrun
    cases hb : d.body p args with
    | none =>
      simp only [runCall, he, hb] at hrun
      cases hrun
    | some r =>
      obtain ⟨f, args₁⟩ := r
      cases hc : p.ptr f with
      | none =>
        simp only [runCall, he, hb, hc] at hrun
        cases hrun
      | some c' =>
        rw [runCall_hooked he hb hc] at hrun
        have hrun : runCall p 1 c' args₁ = [.original a args'] := by simpa using hrun
        obtain ⟨he', ho⟩ := origin_of_runCall hrun
        rw [runCall_original he' ho] at hrun
        cases hrun
        refine ⟨f, rfl, ?_⟩
        rw [Patched.leadsTo, hc, Option.bind_some, leads_eq_some, ← hall c']
        exact ⟨he', ho⟩
  · rintro ⟨f, hb, hl⟩
    exact runCall_once hall hd hb hl 0

theorem callsOnce {p : Process} (hall : AllEnabled p) {c : Code Addr} {d : Detour}
    (hd : p.registry.detourOf c = some d) {args args' : List Val} {f : Fn}
    (hb : d.body p args = some (f, args')) {a : Addr} (hl : p.leadsTo f = some a) :
    CallsOnce p c args d a args' := by
  intro fuel
  refine ⟨runCall_once hall hd hb hl fuel, fun vm => ?_⟩
  rw [Patched.leadsTo, Option.bind_eq_some_iff] at hl
  obtain ⟨c', hc, hlead⟩ := hl
  obtain ⟨hd', ho⟩ := leads_eq_some.mp hlead
  have he : p.registry.enter c = some d := (hall c).trans hd
  have he' : p.registry.enter c' = none := (hall c').trans hd'
  simp only [callResult, he, hb, hc, he', ho, Option.map_some]

/-- **Once.** A call runs the detour once and then the code `a` with arguments `args'`, and
returns its result, exactly when the detour passes these to a function whose pointer leads
to `a`. -/
theorem callsOnce_iff {p : Process} (hall : AllEnabled p) {c : Code Addr} {d : Detour}
    (hd : p.registry.detourOf c = some d) {args args' : List Val} {a : Addr} :
    CallsOnce p c args d a args' ↔
      ∃ f, d.body p args = some (f, args') ∧ p.leadsTo f = some a := by
  constructor
  · exact fun h => (runCall_once_iff hall hd).mp (h 0).1
  · rintro ⟨f, hb, hl⟩
    exact callsOnce hall hd hb hl

/-- The detour runs once and then the code `a`, with some arguments. -/
def RunsOnceThen (p : Process) (c : Code Addr) (d : Detour) (a : Addr) : Prop :=
  ∀ args, ∃ args', ∀ fuel, runCall p (fuel + 2) c args = [.detour d, .original a args']

/-- **One detour, then the code**: exactly when the pointer called leads there. -/
theorem once_iff {p : Process} (hall : AllEnabled p) {c : Code Addr} {d : Detour}
    (hd : p.registry.detourOf c = some d) (a : Addr) :
    RunsOnceThen p c d a ↔ ∃ f, d.callee p = some f ∧ p.leadsTo f = some a := by
  constructor
  · intro h
    obtain ⟨args', hrun⟩ := h []
    obtain ⟨f, hb, hl⟩ := (runCall_once_iff hall hd).mp (hrun 0)
    have hcallee := callee_eq p d []
    rw [hb] at hcallee
    exact ⟨f, hcallee.symm, hl⟩
  · rintro ⟨f, hf, hl⟩ args
    have hcallee := callee_eq p d args
    rw [hf, Option.map_eq_some_iff] at hcallee
    obtain ⟨⟨f', args'⟩, hb, rfl⟩ := hcallee
    exact ⟨args', runCall_once hall hd hb hl⟩

end Odbk
