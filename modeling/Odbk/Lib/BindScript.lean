import Mathlib.Data.List.Induction
import Mathlib.Logic.Function.Basic

/-!
# Binding scripts

A binding script fills the slots of a store from a table of names, one
assignment after the other. A step assigns to its slot the first of its names
that the table has (null if it has none); a `required` step that finds nothing
clears its slot and ends the script; a step with a `guard` runs only while that
other slot is null. Proved here:

* `run_eq`: when every guard reads a slot that the script itself has bound
  before (`GuardsSettled`), which steps run and where the script ends depends on
  the table alone, not on the store it starts from;
* `foldl_assign`: a slot holds what the last step run for it found, and its old
  value if there is none;
* `reached_of_find?`: a script that ends early has run exactly the steps up to
  its first missing one;
* `find?_missing_mono`: a larger table ends no script that the smaller one does not.
-/

/-- One assignment of a binding script. -/
structure BindStep (ι ν : Type) where
  slot : ι
  names : List ν
  required : Bool
  guard : Option ι
  deriving DecidableEq, Repr

namespace BindScript

variable {ι ν α : Type}

/-- What the table gives for a list of names: the first entry found. -/
def firstOf (T : ν → Option α) (names : List ν) : Option α := names.findSome? T

def missing (T : ν → Option α) (s : BindStep ι ν) : Bool :=
  s.required && (firstOf T s.names).isNone

def guardHolds (p : ι → Option α) (s : BindStep ι ν) : Bool :=
  s.guard.all fun g => (p g).isNone

variable [DecidableEq ι]

def assign (T : ν → Option α) (p : ι → Option α) (s : BindStep ι ν) : ι → Option α :=
  Function.update p s.slot (firstOf T s.names)

/-- Run a script. Returns the store and the step that ended it early, if any. -/
def run (T : ν → Option α) :
    List (BindStep ι ν) → (ι → Option α) → (ι → Option α) × Option (BindStep ι ν)
  | [], p => (p, none)
  | s :: l, p =>
    if guardHolds p s then
      if missing T s then (assign T p s, some s) else run T l (assign T p s)
    else run T l p

/-! ## The steps a table selects -/

/-- The steps whose guard is open when guard slot `g` holds what the table has
for the names `src g`. -/
def active (T : ν → Option α) (src : ι → List ν) (l : List (BindStep ι ν)) :
    List (BindStep ι ν) :=
  l.filter fun s => s.guard.all fun g => (firstOf T (src g)).isNone

/-- The steps run of a script without guards: up to its first missing one. -/
def reached (T : ν → Option α) : List (BindStep ι ν) → List (BindStep ι ν)
  | [] => []
  | s :: l => if missing T s then [s] else s :: reached T l

/-- The slots known to hold their `src` entry after one more step. -/
def settle [DecidableEq ν] (src : ι → List ν) (known : List ι) (s : BindStep ι ν) : List ι :=
  if s.guard = none ∧ s.names = src s.slot then s.slot :: known
  else known.filter fun g => decide (g ≠ s.slot)

/-- Every guard reads a slot that an earlier step of the script has settled. -/
def GuardsSettled [DecidableEq ν] (src : ι → List ν) :
    List ι → List (BindStep ι ν) → Prop
  | _, [] => True
  | known, s :: l =>
    (∀ g ∈ s.guard, g ∈ known) ∧ GuardsSettled src (settle src known s) l

instance [DecidableEq ν] (src : ι → List ν) :
    (known : List ι) → (l : List (BindStep ι ν)) → Decidable (GuardsSettled src known l)
  | _, [] => isTrue trivial
  | known, s :: l =>
    have := instDecidableGuardsSettled src (settle src known s) l
    inferInstanceAs (Decidable (_ ∧ _))

theorem settle_sound [DecidableEq ν] {src : ι → List ν} {T : ν → Option α} {known : List ι}
    {p : ι → Option α} (hk : ∀ g ∈ known, p g = firstOf T (src g)) (s : BindStep ι ν) :
    ∀ g ∈ settle src known s, assign T p s g = firstOf T (src g) := by
  intro g hg
  unfold settle at hg
  split at hg
  case isTrue hs =>
    by_cases h : g = s.slot
    · subst h
      simp [assign, hs.2]
    · rcases List.mem_cons.mp hg with hg | hg
      · exact absurd hg h
      · simp [assign, h, hk g hg]
  case isFalse =>
    obtain ⟨hg, hne⟩ := List.mem_filter.mp hg
    have h : g ≠ s.slot := by simpa using hne
    simp [assign, h, hk g hg]

/-- A skipped step changes nothing, so what was known stays known. -/
theorem settle_skipped [DecidableEq ν] {src : ι → List ν} {T : ν → Option α} {known : List ι}
    {p : ι → Option α} (hk : ∀ g ∈ known, p g = firstOf T (src g)) {s : BindStep ι ν}
    (hs : s.guard ≠ none) :
    ∀ g ∈ settle src known s, p g = firstOf T (src g) := by
  intro g hg
  have hf : settle src known s = known.filter fun g => decide (g ≠ s.slot) := by
    simp [settle, hs]
  rw [hf] at hg
  exact hk g (List.mem_filter.mp hg).1

omit [DecidableEq ι] in
theorem guardHolds_eq {src : ι → List ν} {T : ν → Option α} {known : List ι}
    {p : ι → Option α} (hk : ∀ g ∈ known, p g = firstOf T (src g)) {s : BindStep ι ν}
    (hs : ∀ g ∈ s.guard, g ∈ known) :
    guardHolds p s = s.guard.all fun g => (firstOf T (src g)).isNone := by
  unfold guardHolds
  cases h : s.guard with
  | none => rfl
  | some g => simp [hk g (hs g (by simp [h]))]

/-- **The table decides.** The steps run, the step that ends the script and the
values assigned are those of the active steps for the table. -/
theorem run_eq [DecidableEq ν] {src : ι → List ν} (T : ν → Option α) (l : List (BindStep ι ν))
    {known : List ι} (p : ι → Option α) (hl : GuardsSettled src known l)
    (hk : ∀ g ∈ known, p g = firstOf T (src g)) :
    run T l p =
      ((reached T (active T src l)).foldl (assign T) p, (active T src l).find? (missing T)) := by
  induction l generalizing known p with
  | nil => rfl
  | cons s l ih =>
    obtain ⟨hs, hl⟩ := hl
    have hg := guardHolds_eq hk hs
    cases ho : s.guard.all fun g => (firstOf T (src g)).isNone with
    | false =>
      have hn : s.guard ≠ none := by
        intro h
        rw [h] at ho
        cases ho
      have ha : active T src (s :: l) = active T src l := by
        simp [active, ho]
      rw [run, hg, ho, ha, ih p hl (settle_skipped hk hn)]
      rfl
    | true =>
      have ha : active T src (s :: l) = s :: active T src l := by
        simp [active, ho]
      rw [run, hg, ho, ha]
      cases hm : missing T s with
      | true => simp [reached, hm]
      | false => simp [reached, hm, ih _ hl (settle_sound hk s)]

/-! ## Values and frame -/

theorem foldl_assign (T : ν → Option α) (l : List (BindStep ι ν)) (p : ι → Option α) (f : ι) :
    l.foldl (assign T) p f =
      (l.filter fun s => s.slot = f).getLast?.elim (p f) fun s => firstOf T s.names := by
  induction l using List.reverseRecOn with
  | nil => rfl
  | append_singleton l s ih =>
    rw [List.foldl_append, List.filter_append]
    by_cases h : s.slot = f
    · simp [h, assign]
    · have hf : f ≠ s.slot := fun e => h e.symm
      simp [h, hf, assign, ih]

omit [DecidableEq ι] in
theorem reached_cons_of_present {T : ν → Option α} {s : BindStep ι ν} (h : missing T s = false)
    (l : List (BindStep ι ν)) : reached T (s :: l) = s :: reached T l := by
  simp [reached, h]

omit [DecidableEq ι] in
theorem reached_cons_of_missing {T : ν → Option α} {s : BindStep ι ν} (h : missing T s = true)
    (l : List (BindStep ι ν)) : reached T (s :: l) = [s] := by
  simp [reached, h]

omit [DecidableEq ι] in
/-- The first step always runs. -/
theorem head_mem_reached (T : ν → Option α) (s : BindStep ι ν) (l : List (BindStep ι ν)) :
    s ∈ reached T (s :: l) := by
  cases hm : missing T s with
  | true =>
    rw [reached_cons_of_missing hm]
    exact List.mem_singleton_self s
  | false =>
    rw [reached_cons_of_present hm]
    exact List.mem_cons_self

omit [DecidableEq ι] in
theorem mem_of_mem_reached {T : ν → Option α} {l : List (BindStep ι ν)} {s : BindStep ι ν}
    (h : s ∈ reached T l) : s ∈ l := by
  induction l with
  | nil => exact h
  | cons t l ih =>
    unfold reached at h
    split at h
    · exact List.mem_cons.mpr (Or.inl (List.mem_singleton.mp h))
    · rcases List.mem_cons.mp h with rfl | h
      · exact List.mem_cons_self
      · exact List.mem_cons_of_mem _ (ih h)

omit [DecidableEq ι] in
/-- A step that is run comes after all steps before it have been. -/
theorem mem_reached_before {T : ν → Option α} {pre l : List (BindStep ι ν)} {s t : BindStep ι ν}
    (hs : s ∈ reached T (pre ++ l)) (hn : s ∉ pre) (ht : t ∈ pre) : t ∈ reached T (pre ++ l) := by
  induction pre with
  | nil => cases ht
  | cons u pre ih =>
    rw [List.mem_cons, not_or] at hn
    obtain ⟨hne, hn⟩ := hn
    rw [List.cons_append] at hs ⊢
    cases hm : missing T u with
    | true =>
      rw [reached_cons_of_missing hm] at hs
      exact absurd (List.mem_singleton.mp hs) hne
    | false =>
      rw [reached_cons_of_present hm] at hs ⊢
      have hs := (List.mem_cons.mp hs).resolve_left hne
      rcases List.mem_cons.mp ht with rfl | ht
      · exact List.mem_cons_self
      · exact List.mem_cons_of_mem _ (ih hs hn ht)

omit [DecidableEq ι] in
theorem reached_of_find?_none (T : ν → Option α) (l : List (BindStep ι ν))
    (h : l.find? (missing T) = none) : reached T l = l := by
  induction l with
  | nil => rfl
  | cons s l ih =>
    cases hm : missing T s with
    | true => simp [hm] at h
    | false => simp [reached, hm, ih (by simpa [hm] using h)]

omit [DecidableEq ι] in
theorem reached_append {T : ν → Option α} {pre : List (BindStep ι ν)} {s : BindStep ι ν}
    (hpre : ∀ t ∈ pre, missing T t = false) (hs : missing T s = true)
    (post : List (BindStep ι ν)) : reached T (pre ++ s :: post) = pre ++ [s] := by
  induction pre with
  | nil => exact reached_cons_of_missing hs post
  | cons t pre ih =>
    rw [List.cons_append, reached_cons_of_present (hpre t List.mem_cons_self),
      ih fun u hu => hpre u (List.mem_cons_of_mem _ hu), List.cons_append]

omit [DecidableEq ι] in
/-- **Early end.** The steps run are those before the first missing one, and it. -/
theorem reached_of_find? (T : ν → Option α) (l : List (BindStep ι ν)) {s : BindStep ι ν}
    (h : l.find? (missing T) = some s) :
    ∃ pre post, l = pre ++ s :: post ∧ reached T l = pre ++ [s] ∧
      ∀ t ∈ pre, missing T t = false := by
  obtain ⟨hs, pre, post, rfl, hpre⟩ := List.find?_eq_some_iff_append.mp h
  have hpresent : ∀ t ∈ pre, missing T t = false := fun t ht => by simpa using hpre t ht
  exact ⟨pre, post, rfl, reached_append hpresent hs post, hpresent⟩

/-! ## Larger tables -/

section Larger

variable {T T' : ν → Option α}

omit [DecidableEq ι] in
/-- What a larger table lacks, the smaller one lacks. -/
theorem firstOf_none_mono (hT : ∀ n, T' n = none → T n = none) {names : List ν}
    (h : (firstOf T' names).isNone = true) : (firstOf T names).isNone = true := by
  rw [Option.isNone_iff_eq_none, firstOf, List.findSome?_eq_none_iff] at h ⊢
  exact fun n hn => hT n (h n hn)

omit [DecidableEq ι] in
/-- **Larger tables.** If no required step ends a script for a table, none ends it for a
larger one, nor a script that requires no more. -/
theorem find?_missing_mono (hT : ∀ n, T' n = none → T n = none) {src : ι → List ν}
    {l l' : List (BindStep ι ν)} (hl : ∀ s ∈ l', s.required = true → s ∈ l)
    (h : (active T src l).find? (missing T) = none) :
    (active T' src l').find? (missing T') = none := by
  rw [List.find?_eq_none] at h ⊢
  intro s hs hm
  obtain ⟨hmem, hopen⟩ := List.mem_filter.mp hs
  rw [missing, Bool.and_eq_true] at hm
  -- a guard that is open for the larger table is open for the smaller one
  have hactive : s ∈ active T src l := by
    refine List.mem_filter.mpr ⟨hl s hmem hm.1, ?_⟩
    rw [Option.all_eq_true] at hopen ⊢
    exact fun g hg => firstOf_none_mono hT (hopen g hg)
  refine h s hactive ?_
  rw [missing, Bool.and_eq_true]
  exact ⟨hm.1, firstOf_none_mono hT hm.2⟩

end Larger

end BindScript
