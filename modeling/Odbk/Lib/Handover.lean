import Mathlib.Data.Fintype.EquivFin
import Mathlib.Data.List.Nodup
import Mathlib.Logic.Relation

/-!
# Handing over

Each point hands over to at most one other. Proved here:

* `Ends.nodup`: a chain that ends passes no point twice;
* `ends_iff`: of finitely many points, a chain ends exactly when it comes to no point that
  leads back to itself;
* `next_of_not_ends`: a chain that does not end has a next point from which it does not;
* `exists_ends_of_rank`: where the points handed to rank lower, every chain ends.
-/

namespace Handover

open Relation

variable {α : Type} {next : α → Option α}

abbrev Step (next : α → Option α) (a b : α) : Prop := next a = some b

/-- The chain from a point ends; the list holds its points in order. -/
inductive Ends (next : α → Option α) : α → List α → Prop
  | last {a : α} : next a = none → Ends next a [a]
  | step {a b : α} {l : List α} : next a = some b → Ends next b l → Ends next a (a :: l)

/-- The chain from a point comes to one that leads back to itself. -/
def Circular (next : α → Option α) (a : α) : Prop :=
  ∃ b, ReflTransGen (Step next) a b ∧ TransGen (Step next) b b

/-- The chain from `a` comes to `y`, and from there to `x`. -/
def After (next : α → Option α) (a x y : α) : Prop :=
  ReflTransGen (Step next) a y ∧ TransGen (Step next) y x

/-! ## Chains that end -/

theorem Ends.unique {a : α} {l l' : List α} (h : Ends next a l) (h' : Ends next a l') :
    l = l' := by
  induction h generalizing l' with
  | last hn =>
    cases h' with
    | last _ => rfl
    | step hs _ =>
      rw [hn] at hs
      cases hs
  | step hs _ ih =>
    cases h' with
    | last hn =>
      rw [hn] at hs
      cases hs
    | step hs' h' =>
      rw [hs, Option.some.injEq] at hs'
      subst hs'
      rw [ih h']

/-- From a point of the chain on, the chain is the rest of it. -/
theorem Ends.of_mem {a b : α} {l : List α} (h : Ends next a l) (hb : b ∈ l) :
    ∃ l', Ends next b l' ∧ l'.length ≤ l.length := by
  induction h with
  | @last a hn =>
    rw [List.mem_singleton.mp hb]
    exact ⟨[a], .last hn, Nat.le_refl _⟩
  | @step a c l hs h ih =>
    rcases List.mem_cons.mp hb with rfl | hb
    · exact ⟨b :: l, .step hs h, Nat.le_refl _⟩
    · obtain ⟨l', hl', hle⟩ := ih hb
      exact ⟨l', hl', Nat.le_succ_of_le hle⟩

/-- **No point twice.** What follows a point does not depend on how it was come to. -/
theorem Ends.nodup {a : α} {l : List α} (h : Ends next a l) : l.Nodup := by
  induction h with
  | last _ => exact List.nodup_singleton _
  | @step a b l hs h ih =>
    have hback : a ∉ l := by
      intro ha
      obtain ⟨rest, hrest, hle⟩ := h.of_mem ha
      rw [hrest.unique (.step hs h)] at hle
      exact absurd hle (Nat.not_succ_le_self l.length)
    exact List.nodup_cons.mpr ⟨hback, ih⟩

/-- All points that the chain comes to are in the list. -/
theorem Ends.mem_of_reaches {a b : α} {l : List α} (h : Ends next a l)
    (hr : ReflTransGen (Step next) a b) : b ∈ l := by
  induction h with
  | @last a hn =>
    rcases hr.cases_head with rfl | ⟨c, hs, _⟩
    · exact List.mem_singleton_self _
    · rw [Step, hn] at hs
      cases hs
  | @step a c l hs _ ih =>
    rcases hr.cases_head with rfl | ⟨c', hs', hr⟩
    · exact List.mem_cons_self
    · rw [Step, hs, Option.some.injEq] at hs'
      subst hs'
      exact List.mem_cons_of_mem _ (ih hr)

theorem exists_ends_of_rank (rank : α → Nat) (h : ∀ a b, next a = some b → rank b < rank a)
    (a : α) : ∃ l, Ends next a l := by
  induction hr : rank a using Nat.strongRecOn generalizing a with
  | ind r ih =>
    cases hn : next a with
    | none => exact ⟨[a], .last hn⟩
    | some b =>
      obtain ⟨l, hl⟩ := ih (rank b) (hr ▸ h a b hn) b rfl
      exact ⟨a :: l, .step hn hl⟩

/-! ## Chains that do not -/

theorem next_of_not_ends {a : α} (h : ¬∃ l, Ends next a l) :
    ∃ b, next a = some b ∧ ¬∃ l, Ends next b l := by
  cases hn : next a with
  | none => exact absurd ⟨[a], .last hn⟩ h
  | some b =>
    refine ⟨b, rfl, ?_⟩
    rintro ⟨l, hl⟩
    exact h ⟨a :: l, .step hn hl⟩

theorem Ends.not_circular {a : α} {l : List α} (h : Ends next a l) : ¬Circular next a := by
  rintro ⟨b, hab, hbb⟩
  obtain ⟨l', hl', _⟩ := h.of_mem (h.mem_of_reaches hab)
  obtain ⟨c, hs, hcb⟩ := TransGen.head'_iff.mp hbb
  cases hl' with
  | last hn =>
    rw [Step, hn] at hs
    cases hs
  | step hs' hc =>
    rw [Step, hs', Option.some.injEq] at hs
    subst hs
    exact (List.nodup_cons.mp (Ends.step hs' hc).nodup).1 (hc.mem_of_reaches hcb)

theorem wellFounded_after [Finite α] {a : α} (h : ¬Circular next a) :
    WellFounded (After next a) := by
  have : IsTrans α (After next a) := ⟨fun _ _ _ hxy hyz => ⟨hyz.1, hyz.2.trans hxy.2⟩⟩
  have : Std.Irrefl (After next a) := ⟨fun b hb => h ⟨b, hb⟩⟩
  exact Finite.wellFounded_of_trans_of_irrefl (After next a)

/-- **Finitely many points.** A chain ends exactly if it comes to no circle. -/
theorem ends_iff [Finite α] (a : α) : (∃ l, Ends next a l) ↔ ¬Circular next a := by
  refine ⟨fun ⟨l, h⟩ => h.not_circular, fun hno => ?_⟩
  have key : ∀ b, ReflTransGen (Step next) a b → ∃ l, Ends next b l := by
    intro b
    induction b using (wellFounded_after hno).induction with
    | _ b ih =>
      intro hb
      cases hn : next b with
      | none => exact ⟨[b], .last hn⟩
      | some c =>
        obtain ⟨l, hl⟩ := ih c ⟨hb, .single hn⟩ (hb.tail hn)
        exact ⟨b :: l, .step hn hl⟩
  exact key a .refl

end Handover
