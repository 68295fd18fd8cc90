import Mathlib.Logic.Function.Iterate

/-!
# `do … while` loops

A body that runs until its guard fails. `run` gives `none` when its fuel does not suffice.
Proved here:

* `endsAt_succ_iff`: the first pass of a loop, and the loop from there;
* `run_eq_some_iff`: a loop returns with the first pass after which its guard fails.
-/

namespace DoWhile

variable {σ : Type} (body : σ → σ) (again : σ → Bool)

/-- `do s := body s while (again s)` -/
def run : Nat → σ → Option σ
  | 0, _ => none
  | fuel + 1, s => if again (body s) then run fuel (body s) else some (body s)

/-- The loop ends with pass `k`, the first one being pass `0`. -/
structure EndsAt (s : σ) (k : Nat) : Prop where
  stops : again (body^[k + 1] s) = false
  runs : ∀ j < k, again (body^[j + 1] s) = true

variable {body again}

theorem endsAt_zero {s : σ} (h : again (body s) = false) : EndsAt body again s 0 :=
  ⟨h, fun _ hj => absurd hj (Nat.not_lt_zero _)⟩

theorem endsAt_succ_iff {s : σ} {k : Nat} :
    EndsAt body again s (k + 1) ↔ again (body s) = true ∧ EndsAt body again (body s) k := by
  constructor
  · intro h
    refine ⟨h.runs 0 (Nat.succ_pos k), h.stops, fun j hj => ?_⟩
    exact h.runs (j + 1) (Nat.succ_lt_succ hj)
  · rintro ⟨h0, h⟩
    refine ⟨h.stops, fun j hj => ?_⟩
    cases j with
    | zero => exact h0
    | succ j => exact h.runs j (Nat.lt_of_succ_lt_succ hj)

theorem EndsAt.unique {s : σ} {k k' : Nat} (h : EndsAt body again s k)
    (h' : EndsAt body again s k') : k = k' := by
  rcases Nat.lt_trichotomy k k' with hlt | heq | hgt
  · exact Bool.noConfusion (h.stops.symm.trans (h'.runs k hlt))
  · exact heq
  · exact Bool.noConfusion (h'.stops.symm.trans (h.runs k' hgt))

/-- **Results.** -/
theorem run_eq_some_iff {fuel : Nat} {s t : σ} :
    run body again fuel s = some t ↔
      ∃ k, k < fuel ∧ EndsAt body again s k ∧ t = body^[k + 1] s := by
  induction fuel generalizing s with
  | zero => simp [run]
  | succ fuel ih =>
    rw [run]
    cases hg : again (body s) with
    | true =>
      rw [if_pos rfl, ih]
      constructor
      · rintro ⟨k, hk, hend, rfl⟩
        exact ⟨k + 1, Nat.succ_lt_succ hk, endsAt_succ_iff.mpr ⟨hg, hend⟩, rfl⟩
      · rintro ⟨k, hk, hend, rfl⟩
        cases k with
        | zero => exact absurd hend.stops (by simp [hg])
        | succ k =>
          exact ⟨k, Nat.lt_of_succ_lt_succ hk, (endsAt_succ_iff.mp hend).2, rfl⟩
    | false =>
      rw [if_neg Bool.false_ne_true, Option.some.injEq]
      constructor
      · rintro rfl
        exact ⟨0, Nat.succ_pos fuel, endsAt_zero hg, rfl⟩
      · rintro ⟨k, _, hend, rfl⟩
        rw [hend.unique (endsAt_zero hg)]
        rfl

end DoWhile
