import Mathlib.Data.List.Basic

/-!
# Depth-first walks with a shared visited set

A walk visits a node unless it is to be skipped or was seen before, then walks
the successors that the visit returned, one after the other, in the state the
previous one left. The graph may be cyclic; recursion is cut by `fuel`. Visits
may fail. Proved here:

* `go_induction`: what every first visit keeps, a whole walk keeps;
* `go_sim`: related states have related walks, if one visit keeps the relation;
* `go_ok`: if visits succeed and mark their node, a walk whose fuel exceeds the
  number of unseen nodes of a finite universe closed under successors returns;
* `go_no_overflow`: if visits that succeed mark their node, such a walk never runs
  out of fuel, whatever the errors of the others.
-/

/-- How to walk: `visit a s` handles node `a` and returns its successors (none to
stop below `a`); `overflow` is the error of a walk out of fuel. -/
structure VisitedWalk (α σ ε : Type) where
  skip : α → Bool
  seen : σ → List α
  visit : α → σ → Except ε (σ × List α)
  overflow : ε

namespace VisitedWalk

variable {α σ ε : Type} [DecidableEq α]

def go (w : VisitedWalk α σ ε) : Nat → α → σ → Except ε σ
  | 0, _, _ => .error w.overflow
  | fuel + 1, a, s =>
    if w.skip a then .ok s
    else if a ∈ w.seen s then .ok s
    else
      match w.visit a s with
      | .error e => .error e
      | .ok (s', next) => next.foldlM (fun s b => w.go fuel b s) s'

/-! ## Folds that may fail -/

theorem foldlM_ok {β : Type} (f : σ → β → Except ε σ) (I : σ → Prop) (l : List β)
    (hf : ∀ s, ∀ b ∈ l, I s → ∃ s', f s b = .ok s' ∧ I s') (s : σ) (hs : I s) :
    ∃ s', l.foldlM f s = .ok s' ∧ I s' := by
  induction l generalizing s with
  | nil => exact ⟨s, rfl, hs⟩
  | cons b l ih =>
    obtain ⟨s₁, h₁, hI⟩ := hf s b (List.mem_cons_self ..) hs
    obtain ⟨s', h', hI'⟩ := ih (fun s c hc => hf s c (List.mem_cons_of_mem _ hc)) s₁ hI
    refine ⟨s', ?_, hI'⟩
    rw [List.foldlM_cons, h₁]
    exact h'

theorem foldlM_induction {β : Type} (f : σ → β → Except ε σ) (P : σ → Prop) (l : List β)
    (hf : ∀ s s', ∀ b ∈ l, P s → f s b = .ok s' → P s') {s s' : σ} (hs : P s)
    (h : l.foldlM f s = .ok s') : P s' := by
  induction l generalizing s with
  | nil =>
    cases h
    exact hs
  | cons b l ih =>
    rw [List.foldlM_cons] at h
    cases h₁ : f s b with
    | error e =>
      rw [h₁] at h
      cases h
    | ok s₁ =>
      rw [h₁] at h
      exact ih (fun s s' c hc => hf s s' c (List.mem_cons_of_mem _ hc))
        (hf s s₁ b (List.mem_cons_self ..) hs h₁) h

/-- A fold that fails comes to a step that does. -/
theorem foldlM_error {β : Type} (f : σ → β → Except ε σ) (l : List β) {s : σ} {e : ε}
    (h : l.foldlM f s = .error e) :
    ∃ pre b post t, l = pre ++ b :: post ∧ pre.foldlM f s = .ok t ∧ f t b = .error e := by
  induction l generalizing s with
  | nil => cases h
  | cons b l ih =>
    rw [List.foldlM_cons] at h
    cases h₁ : f s b with
    | error e₁ =>
      rw [h₁] at h
      cases h
      exact ⟨[], b, l, s, rfl, rfl, h₁⟩
    | ok s₁ =>
      rw [h₁] at h
      obtain ⟨pre, c, post, t, he, hp, hc⟩ := ih h
      refine ⟨b :: pre, c, post, t, by rw [he, List.cons_append], ?_, hc⟩
      rw [List.foldlM_cons, h₁]
      exact hp

/-- A fold returns exactly when every step it comes to does. -/
theorem foldlM_returns_iff {β : Type} (f : σ → β → Except ε σ) (l : List β) (s : σ) :
    (∃ s', l.foldlM f s = .ok s') ↔
      ∀ pre b post t, l = pre ++ b :: post → pre.foldlM f s = .ok t → ∃ t', f t b = .ok t' := by
  constructor
  · rintro ⟨s', h⟩ pre b post t rfl hp
    rw [List.foldlM_append, hp] at h
    cases hb : f t b with
    | ok t' => exact ⟨t', rfl⟩
    | error e =>
      have h' : ((b :: post).foldlM f t) = .ok s' := h
      rw [List.foldlM_cons, hb] at h'
      cases h'
  · intro hall
    cases h : l.foldlM f s with
    | ok s' => exact ⟨s', rfl⟩
    | error e =>
      obtain ⟨pre, b, post, t, he, hp, hb⟩ := foldlM_error f l h
      obtain ⟨t', ht⟩ := hall pre b post t he hp
      rw [hb] at ht
      cases ht

/-! ## Partial correctness -/

/-- **Run rule.** A property kept by every first visit is kept by the walk. -/
theorem go_induction (w : VisitedWalk α σ ε) {P : σ → Prop}
    (hv : ∀ a s s' next, w.skip a = false → a ∉ w.seen s → P s →
      w.visit a s = .ok (s', next) → P s')
    (fuel : Nat) (a : α) {s s' : σ} (hs : P s) (h : w.go fuel a s = .ok s') : P s' := by
  induction fuel generalizing a s s' with
  | zero => cases h
  | succ fuel ih =>
    rw [go] at h
    split at h
    · cases h
      exact hs
    · split at h
      · cases h
        exact hs
      · cases hvis : w.visit a s with
        | error e =>
          rw [hvis] at h
          cases h
        | ok r =>
          rw [hvis] at h
          obtain ⟨s₁, next⟩ := r
          have h₁ : P s₁ := hv a s s₁ next (by simp_all) (by assumption) hs hvis
          exact foldlM_induction _ P next (fun s s' b _ hs h => ih b hs h) h₁ h

/-! ## Simulation -/

theorem foldlM_sim {β : Type} (f : σ → β → Except ε σ) (R : σ → σ → Prop) (l : List β)
    (hf : ∀ s t s' b, R s t → f s b = .ok s' → ∃ t', f t b = .ok t' ∧ R s' t') {s t s' : σ}
    (hR : R s t) (h : l.foldlM f s = .ok s') : ∃ t', l.foldlM f t = .ok t' ∧ R s' t' := by
  induction l generalizing s t with
  | nil =>
    cases h
    exact ⟨t, rfl, hR⟩
  | cons b l ih =>
    rw [List.foldlM_cons] at h
    cases h₁ : f s b with
    | error e =>
      rw [h₁] at h
      cases h
    | ok s₁ =>
      rw [h₁] at h
      obtain ⟨t₁, ht₁, hR₁⟩ := hf s t s₁ b hR h₁
      obtain ⟨t', ht', hR'⟩ := ih hR₁ h
      refine ⟨t', ?_, hR'⟩
      rw [List.foldlM_cons, ht₁]
      exact ht'

/-- Related states have seen the same nodes, and visits keep them related and
return the same successors. -/
structure Simulates (w : VisitedWalk α σ ε) (R : σ → σ → Prop) : Prop where
  seen : ∀ s t, R s t → w.seen s = w.seen t
  visits : ∀ a s t s' next, R s t → w.visit a s = .ok (s', next) →
    ∃ t', w.visit a t = .ok (t', next) ∧ R s' t'

/-- **Related walks.** -/
theorem go_sim {w : VisitedWalk α σ ε} {R : σ → σ → Prop} (hw : Simulates w R) (fuel : Nat)
    (a : α) {s t s' : σ} (hR : R s t) (h : w.go fuel a s = .ok s') :
    ∃ t', w.go fuel a t = .ok t' ∧ R s' t' := by
  induction fuel generalizing a s t s' with
  | zero => cases h
  | succ fuel ih =>
    rw [go] at h
    rw [go, ← hw.seen s t hR]
    split at h
    case isTrue hk =>
      cases h
      exact ⟨t, by rw [if_pos hk], hR⟩
    case isFalse hk =>
      rw [if_neg hk]
      split at h
      case isTrue hm =>
        cases h
        exact ⟨t, by rw [if_pos hm], hR⟩
      case isFalse hm =>
        rw [if_neg hm]
        cases hv : w.visit a s with
        | error e =>
          rw [hv] at h
          cases h
        | ok r =>
          obtain ⟨s₁, next⟩ := r
          rw [hv] at h
          obtain ⟨t₁, ht₁, hR₁⟩ := hw.visits a s t s₁ next hR hv
          rw [ht₁]
          exact foldlM_sim _ R next (fun s t s' b hR h => ih b hR h) hR₁ h

/-! ## Termination -/

/-- The nodes of a universe not seen yet. -/
def unseen (w : VisitedWalk α σ ε) (U : List α) (s : σ) : List α :=
  U.filter fun a => decide (a ∉ w.seen s)

theorem length_unseen_le (w : VisitedWalk α σ ε) (U : List α) {s s' : σ}
    (h : ∀ a ∈ w.seen s, a ∈ w.seen s') : (w.unseen U s').length ≤ (w.unseen U s).length := by
  refine List.Sublist.length_le (List.monotone_filter_right U ?_)
  intro a ha
  simp only [decide_eq_true_eq] at ha ⊢
  exact fun hs => ha (h a hs)

theorem length_unseen_lt (w : VisitedWalk α σ ε) (U : List α) {s s' : σ} {a : α} (ha : a ∈ U)
    (hs : a ∉ w.seen s) (hs' : a ∈ w.seen s') (h : ∀ b ∈ w.seen s, b ∈ w.seen s') :
    (w.unseen U s').length < (w.unseen U s).length := by
  have hmem : a ∈ w.unseen U s := List.mem_filter.mpr ⟨ha, by simpa using hs⟩
  have hsub : w.unseen U s' = (w.unseen U s).filter fun b => decide (b ∉ w.seen s') := by
    rw [unseen, unseen, List.filter_filter]
    refine List.filter_congr fun b _ => ?_
    by_cases hb : b ∈ w.seen s
    · simp [hb, h b hb]
    · simp [hb]
  rw [hsub]
  exact List.length_filter_lt_length_iff_exists.mpr ⟨a, hmem, by simpa using hs'⟩

/-- What a walk needs of its visits in order to return: they succeed, mark their
node and unmark none, keep the invariant `I`, and stay in the universe. -/
structure Progress (w : VisitedWalk α σ ε) (U : List α) (I : σ → Prop) : Prop where
  visits : ∀ a s, w.skip a = false → a ∉ w.seen s → I s →
    ∃ s' next, w.visit a s = .ok (s', next) ∧ I s' ∧ a ∈ w.seen s' ∧
      (∀ b ∈ w.seen s, b ∈ w.seen s') ∧ ∀ b ∈ next, b ∈ U

/-- **Walks return.** -/
theorem go_ok {w : VisitedWalk α σ ε} {U : List α} {I : σ → Prop} (hw : Progress w U I)
    (fuel : Nat) {a : α} {s : σ} (ha : a ∈ U) (hs : I s)
    (hfuel : (w.unseen U s).length < fuel) :
    ∃ s', w.go fuel a s = .ok s' ∧ I s' ∧ ∀ b ∈ w.seen s, b ∈ w.seen s' := by
  induction fuel generalizing a s with
  | zero => omega
  | succ fuel ih =>
    rw [go]
    cases hk : w.skip a with
    | true => exact ⟨s, rfl, hs, fun b hb => hb⟩
    | false =>
      by_cases hm : a ∈ w.seen s
      · exact ⟨s, by simp [hm], hs, fun b hb => hb⟩
      · obtain ⟨s₁, next, hv, hI, hmark, hgrow, hnext⟩ := hw.visits a s hk hm hs
        have hlt := w.length_unseen_lt U ha hm hmark hgrow
        obtain ⟨s', h', hI', hseen⟩ := foldlM_ok (fun s b => w.go fuel b s)
          (fun t => I t ∧ ∀ b ∈ w.seen s₁, b ∈ w.seen t) next (by
            intro t b hb ht
            have hle := w.length_unseen_le U ht.2
            obtain ⟨t', e, hI', hg⟩ := ih (hnext b hb) ht.1 (by omega)
            exact ⟨t', e, hI', fun c hc => hg c (ht.2 c hc)⟩) s₁ ⟨hI, fun b hb => hb⟩
        refine ⟨s', ?_, hI', fun b hb => hseen b (hgrow b hb)⟩
        simp [hm, hv, h']

/-- What a walk needs of its visits in order not to run out of fuel: those that succeed
mark their node, unmark none and stay in the universe. -/
structure Bounded (w : VisitedWalk α σ ε) (U : List α) : Prop where
  visits : ∀ a s s' next, w.visit a s = .ok (s', next) →
    a ∈ w.seen s' ∧ (∀ b ∈ w.seen s, b ∈ w.seen s') ∧ ∀ b ∈ next, b ∈ U
  fails : ∀ a s e, w.visit a s = .error e → e ≠ w.overflow

theorem Bounded.seen_go {w : VisitedWalk α σ ε} {U : List α} (hw : w.Bounded U) {fuel : Nat}
    {a : α} {s s' : σ} (h : w.go fuel a s = .ok s') : ∀ b ∈ w.seen s, b ∈ w.seen s' :=
  go_induction w (P := fun t => ∀ b ∈ w.seen s, b ∈ w.seen t)
    (fun c t t' next _ _ ht hv b hb => (hw.visits c t t' next hv).2.1 b (ht b hb)) fuel a
    (fun _ hb => hb) h

/-- **Enough fuel.** A walk fails only where a visit does. -/
theorem go_no_overflow {w : VisitedWalk α σ ε} {U : List α} (hw : w.Bounded U) (fuel : Nat)
    {a : α} {s : σ} {e : ε} (ha : a ∈ U) (hfuel : (w.unseen U s).length < fuel)
    (h : w.go fuel a s = .error e) : e ≠ w.overflow := by
  induction fuel generalizing a s with
  | zero => omega
  | succ fuel ih =>
    rw [go] at h
    split at h
    case isTrue => cases h
    case isFalse hk =>
      split at h
      case isTrue => cases h
      case isFalse hm =>
        cases hv : w.visit a s with
        | error e' =>
          rw [hv] at h
          cases h
          exact hw.fails a s e hv
        | ok r =>
          obtain ⟨s₁, next⟩ := r
          rw [hv] at h
          obtain ⟨hmark, hgrow, hnext⟩ := hw.visits a s s₁ next hv
          have hlt := w.length_unseen_lt U ha hm hmark hgrow
          obtain ⟨pre, b, post, t, hl, hpre, hb⟩ := foldlM_error _ next h
          -- the visits before the failing one unmark nothing
          have hseen : ∀ c ∈ w.seen s₁, c ∈ w.seen t :=
            foldlM_induction _ (fun t => ∀ c ∈ w.seen s₁, c ∈ w.seen t) pre
              (fun _ _ _ _ ht hs c hc => hw.seen_go hs c (ht c hc)) (fun _ hc => hc) hpre
          have hle := w.length_unseen_le U hseen
          have hbU : b ∈ U := hnext b (by simp [hl])
          exact ih hbU (by omega) hb

end VisitedWalk
