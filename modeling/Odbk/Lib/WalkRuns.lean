import Odbk.Lib.VisitedWalk

/-!
# Walks visit by visit

The recursion of `VisitedWalk.go` unrolled into one sequence of visits, and the
order of a depth-first walk as a thing of its own. Proved here:

* `run_of_foldlM`: a walk that returns is a run (`Run`), and `Run.deterministic`:
  there is one such run;
* `Run.fresh`, `Run.covers`, `Run.within`: a run visits each node at most once, every node
  it starts from and every successor that a visit returned, and no other;
* `Run.reach`, `Run.mem_of_reach`: the nodes of a run are those reachable;
* `Run.order`: the nodes of a run are in the depth-first order (`WalkOrder`) of any
  graph that has the successors the visits returned, and `Run.agree`: they begin like
  the order of a graph as long as that holds;
* `walkOrder_spec`: over a finite graph the order is computed by `walkOrder`.
-/

namespace VisitedWalk

variable {α σ ε : Type}

/-! ## Runs -/

/-- One visit: the node, the states before and after, the successors returned. -/
structure Visit (α σ : Type) where
  node : α
  before : σ
  after : σ
  next : List α

/-- From the nodes `l` still to walk and state `s` the walk makes the visits `vs` and
ends in `s'`. -/
inductive Run (w : VisitedWalk α σ ε) : List α → σ → List (Visit α σ) → σ → Prop
  | done (s : σ) : Run w [] s [] s
  | pass {a : α} {l : List α} {s s' : σ} {vs : List (Visit α σ)}
      (h : w.skip a = true ∨ a ∈ w.seen s) : Run w l s vs s' → Run w (a :: l) s vs s'
  | visit {a : α} {l next : List α} {s s₁ s' : σ} {vs : List (Visit α σ)}
      (hk : w.skip a = false) (hm : a ∉ w.seen s) (hv : w.visit a s = .ok (s₁, next)) :
      Run w (next ++ l) s₁ vs s' → Run w (a :: l) s (⟨a, s, s₁, next⟩ :: vs) s'

variable {w : VisitedWalk α σ ε}

theorem Run.append {l l' : List α} {s t s' : σ} {vs vs' : List (Visit α σ)}
    (h : w.Run l s vs t) (h' : w.Run l' t vs' s') : w.Run (l ++ l') s (vs ++ vs') s' := by
  induction h with
  | done s => exact h'
  | pass hp _ ih => exact .pass hp (ih h')
  | visit hk hm hv _ ih =>
    have hr := ih h'
    rw [List.append_assoc] at hr
    exact .visit hk hm hv hr

/-- **One run.** -/
theorem Run.deterministic {l : List α} {s t t' : σ} {vs vs' : List (Visit α σ)}
    (h : w.Run l s vs t) (h' : w.Run l s vs' t') : vs = vs' ∧ t = t' := by
  induction h generalizing vs' t' with
  | done s =>
    cases h'
    exact ⟨rfl, rfl⟩
  | pass hp _ ih =>
    cases h' with
    | pass _ hr' => exact ih hr'
    | visit hk hm _ _ =>
      rcases hp with hk' | hm'
      · rw [hk] at hk'
        cases hk'
      · exact absurd hm' hm
  | visit hk hm hv _ ih =>
    cases h' with
    | pass hp _ =>
      rcases hp with hk' | hm'
      · rw [hk] at hk'
        cases hk'
      · exact absurd hm' hm
    | visit _ _ hv' hr' =>
      rw [hv] at hv'
      cases hv'
      obtain ⟨rfl, rfl⟩ := ih hr'
      exact ⟨rfl, rfl⟩

/-- Every visit of a run is the first one of its node. -/
theorem Run.of_mem {l : List α} {s s' : σ} {vs : List (Visit α σ)} (h : w.Run l s vs s')
    {v : Visit α σ} (hv : v ∈ vs) :
    w.skip v.node = false ∧ v.node ∉ w.seen v.before ∧
      w.visit v.node v.before = .ok (v.after, v.next) := by
  induction h with
  | done s => cases hv
  | pass _ _ ih => exact ih hv
  | visit hk hm hvis _ ih =>
    rcases List.mem_cons.mp hv with rfl | hv
    · exact ⟨hk, hm, hvis⟩
    · exact ih hv

/-! ## Chains of visits -/

/-- Each visit starts where the one before it ended. -/
def Chain : σ → List (Visit α σ) → σ → Prop
  | s, [], s' => s = s'
  | s, v :: vs, s' => v.before = s ∧ Chain v.after vs s'

theorem Run.chain {l : List α} {s s' : σ} {vs : List (Visit α σ)} (h : w.Run l s vs s') :
    Chain s vs s' := by
  induction h with
  | done s => rfl
  | pass _ _ ih => exact ih
  | visit _ _ _ _ ih => exact ⟨rfl, ih⟩

theorem Chain.split {pre post : List (Visit α σ)} {v : Visit α σ} {s s' : σ}
    (h : Chain s (pre ++ v :: post) s') : Chain s pre v.before ∧ Chain v.after post s' := by
  induction pre generalizing s with
  | nil => exact ⟨h.1.symm, h.2⟩
  | cons u pre ih =>
    obtain ⟨h₁, h₂⟩ := ih h.2
    exact ⟨⟨h.1, h₁⟩, h₂⟩

/-- **Chain rule.** What every visit keeps, the chain keeps. -/
theorem Chain.induction {P : σ → Prop} {vs : List (Visit α σ)} {s s' : σ} (h : Chain s vs s')
    (hstep : ∀ v ∈ vs, P v.before → P v.after) (hs : P s) : P s' := by
  induction vs generalizing s with
  | nil => exact h ▸ hs
  | cons v vs ih =>
    have h₁ : P v.after := hstep v List.mem_cons_self (h.1.symm ▸ hs)
    exact ih h.2 (fun u hu => hstep u (List.mem_cons_of_mem _ hu)) h₁

/-- What every visit computes from its node, the chain computes from its nodes. -/
theorem Chain.foldl_eq {β : Type} {g : σ → β} {f : β → α → β} {vs : List (Visit α σ)} {s s' : σ}
    (h : Chain s vs s') (hstep : ∀ v ∈ vs, g v.after = f (g v.before) v.node) :
    g s' = (vs.map Visit.node).foldl f (g s) := by
  induction vs generalizing s with
  | nil =>
    cases h
    rfl
  | cons v vs ih =>
    rw [ih h.2 fun u hu => hstep u (List.mem_cons_of_mem _ hu), hstep v List.mem_cons_self, h.1]
    rfl

/-- What holds after a visit if it held before or by the node holds after the chain if it
held before or by one of the nodes. -/
theorem Chain.iff_exists {P : σ → Prop} {c : α → Prop} {vs : List (Visit α σ)} {s s' : σ}
    (h : Chain s vs s') (hstep : ∀ v ∈ vs, P v.after ↔ P v.before ∨ c v.node) :
    P s' ↔ P s ∨ ∃ a ∈ vs.map Visit.node, c a := by
  induction vs generalizing s with
  | nil =>
    cases h
    simp
  | cons v vs ih =>
    have hv := hstep v List.mem_cons_self
    rw [ih h.2 fun u hu => hstep u (List.mem_cons_of_mem _ hu), hv, h.1, List.map_cons]
    simp only [List.mem_cons, exists_eq_or_imp, or_assoc]

/-! ## Visited nodes -/

/-- A visit marks its node and no other. -/
def Marks (w : VisitedWalk α σ ε) : Prop :=
  ∀ a s s' next, w.visit a s = .ok (s', next) → w.seen s' = a :: w.seen s

theorem Run.seen (hw : w.Marks) {l : List α} {s s' : σ} {vs : List (Visit α σ)}
    (h : w.Run l s vs s') : w.seen s' = (vs.map Visit.node).reverse ++ w.seen s := by
  induction h with
  | done s => rfl
  | pass _ _ ih => exact ih
  | visit _ _ hv _ ih =>
    rw [ih, hw _ _ _ _ hv, List.map_cons, List.reverse_cons, List.append_assoc]
    rfl

/-- **At most once.** -/
theorem Run.fresh (hw : w.Marks) {l : List α} {s s' : σ} {vs : List (Visit α σ)}
    (h : w.Run l s vs s') :
    (vs.map Visit.node).Nodup ∧ ∀ a ∈ vs.map Visit.node, a ∉ w.seen s := by
  induction h with
  | done s => exact ⟨List.nodup_nil, by simp⟩
  | pass _ _ ih => exact ih
  | @visit a l next s s₁ s' vs hk hm hv _ ih =>
    obtain ⟨hnodup, hfresh⟩ := ih
    rw [hw _ _ _ _ hv] at hfresh
    rw [List.map_cons]
    refine ⟨List.nodup_cons.mpr ⟨fun ha => hfresh a ha List.mem_cons_self, hnodup⟩, ?_⟩
    intro b hb
    rcases List.mem_cons.mp hb with rfl | hb
    · exact hm
    · exact fun hs => hfresh b hb (List.mem_cons_of_mem _ hs)

/-- **Every node and every successor** is visited, unless skipped or seen before. -/
theorem Run.covers (hw : w.Marks) {l : List α} {s s' : σ} {vs : List (Visit α σ)}
    (h : w.Run l s vs s') :
    (∀ a ∈ l, w.skip a = true ∨ a ∈ w.seen s') ∧
      ∀ v ∈ vs, ∀ b ∈ v.next, w.skip b = true ∨ b ∈ w.seen s' := by
  induction h with
  | done s => exact ⟨by simp, by simp⟩
  | @pass a l s s' vs hp hr ih =>
    refine ⟨fun b hb => ?_, ih.2⟩
    rcases List.mem_cons.mp hb with rfl | hb
    · rcases hp with hk | hm
      · exact Or.inl hk
      · right
        rw [hr.seen hw]
        exact List.mem_append_right _ hm
    · exact ih.1 b hb
  | @visit a l next s s₁ s' vs hk hm hv hr ih =>
    have ha : a ∈ w.seen s' := by
      rw [hr.seen hw, hw _ _ _ _ hv]
      exact List.mem_append_right _ List.mem_cons_self
    refine ⟨fun b hb => ?_, fun v hvs => ?_⟩
    · rcases List.mem_cons.mp hb with rfl | hb
      · exact Or.inr ha
      · exact ih.1 b (List.mem_append_right _ hb)
    · rcases List.mem_cons.mp hvs with rfl | hvs
      · exact fun b hb => ih.1 b (List.mem_append_left _ hb)
      · exact ih.2 v hvs

/-- **No other.** A property of the nodes a run starts from, kept by successors, holds of
every node visited. -/
theorem Run.within {D : α → Prop} {l : List α} {s s' : σ} {vs : List (Visit α σ)}
    (h : w.Run l s vs s') (hl : ∀ a ∈ l, D a)
    (hnext : ∀ v ∈ vs, D v.node → ∀ b ∈ v.next, D b) : ∀ v ∈ vs, D v.node := by
  induction h with
  | done s => simp
  | pass _ _ ih => exact ih (fun b hb => hl b (List.mem_cons_of_mem _ hb)) hnext
  | @visit a l next s s₁ s' vs hk hm hv _ ih =>
    have ha : D a := hl a List.mem_cons_self
    have hn : ∀ b ∈ next, D b := hnext _ List.mem_cons_self ha
    have hrest := ih
      (fun b hb => (List.mem_append.mp hb).elim (hn b) fun hb => hl b (List.mem_cons_of_mem _ hb))
      fun v hv => hnext v (List.mem_cons_of_mem _ hv)
    intro v hv
    rcases List.mem_cons.mp hv with rfl | hv
    · exact ha
    · exact hrest v hv

/-! ## Reachable nodes -/

/-- The nodes that a walk of the graph `succ` from `l` can come to past the nodes skipped. -/
inductive Reach (skip : α → Bool) (succ : α → List α) (l : List α) : α → Prop
  | root {a : α} (h : a ∈ l) (hk : skip a = false) : Reach skip succ l a
  | step {a b : α} (hb : Reach skip succ l b) (h : a ∈ succ b) (hk : skip a = false) :
      Reach skip succ l a

/-- Nodes stay reachable where the reachable ones keep their successors. -/
theorem Reach.mono {skip : α → Bool} {succ succ' : α → List α} {l l' : List α}
    (hl : ∀ a ∈ l, a ∈ l')
    (hsucc : ∀ a, Reach skip succ l a → Reach skip succ' l' a → ∀ b ∈ succ a, b ∈ succ' a) {a : α}
    (h : Reach skip succ l a) : Reach skip succ' l' a := by
  induction h with
  | root h hk => exact .root (hl _ h) hk
  | step hb h hk ih => exact .step ih (hsucc _ hb ih _ h) hk

/-- A run stays among the nodes reachable in any graph that has the successors the visits
returned. -/
theorem Run.reach {succ : α → List α} {l : List α} {s s' : σ} {vs : List (Visit α σ)}
    (h : w.Run l s vs s') (hsucc : ∀ v ∈ vs, ∀ b ∈ v.next, b ∈ succ v.node) :
    ∀ v ∈ vs, Reach w.skip succ l v.node := by
  intro v hv
  refine h.within (D := fun a => w.skip a = false → Reach w.skip succ l a) (fun a => .root) ?_
    v hv (h.of_mem hv).1
  intro u hu hd b hb
  exact .step (hd (h.of_mem hu).1) (hsucc u hu b hb)

/-- **Reachability.** A run from no node seen visits every node reachable in any graph that
has no successors but those the visits returned. -/
theorem Run.mem_of_reach (hw : w.Marks) {succ : α → List α} {l : List α} {s s' : σ}
    {vs : List (Visit α σ)} (h : w.Run l s vs s') (hs : w.seen s = [])
    (hsucc : ∀ v ∈ vs, ∀ b ∈ succ v.node, b ∈ v.next) {a : α} (ha : Reach w.skip succ l a) :
    a ∈ vs.map Visit.node := by
  obtain ⟨hl, hnext⟩ := h.covers hw
  have hseen : ∀ b, w.skip b = false → w.skip b = true ∨ b ∈ w.seen s' →
      b ∈ vs.map Visit.node := by
    intro b hk hb
    have hmem := hb.resolve_left (by simp [hk])
    rwa [h.seen hw, hs, List.append_nil, List.mem_reverse] at hmem
  induction ha with
  | root ha hk => exact hseen _ hk (hl _ ha)
  | step _ hb hk ih =>
    obtain ⟨v, hv, rfl⟩ := List.mem_map.mp ih
    exact hseen _ hk (hnext v hv _ (hsucc v hv _ hb))

/-! ## Depth-first order -/

/-- The order in which a walk of the graph `succ` from `l` visits nodes, past the nodes
skipped and those seen. -/
inductive WalkOrder (skip : α → Bool) (succ : α → List α) : List α → List α → List α → Prop
  | done (seen : List α) : WalkOrder skip succ [] seen []
  | pass {a : α} {l seen order : List α} (h : skip a = true ∨ a ∈ seen) :
      WalkOrder skip succ l seen order → WalkOrder skip succ (a :: l) seen order
  | visit {a : α} {l seen order : List α} (hk : skip a = false) (hm : a ∉ seen) :
      WalkOrder skip succ (succ a ++ l) (a :: seen) order →
        WalkOrder skip succ (a :: l) seen (a :: order)

/-- **Order of a run.** -/
theorem Run.order (hw : w.Marks) {succ : α → List α} {l : List α} {s s' : σ}
    {vs : List (Visit α σ)} (h : w.Run l s vs s') (hsucc : ∀ v ∈ vs, succ v.node = v.next) :
    WalkOrder w.skip succ l (w.seen s) (vs.map Visit.node) := by
  induction h with
  | done s => exact .done _
  | pass hp _ ih => exact .pass hp (ih hsucc)
  | @visit a l next s s₁ s' vs hk hm hv _ ih =>
    have hi := ih fun v hv => hsucc v (List.mem_cons_of_mem _ hv)
    have hnext : succ a = next := hsucc _ List.mem_cons_self
    rw [hw _ _ _ _ hv, ← hnext] at hi
    exact .visit hk hm hi

/-- **Common beginning.** The order of a graph begins like the run as long as the visits
returned the successors of the graph. -/
theorem Run.agree (hw : w.Marks) {succ : α → List α} {l o : List α} {s s' : σ}
    {vs pre post : List (Visit α σ)} {v : Visit α σ} (h : w.Run l s vs s')
    (ho : WalkOrder w.skip succ l (w.seen s) o) (hvs : vs = pre ++ v :: post)
    (hsucc : ∀ u ∈ pre, succ u.node = u.next) :
    ∃ post', o = pre.map Visit.node ++ v.node :: post' := by
  induction h generalizing o pre with
  | done s => simp at hvs
  | pass hp _ ih =>
    cases ho with
    | pass _ ho' => exact ih ho' hvs hsucc
    | visit hk hm _ =>
      rcases hp with hk' | hm'
      · rw [hk] at hk'
        cases hk'
      · exact absurd hm' hm
  | @visit a l next s s₁ s' vs hk hm hv _ ih =>
    cases ho with
    | pass hp _ =>
      rcases hp with hk' | hm'
      · rw [hk] at hk'
        cases hk'
      · exact absurd hm' hm
    | @visit _ _ _ o' _ _ ho' =>
      cases pre with
      | nil =>
        cases hvs
        exact ⟨o', rfl⟩
      | cons u pre =>
        cases hvs
        have hnext : succ a = next := hsucc _ List.mem_cons_self
        rw [hnext, ← hw _ _ _ _ hv] at ho'
        obtain ⟨post', rfl⟩ := ih ho' rfl fun c hc => hsucc c (List.mem_cons_of_mem _ hc)
        exact ⟨post', rfl⟩

/-- **One order.** -/
theorem WalkOrder.deterministic {skip : α → Bool} {succ : α → List α} {l seen o o' : List α}
    (h : WalkOrder skip succ l seen o) (h' : WalkOrder skip succ l seen o') : o' = o := by
  induction h generalizing o' with
  | done seen =>
    cases h'
    rfl
  | pass hp _ ih =>
    cases h' with
    | pass _ hr' => exact ih hr'
    | visit hk hm _ =>
      rcases hp with hk' | hm'
      · rw [hk] at hk'
        cases hk'
      · exact absurd hm' hm
  | visit hk hm _ ih =>
    cases h' with
    | pass hp _ =>
      rcases hp with hk' | hm'
      · rw [hk] at hk'
        cases hk'
      · exact absurd hm' hm
    | visit _ _ hr' => rw [ih hr']

/-! ## Walks that return -/

theorem run_of_steps {f : σ → α → Except ε σ}
    (hf : ∀ a s s', f s a = .ok s' → ∃ vs, w.Run [a] s vs s') (l : List α) {s s' : σ}
    (h : l.foldlM f s = .ok s') : ∃ vs, w.Run l s vs s' := by
  induction l generalizing s with
  | nil =>
    cases h
    exact ⟨[], .done _⟩
  | cons a l ih =>
    rw [List.foldlM_cons] at h
    cases h₁ : f _ a with
    | error e =>
      rw [h₁] at h
      cases h
    | ok s₁ =>
      rw [h₁] at h
      obtain ⟨vs, hr⟩ := hf a _ _ h₁
      obtain ⟨vs', hr'⟩ := ih h
      exact ⟨vs ++ vs', hr.append hr'⟩

theorem run_of_go [DecidableEq α] (w : VisitedWalk α σ ε) (fuel : Nat) (a : α) {s s' : σ}
    (h : w.go fuel a s = .ok s') : ∃ vs, w.Run [a] s vs s' := by
  induction fuel generalizing a s s' with
  | zero => cases h
  | succ fuel ih =>
    rw [go] at h
    split at h
    case isTrue hk =>
      cases h
      exact ⟨[], .pass (Or.inl hk) (.done _)⟩
    case isFalse hk =>
      split at h
      case isTrue hm =>
        cases h
        exact ⟨[], .pass (Or.inr hm) (.done _)⟩
      case isFalse hm =>
        cases hv : w.visit a s with
        | error e =>
          rw [hv] at h
          cases h
        | ok r =>
          obtain ⟨s₁, next⟩ := r
          rw [hv] at h
          obtain ⟨vs, hr⟩ := run_of_steps (fun b _ _ hb => ih b hb) next h
          refine ⟨⟨a, s, s₁, next⟩ :: vs, .visit (by simpa using hk) hm hv ?_⟩
          rwa [List.append_nil]

/-- **Walks are runs.** -/
theorem run_of_foldlM [DecidableEq α] (w : VisitedWalk α σ ε) (fuel : Nat) (l : List α)
    {s s' : σ} (h : l.foldlM (fun s b => w.go fuel b s) s = .ok s') : ∃ vs, w.Run l s vs s' :=
  run_of_steps (fun a _ _ ha => run_of_go w fuel a ha) l h

/-! ## The order computed -/

/-- The walk that only records where it was, the latest node first. -/
def graphWalk (skip : α → Bool) (succ : α → List α) : VisitedWalk α (List α) Unit where
  skip := skip
  seen seen := seen
  visit a seen := .ok (a :: seen, succ a)
  overflow := ()

/-- The depth-first order of a graph, for a walk of bounded depth. -/
def walkOrder [DecidableEq α] (skip : α → Bool) (succ : α → List α) (fuel : Nat)
    (roots : List α) : List α :=
  match roots.foldlM (fun s a => (graphWalk skip succ).go fuel a s) [] with
  | .ok seen => seen.reverse
  | .error _ => []

theorem graphWalk_marks (skip : α → Bool) (succ : α → List α) : (graphWalk skip succ).Marks := by
  intro a s s' next h
  cases h
  rfl

theorem graphWalk_progress (skip : α → Bool) (succ : α → List α) {U : List α}
    (hU : ∀ a, ∀ b ∈ succ a, b ∈ U) : (graphWalk skip succ).Progress U fun _ => True where
  visits a s _ _ _ := by
    refine ⟨a :: s, succ a, rfl, trivial, List.mem_cons_self, ?_, hU a⟩
    intro b hb
    exact List.mem_cons_of_mem _ hb

/-- **The order is computed** when the graph has fewer nodes than the walk may go deep. -/
theorem walkOrder_spec [DecidableEq α] (skip : α → Bool) (succ : α → List α) {fuel : Nat}
    {roots U : List α} (hroots : ∀ a ∈ roots, a ∈ U) (hU : ∀ a, ∀ b ∈ succ a, b ∈ U)
    (hfuel : U.length < fuel) :
    WalkOrder skip succ roots [] (walkOrder skip succ fuel roots) := by
  have hok := foldlM_ok (fun s a => (graphWalk skip succ).go fuel a s)
    (fun _ => True) roots (by
      intro s a ha _
      have hlen : ((graphWalk skip succ).unseen U s).length < fuel :=
        Nat.lt_of_le_of_lt (List.length_filter_le _ _) hfuel
      obtain ⟨s', hs', _⟩ :=
        go_ok (graphWalk_progress skip succ hU) fuel (hroots a ha) trivial hlen
      exact ⟨s', hs', trivial⟩) [] trivial
  obtain ⟨seen, h, _⟩ := hok
  obtain ⟨vs, hr⟩ := run_of_foldlM (graphWalk skip succ) fuel roots h
  have hseen : seen = (vs.map Visit.node).reverse ++ [] := hr.seen (graphWalk_marks skip succ)
  have hord : walkOrder skip succ fuel roots = vs.map Visit.node := by
    simp only [walkOrder, h, hseen, List.append_nil, List.reverse_reverse]
  rw [hord]
  refine hr.order (graphWalk_marks skip succ) fun v hv => ?_
  have hvis := (hr.of_mem hv).2.2
  exact congrArg Prod.snd (Except.ok.inj hvis)

end VisitedWalk
