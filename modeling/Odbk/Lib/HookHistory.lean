import Odbk.Lib.InlineHook

/-!
# Hooks over time

Patches, rebindings and enablings follow each other in any order. Proved here:

* `Extends`: a later registry keeps the detour of every hook and the code behind every
  trampoline of an earlier one; a preorder kept by `push`, `enableAll` and `patchAll`;
* `Backed`: every slot and every hooked target leads back to image code that its slot
  may have; kept by `patch`, `enable` and by rebinding slots to such code;
* `patchAll_idle`: a run of patches over idle slots changes nothing;
* `mem_targets_patchAll`, `detourOf_patchAll_cases`: what a run of patches hooks;
* `leadsTo_patchAll_alone`: a slot keeps leading to code that no other site may hook.
-/

namespace HookRegistry

variable {α δ : Type} [DecidableEq α]

/-- Nothing that the registry `r` tells is told otherwise by `r'`. -/
structure Extends (r r' : HookRegistry α δ) : Prop where
  detourOf : ∀ c d, r.detourOf c = some d → r'.detourOf c = some d
  origin : ∀ c a, r.origin c = some a → r'.origin c = some a

theorem Extends.refl (r : HookRegistry α δ) : Extends r r := ⟨fun _ _ h => h, fun _ _ h => h⟩

theorem Extends.trans {r r' r'' : HookRegistry α δ} (h : Extends r r') (h' : Extends r' r'') :
    Extends r r'' :=
  ⟨fun c d hd => h'.detourOf c d (h.detourOf c d hd),
    fun c a ha => h'.origin c a (h.origin c a ha)⟩

omit [DecidableEq α] in
/-- Only trampolines that were made have an origin. -/
theorem origin_lt {r : HookRegistry α δ} {k : Nat} {a : α}
    (h : r.origin (.trampoline k) = some a) : k < r.hooks.length := by
  have hl : ∀ l : List (Hook α δ), originIn l (.trampoline k) = some a → k < l.length := by
    intro l
    induction l with
    | nil =>
      intro h
      cases h
    | cons hook older ih =>
      intro h
      rw [List.length_cons]
      by_cases hk : k = older.length
      · omega
      · rw [originIn, if_neg hk] at h
        exact Nat.lt_succ_of_lt (ih h)
  exact hl r.hooks h

theorem extends_push (r : HookRegistry α δ) (t : Code α) (d : δ) (h : t ∉ r.targets) :
    Extends r (r.push t d h) where
  detourOf c d' hd := by
    have hne : t ≠ c := by
      rintro rfl
      exact h (mem_targets_of_detourOf hd)
    rw [detourOf_push, if_neg hne, hd]
  origin c a ha := by
    have hc : c ≠ .trampoline r.hooks.length := by
      rintro rfl
      exact absurd (origin_lt ha) (Nat.lt_irrefl _)
    rw [origin_push_old r t d h hc, ha]

theorem extends_enableAll (r : HookRegistry α δ) : Extends r r.enableAll where
  detourOf c d hd := by rw [detourOf_enableAll, hd]
  origin c a ha := by rw [origin_enableAll, ha]

omit [DecidableEq α] in
/-- Enabling twice is enabling once. -/
@[simp] theorem enableAll_enableAll (r : HookRegistry α δ) :
    r.enableAll.enableAll = r.enableAll := by
  simp [enableAll]

end HookRegistry

namespace Patched

open HookRegistry

variable {ι α δ : Type} [DecidableEq ι] [DecidableEq α]

theorem extends_patch (s : Patched ι α δ) (f : ι) (d : δ) :
    Extends s.registry (s.patch f d).registry := by
  rcases s.patch_cases f d with ⟨_, e⟩ | ⟨t, ht, _, e⟩
  · rw [e]
    exact Extends.refl _
  · rw [e]
    exact extends_push s.registry t d ht

theorem extends_patchAll (s : Patched ι α δ) (sites : List (ι × δ)) :
    Extends s.registry (s.patchAll sites).registry :=
  patchAll_induction (P := fun s' => Extends s.registry s'.registry) sites
    (fun s' e _ h => h.trans (extends_patch s' e.1 e.2)) s (Extends.refl _)

/-! ## Where code comes from -/

/-- Every slot leads back to code that it may have (`src`), and so does every hooked
target for the slot of its detour. -/
structure Backed (src : ι → α → Prop) (owner : δ → ι) (s : Patched ι α δ) : Prop where
  slot : ∀ f c, s.ptr f = some c → ∃ a, s.registry.origin c = some a ∧ src f a
  hooked : ∀ c d, s.registry.detourOf c = some d →
    ∃ a, s.registry.origin c = some a ∧ src (owner d) a

variable {src : ι → α → Prop} {owner : δ → ι}

/-- **A patch** hands the code of its slot to the new trampoline. -/
theorem backed_patch {s : Patched ι α δ} (hs : Backed src owner s) {f : ι} {d : δ}
    (hd : owner d = f) : Backed src owner (s.patch f d) := by
  have hext := s.extends_patch f d
  rcases s.patch_cases f d with ⟨_, e⟩ | ⟨t, ht, hp, e⟩
  · rw [e]
    exact hs
  rw [e] at hext ⊢
  obtain ⟨a, ho, ha⟩ := hs.slot f t hp
  refine ⟨fun g c hc => ?_, fun c d' hc => ?_⟩
  · by_cases hg : g = f
    · subst hg
      have hnew : c = .trampoline s.registry.hooks.length := by simpa using hc.symm
      rw [hnew]
      exact ⟨a, (origin_push_new s.registry t d ht).trans ho, ha⟩
    · obtain ⟨b, hob, hb⟩ := hs.slot g c (by simpa [hg] using hc)
      exact ⟨b, hext.origin c b hob, hb⟩
  · rw [detourOf_push] at hc
    by_cases htc : t = c
    · subst htc
      have hdd : d = d' := by simpa using hc
      rw [← hdd, hd]
      exact ⟨a, hext.origin t a ho, ha⟩
    · rw [if_neg htc] at hc
      obtain ⟨b, hob, hb⟩ := hs.hooked c d' hc
      exact ⟨b, hext.origin c b hob, hb⟩

theorem backed_patchAll {s : Patched ι α δ} (hs : Backed src owner s) {sites : List (ι × δ)}
    (ho : ∀ e ∈ sites, owner e.2 = e.1) : Backed src owner (s.patchAll sites) :=
  patchAll_induction (P := Backed src owner) sites (fun _ e he h => backed_patch h (ho e he)) s hs

omit [DecidableEq ι] in
theorem backed_enable {s : Patched ι α δ} (hs : Backed src owner s) :
    Backed src owner s.enable where
  slot f c hc := by
    obtain ⟨a, ho, ha⟩ := hs.slot f c hc
    exact ⟨a, by rw [enable, origin_enableAll, ho], ha⟩
  hooked c d hd := by
    rw [enable, detourOf_enableAll] at hd
    obtain ⟨a, ho, ha⟩ := hs.hooked c d hd
    exact ⟨a, by rw [enable, origin_enableAll, ho], ha⟩

omit [DecidableEq ι] in
/-- Slots may be rebound to null and to image code they may have. -/
theorem backed_rebind {s : Patched ι α δ} (hs : Backed src owner s)
    {ptr' : ι → Option (Code α)}
    (hp : ∀ f c, ptr' f = some c → s.ptr f = some c ∨ ∃ a, c = .image a ∧ src f a) :
    Backed src owner { s with ptr := ptr' } where
  slot f c hc := by
    rcases hp f c hc with h | ⟨a, rfl, ha⟩
    · exact hs.slot f c h
    · exact ⟨a, originIn_image _ a, ha⟩
  hooked := hs.hooked

/-! ## Runs that change nothing -/

/-- A run of patches leaves a state whose slots are all idle. -/
theorem patchAll_idle {s : Patched ι α δ} {sites : List (ι × δ)} (h : ∀ e ∈ sites, s.Idle e.1) :
    s.patchAll sites = s := by
  induction sites with
  | nil => rfl
  | cons e sites ih =>
    have hsame : s.patch e.1 e.2 = s := by
      rcases s.patch_cases e.1 e.2 with ⟨_, he⟩ | ⟨t, ht, hp, _⟩
      · exact he
      · exact absurd (h e List.mem_cons_self t hp) ht
    rw [patchAll_cons, hsame]
    exact ih fun e' he' => h e' (List.mem_cons_of_mem _ he')

/-- The image address that a slot of a run of patches holds is hooked by the run, unless
it was before. -/
theorem mem_targets_patchAll {s : Patched ι α δ} {sites : List (ι × δ)} {e : ι × δ}
    (he : e ∈ sites) {a : α} (hp : s.ptr e.1 = some (.image a)) :
    .image a ∈ (s.patchAll sites).registry.targets := by
  have hsite : (s.siteAt sites a).isSome = true := by
    rw [siteAt, List.find?_isSome]
    exact ⟨e, he, decide_eq_true hp⟩
  rw [← detourOf_isSome_iff, detourOf_patchAll, Option.isSome_or, Option.isSome_map, hsite,
    Bool.or_true]

/-- A hook after a run of patches was there before, or is over a slot that is set. -/
theorem detourOf_patchAll_cases {s : Patched ι α δ} {sites : List (ι × δ)}
    (ho : ∀ e ∈ sites, owner e.2 = e.1) {c : Code α} {d : δ}
    (h : (s.patchAll sites).registry.detourOf c = some d) :
    s.registry.detourOf c = some d ∨ (s.ptr (owner d)).isSome = true := by
  induction sites generalizing s with
  | nil => exact Or.inl h
  | cons e sites ih =>
    have hown := ho e List.mem_cons_self
    rcases ih (fun e' he' => ho e' (List.mem_cons_of_mem _ he')) h with hd | hset
    · rcases detourOf_patch_cases hd with hd | ⟨rfl, hp, _⟩
      · exact Or.inl hd
      · right
        rw [hown, hp, Option.isSome_some]
    · right
      rwa [ptr_isSome_patch] at hset

/-- A patch of a slot that does not hold the code another one leads to. -/
theorem leadsTo_patch_alone {s : Patched ι α δ} (hs : Sound owner s) {f g : ι} {d : δ} {a : α}
    (hl : s.leadsTo f = some a) (halone : s.ptr g = some (.image a) → g = f) :
    (s.patch g d).leadsTo f = some a := by
  by_cases hf : f = g
  · rw [← hf, leadsTo_patch_self hs, hl]
  cases hc : s.ptr f with
  | none => simp [leadsTo, hc] at hl
  | some c =>
    cases c with
    | trampoline k => rw [leadsTo_patch_of_trampoline hs g d hc, hl]
    | image b =>
      rw [leadsTo, hc, Option.bind_some, leads] at hl
      split at hl
      · cases hl
      case isFalse hb =>
        have hba : b = a := by simpa [origin] using hl
        subst hba
        have hother : s.ptr g ≠ some (.image b) := fun h => hf (halone h).symm
        obtain ⟨hdet, _⟩ := detourOf_patch_other (e := (g, d)) hother
        have hfree : .image b ∉ (s.patch g d).registry.targets := by
          rw [← detourOf_isSome_iff, hdet, detourOf_isSome_iff]
          exact hb
        rw [leadsTo, ptr_patch_ne d s hf, hc, Option.bind_some, leads, if_neg hfree]
        exact originIn_image _ b

/-- **A slot that is alone** with the address of unhooked code keeps leading to it, whether
or not it is a slot that the patches hook. -/
theorem leadsTo_patchAll_alone {s : Patched ι α δ} (hs : Sound owner s) {sites : List (ι × δ)}
    (ho : ∀ e ∈ sites, owner e.2 = e.1) {f : ι} {a : α} (hp : s.ptr f = some (.image a))
    (hn : .image a ∉ s.registry.targets)
    (halone : ∀ e ∈ sites, s.ptr e.1 = some (.image a) → e.1 = f) :
    (s.patchAll sites).leadsTo f = some a := by
  have hlead : s.leadsTo f = some a := by simp [leadsTo, hp, leads, hn, origin]
  refine (patchAll_induction (P := fun t => Sound owner t ∧ t.leadsTo f = some a ∧
    ∀ e ∈ sites, t.ptr e.1 = some (.image a) → e.1 = f) sites (fun t e he h => ?_) s
    ⟨hs, hlead, halone⟩).2.1
  obtain ⟨ht, hl, halone⟩ := h
  refine ⟨sound_patch ht (ho e he), leadsTo_patch_alone ht hl (halone e he), ?_⟩
  intro e' he' hptr
  rcases t.ptr_patch_cases e.1 e.2 e'.1 with hsame | ⟨k, hk⟩
  · exact halone e' he' (hsame ▸ hptr)
  · rw [hk] at hptr
    cases hptr

end Patched
