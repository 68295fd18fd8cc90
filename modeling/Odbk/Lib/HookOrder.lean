import Odbk.Lib.InlineHook

/-!
# The order of hooks

Slots are patched in the order of a list, and a hook is kept by the first slot that holds
its address. Proved here:

* `ordered_patchAll`, `ordered_rebind`: a slot that holds a hooked address comes later in the
  list than the slot that the hook was made for;
* `standsIn_patchAll`, `standsIn_rebind`: a slot used where another one is null does not hold
  an address hooked for that one.
-/

namespace Patched

open HookRegistry

variable {ι α δ : Type} [DecidableEq ι] [DecidableEq α] {owner : δ → ι}

theorem idxOf_lt_idxOf {seen rest : List ι} {f g : ι} (hg : g ∉ seen) (hne : g ≠ f) :
    (seen ++ f :: rest).idxOf f < (seen ++ f :: rest).idxOf g := by
  have hlater : (seen ++ f :: rest).idxOf g = seen.length + (rest.idxOf g + 1) := by
    rw [List.idxOf_append_of_notMem hg, List.idxOf_cons_ne _ (Ne.symm hne)]
  have hfirst : (seen ++ f :: rest).idxOf f ≤ seen.length := by
    by_cases hf : f ∈ seen
    · rw [List.idxOf_append_of_mem hf]
      exact List.idxOf_le_length
    · simp [List.idxOf_append_of_notMem hf]
  omega

/-! ## Hooked addresses in slots -/

/-- A slot that holds a hooked address comes after the slot that the hook was made for. -/
def Ordered (names : List ι) (owner : δ → ι) (s : Patched ι α δ) : Prop :=
  ∀ f c d, s.ptr f = some c → s.registry.detourOf c = some d →
    names.idxOf (owner d) < names.idxOf f

/-- The image addresses in the slots have hooks. -/
def Passed (seen : List ι) (s : Patched ι α δ) : Prop :=
  ∀ f ∈ seen, ∀ a, s.ptr f = some (.image a) → .image a ∈ s.registry.targets

omit [DecidableEq ι] in
/-- Only image addresses in slots are hooked. -/
theorem Sound.image_of_hooked {s : Patched ι α δ} (hs : Sound owner s) {f : ι} {c : Code α}
    {d : δ} (hp : s.ptr f = some c) (hd : s.registry.detourOf c = some d) : ∃ a, c = .image a := by
  cases c with
  | image a => exact ⟨a, rfl⟩
  | trampoline k => exact absurd (mem_targets_of_detourOf hd) (hs.live f k hp)

theorem ptr_of_patch_image {s : Patched ι α δ} {f g : ι} {d : δ} {a : α}
    (h : (s.patch f d).ptr g = some (.image a)) : s.ptr g = some (.image a) := by
  rcases s.ptr_patch_cases f d g with hsame | ⟨k, hk⟩
  · rw [← hsame, h]
  · rw [hk] at h
    cases h

theorem passed_patch {s : Patched ι α δ} {seen : List ι} (h : Passed seen s) (f : ι) (d : δ) :
    Passed (seen ++ [f]) (s.patch f d) := by
  intro g hg a hp
  have hold := ptr_of_patch_image hp
  rcases List.mem_append.mp hg with hg | hg
  · obtain ⟨d', hd'⟩ := Option.isSome_iff_exists.mp
      ((detourOf_isSome_iff s.registry (.image a)).mpr (h g hg a hold))
    exact mem_targets_of_detourOf (detourOf_patch_mono f d hd')
  · rw [List.mem_singleton.mp hg] at hold
    exact mem_targets_patch s f d hold

/-- **Step lemma.** A new hook is that of the first slot which holds its address. -/
theorem ordered_patch {names seen : List ι} {s : Patched ι α δ} (hs : Sound owner s)
    (h : Ordered names owner s) (hpassed : Passed seen s) {f : ι} {d : δ} (hd : owner d = f)
    (hnext : ∀ g, g ∉ seen → g ≠ f → names.idxOf f < names.idxOf g) :
    Ordered names owner (s.patch f d) := by
  intro g c d' hg hc
  obtain ⟨a, rfl⟩ := (sound_patch hs hd).image_of_hooked hg hc
  have hold := ptr_of_patch_image hg
  rcases detourOf_patch_cases hc with hc' | ⟨rfl, _, k, hk⟩
  · exact h g _ d' hold hc'
  · by_cases ht : .image a ∈ s.registry.targets
    · -- the hook was there before
      obtain ⟨d₀, hd₀⟩ := Option.isSome_iff_exists.mp ((detourOf_isSome_iff _ _).mpr ht)
      have hkept := detourOf_patch_mono f d' hd₀
      rw [hc, Option.some.injEq] at hkept
      rw [hkept]
      exact h g _ d₀ hold hd₀
    · have hgf : g ≠ f := by
        rintro rfl
        rw [hk] at hg
        cases hg
      rw [hd]
      exact hnext g (fun hg => ht (hpassed g hg a hold)) hgf

/-- **Run lemma.** Patches in the order of the list keep it. -/
theorem ordered_patchAll {names : List ι} {s : Patched ι α δ} (hs : Sound owner s)
    (h : Ordered names owner s) {sites : List (ι × δ)} (ho : ∀ e ∈ sites, owner e.2 = e.1)
    (hn : sites.map Prod.fst <+: names) : Ordered names owner (s.patchAll sites) := by
  have key : ∀ (sites : List (ι × δ)) (seen : List ι) (s : Patched ι α δ), Sound owner s →
      Ordered names owner s → Passed seen s → (∀ e ∈ sites, owner e.2 = e.1) →
      seen ++ sites.map Prod.fst <+: names → Ordered names owner (s.patchAll sites) := by
    intro sites
    induction sites with
    | nil => exact fun _ _ _ h _ _ _ => h
    | cons e sites ih =>
      intro seen s hs h hpassed ho hn
      have hown := ho e List.mem_cons_self
      rw [patchAll_cons]
      refine ih (seen ++ [e.1]) _ (sound_patch hs hown) ?_ (passed_patch hpassed e.1 e.2)
        (fun e' he' => ho e' (List.mem_cons_of_mem _ he')) ?_
      · refine ordered_patch hs h hpassed hown fun g hg hne => ?_
        obtain ⟨rest, rfl⟩ := hn
        rw [List.map_cons, List.append_assoc, List.cons_append]
        exact idxOf_lt_idxOf hg hne
      · rwa [List.append_assoc, List.singleton_append]
  exact key sites [] s hs h (fun _ hf => absurd hf List.not_mem_nil) ho hn

/-- Slots may be rebound to what has no hook. -/
theorem ordered_rebind {names : List ι} {s : Patched ι α δ}
    (h : Ordered names owner s) {ptr' : ι → Option (Code α)}
    (hp : ∀ f c, ptr' f = some c → s.ptr f = some c ∨ c ∉ s.registry.targets) :
    Ordered names owner { s with ptr := ptr' } := by
  intro f c d hf hd
  rcases hp f c hf with hold | hfree
  · exact h f c d hold hd
  · exact absurd (mem_targets_of_detourOf hd) hfree

theorem ordered_enable {names : List ι} {s : Patched ι α δ} (h : Ordered names owner s) :
    Ordered names owner s.enable := by
  intro f c d hf hd
  rw [enable, detourOf_enableAll] at hd
  exact h f c d hf hd

/-! ## Slots used for null ones -/

/-- Slot `y` is used where slot `x` is null: it holds no address that was hooked for `x`. -/
def StandsIn (x y : ι) (owner : δ → ι) (s : Patched ι α δ) : Prop :=
  s.ptr x = none → ∀ c d, s.ptr y = some c → s.registry.detourOf c = some d → owner d ≠ x

theorem standsIn_patch {x y : ι} {s : Patched ι α δ} (hs : Sound owner s)
    (h : StandsIn x y owner s) {f : ι} {d : δ} (hd : owner d = f) :
    StandsIn x y owner (s.patch f d) := by
  intro hx c d' hy hc
  have hxs : s.ptr x = none := by
    rw [← Option.not_isSome_iff_eq_none, ← s.ptr_isSome_patch f d x, hx]
    exact Bool.false_ne_true
  obtain ⟨a, rfl⟩ := (sound_patch hs hd).image_of_hooked hy hc
  rcases detourOf_patch_cases hc with hc' | ⟨rfl, hp, _⟩
  · exact h hxs _ d' (ptr_of_patch_image hy) hc'
  · rintro rfl
    rw [← hd, hxs] at hp
    cases hp

theorem standsIn_patchAll {x y : ι} {s : Patched ι α δ} (hs : Sound owner s)
    (h : StandsIn x y owner s) {sites : List (ι × δ)} (ho : ∀ e ∈ sites, owner e.2 = e.1) :
    StandsIn x y owner (s.patchAll sites) :=
  (patchAll_induction (P := fun t => Sound owner t ∧ StandsIn x y owner t) sites
    (fun _ e he h => ⟨sound_patch h.1 (ho e he), standsIn_patch h.1 h.2 (ho e he)⟩) s ⟨hs, h⟩).2

omit [DecidableEq ι] in
/-- Slots may be rebound to what has no hook, `y` wherever `x` is. -/
theorem standsIn_rebind {x y : ι} {s : Patched ι α δ} (h : StandsIn x y owner s)
    {ptr' : ι → Option (Code α)} (hx : ptr' x = none →
      (s.ptr x = none ∧ ptr' y = s.ptr y) ∨ ∀ c, ptr' y = some c → c ∉ s.registry.targets) :
    StandsIn x y owner { s with ptr := ptr' } := by
  intro hnull c d hy hd
  rcases hx hnull with ⟨hxs, hsame⟩ | hfree
  · exact h hxs c d (hsame ▸ hy) hd
  · exact absurd (mem_targets_of_detourOf hd) (hfree c hy)

omit [DecidableEq ι] in
theorem standsIn_enable {x y : ι} {s : Patched ι α δ} (h : StandsIn x y owner s) :
    StandsIn x y owner s.enable := by
  intro hx c d hy hd
  rw [enable, detourOf_enableAll] at hd
  exact h hx c d hy hd

end Patched
