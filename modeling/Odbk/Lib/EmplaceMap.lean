import Mathlib.Data.List.Nodup

/-!
# First-wins finite maps

A finite map with the insertion of `std::unordered_map::emplace`: an entry that
is already there keeps its value. Proved here:

* `find?_emplace_self`, `find?_emplace_ne`: what one insertion does;
* `find?_emplaceAll`: inserting a list of entries one by one is one flat
  first-wins merge, the map first and the list after it;
* `isEmpty_emplaceAll`, `size_lt_emplaceAll_iff`: insertion only grows, and it grows
  exactly by keys that have no entry;
* `emplaceAll_filter_iff`: when entries can be left out of a list of insertions.

Keys are unique by construction (`EmplaceMap.nodup`).
-/

/-- A finite map as a list of entries with pairwise different keys. -/
structure EmplaceMap (κ α : Type) where
  entries : List (κ × α)
  nodup : (entries.map Prod.fst).Nodup

namespace EmplaceMap

variable {κ α : Type}

def empty : EmplaceMap κ α := ⟨[], List.nodup_nil⟩

def isEmpty (m : EmplaceMap κ α) : Bool := m.entries.isEmpty

def size (m : EmplaceMap κ α) : Nat := m.entries.length

@[simp] theorem isEmpty_empty : (empty : EmplaceMap κ α).isEmpty = true := rfl

theorem eq_empty_of_isEmpty (m : EmplaceMap κ α) (h : m.isEmpty = true) : m = empty := by
  cases m with
  | mk entries nodup =>
    cases entries with
    | nil => rfl
    | cons e l => simp [isEmpty] at h

variable [DecidableEq κ]

def find? (m : EmplaceMap κ α) (k : κ) : Option α := m.entries.lookup k

def contains (m : EmplaceMap κ α) (k : κ) : Bool := (m.find? k).isSome

theorem lookup_cons_ne {k k' : κ} (v : α) (l : List (κ × α)) (h : k' ≠ k) :
    ((k, v) :: l).lookup k' = l.lookup k' := by
  have hb : (k' == k) = false := by simp [h]
  simp [List.lookup_cons, hb]

theorem lookup_eq_none_iff_not_mem (l : List (κ × α)) (k : κ) :
    l.lookup k = none ↔ k ∉ l.map Prod.fst := by
  induction l with
  | nil => simp
  | cons e l ih =>
    obtain ⟨k', v⟩ := e
    by_cases h : k = k'
    · subst h
      simp
    · rw [lookup_cons_ne v l h, ih, List.map_cons, List.mem_cons, not_or]
      exact ⟨fun hl => ⟨h, hl⟩, fun hl => hl.2⟩

theorem find?_eq_none_iff (m : EmplaceMap κ α) (k : κ) :
    m.find? k = none ↔ k ∉ m.entries.map Prod.fst :=
  lookup_eq_none_iff_not_mem m.entries k

/-- Insert `k ↦ v` unless `k` has an entry. -/
def emplace (m : EmplaceMap κ α) (k : κ) (v : α) : EmplaceMap κ α :=
  if h : m.find? k = none then
    ⟨(k, v) :: m.entries, List.nodup_cons.mpr ⟨(m.find?_eq_none_iff k).mp h, m.nodup⟩⟩
  else m

/-- Insert a list of entries from left to right. -/
def emplaceAll (m : EmplaceMap κ α) (l : List (κ × α)) : EmplaceMap κ α :=
  l.foldl (fun m e => m.emplace e.1 e.2) m

/-! ## One insertion -/

@[simp] theorem find?_empty (k : κ) : (empty : EmplaceMap κ α).find? k = none := rfl

@[simp] theorem contains_empty (k : κ) : (empty : EmplaceMap κ α).contains k = false := rfl

theorem emplace_of_find?_some (m : EmplaceMap κ α) {k : κ} {v w : α}
    (h : m.find? k = some w) : m.emplace k v = m := by
  simp [emplace, h]

theorem entries_emplace_of_none (m : EmplaceMap κ α) {k : κ} (v : α)
    (h : m.find? k = none) : (m.emplace k v).entries = (k, v) :: m.entries := by
  simp [emplace, h]

theorem find?_emplace_self (m : EmplaceMap κ α) (k : κ) (v : α) :
    (m.emplace k v).find? k = (m.find? k).or (some v) := by
  cases h : m.find? k with
  | none =>
    rw [find?, entries_emplace_of_none m v h, List.lookup_cons_self, Option.none_or]
  | some w => rw [emplace_of_find?_some m h, h, Option.some_or]

theorem find?_emplace_ne (m : EmplaceMap κ α) {k k' : κ} (v : α) (hk : k' ≠ k) :
    (m.emplace k v).find? k' = m.find? k' := by
  cases h : m.find? k with
  | none => rw [find?, entries_emplace_of_none m v h, lookup_cons_ne v _ hk, find?]
  | some w => rw [emplace_of_find?_some m h]

theorem isEmpty_eq_false_of_find? (m : EmplaceMap κ α) {k : κ} {v : α}
    (h : m.find? k = some v) : m.isEmpty = false := by
  cases m with
  | mk entries nodup =>
    cases entries with
    | nil => simp [find?] at h
    | cons e l => rfl

/-! ## A list of insertions -/

@[simp] theorem emplaceAll_nil (m : EmplaceMap κ α) : m.emplaceAll [] = m := rfl

theorem emplaceAll_cons (m : EmplaceMap κ α) (e : κ × α) (l : List (κ × α)) :
    m.emplaceAll (e :: l) = (m.emplace e.1 e.2).emplaceAll l := rfl

/-- **First-wins merge.** The map's own entry if it has one, else the first one
of the list. -/
theorem find?_emplaceAll (m : EmplaceMap κ α) (l : List (κ × α)) (k : κ) :
    (m.emplaceAll l).find? k = (m.find? k).or (l.lookup k) := by
  induction l generalizing m with
  | nil => simp
  | cons e l ih =>
    obtain ⟨k', v⟩ := e
    rw [emplaceAll_cons, ih]
    by_cases h : k = k'
    · subst h
      rw [find?_emplace_self, List.lookup_cons_self, Option.or_assoc, Option.some_or]
    · rw [find?_emplace_ne m v h, lookup_cons_ne v l h]

theorem isEmpty_emplaceAll (m : EmplaceMap κ α) (l : List (κ × α)) :
    (m.emplaceAll l).isEmpty = (m.isEmpty && l.isEmpty) := by
  cases l with
  | nil => simp
  | cons e l =>
    obtain ⟨k, v⟩ := e
    have hf : (m.emplaceAll ((k, v) :: l)).find? k = some ((m.find? k).getD v) := by
      rw [find?_emplaceAll, List.lookup_cons_self]
      cases m.find? k <;> rfl
    simp [isEmpty_eq_false_of_find? _ hf]

/-! ## Growth -/

theorem size_emplace_of_none (m : EmplaceMap κ α) {k : κ} (v : α) (h : m.find? k = none) :
    (m.emplace k v).size = m.size + 1 := by
  rw [size, entries_emplace_of_none m v h, List.length_cons, size]

theorem size_le_emplace (m : EmplaceMap κ α) (k : κ) (v : α) :
    m.size ≤ (m.emplace k v).size := by
  cases h : m.find? k with
  | none =>
    rw [size_emplace_of_none m v h]
    omega
  | some w => exact Nat.le_of_eq (by rw [emplace_of_find?_some m h])

theorem size_le_emplaceAll (m : EmplaceMap κ α) (l : List (κ × α)) :
    m.size ≤ (m.emplaceAll l).size := by
  induction l generalizing m with
  | nil => exact Nat.le_refl _
  | cons e l ih => exact Nat.le_trans (size_le_emplace m e.1 e.2) (ih (m.emplace e.1 e.2))

theorem emplaceAll_of_contained (m : EmplaceMap κ α) (l : List (κ × α))
    (h : ∀ e ∈ l, m.find? e.1 ≠ none) : m.emplaceAll l = m := by
  induction l with
  | nil => rfl
  | cons e l ih =>
    obtain ⟨w, hw⟩ := Option.ne_none_iff_exists'.mp (h e List.mem_cons_self)
    rw [emplaceAll_cons, emplace_of_find?_some m hw]
    exact ih fun c hc => h c (List.mem_cons_of_mem _ hc)

/-- The keys after a list of insertions. -/
theorem find?_emplaceAll_ne_none_iff (m : EmplaceMap κ α) (l : List (κ × α)) (k : κ) :
    (m.emplaceAll l).find? k ≠ none ↔ m.find? k ≠ none ∨ ∃ e ∈ l, e.1 = k := by
  rw [find?_emplaceAll, ne_eq, Option.or_eq_none_iff, not_and_or, lookup_eq_none_iff_not_mem,
    not_not, List.mem_map]

theorem find?_emplaceAll_ne_none (m : EmplaceMap κ α) {l : List (κ × α)} {e : κ × α}
    (he : e ∈ l) : (m.emplaceAll l).find? e.1 ≠ none :=
  (m.find?_emplaceAll_ne_none_iff l e.1).mpr (Or.inr ⟨e, he, rfl⟩)

/-- Entries emplaced a second time change nothing. -/
theorem emplaceAll_emplaceAll (m : EmplaceMap κ α) (l : List (κ × α)) :
    (m.emplaceAll l).emplaceAll l = m.emplaceAll l :=
  emplaceAll_of_contained _ l fun _ he => m.find?_emplaceAll_ne_none he

/-- A map with more keys is no smaller. -/
theorem size_le_of_find? {m m' : EmplaceMap κ α}
    (h : ∀ k, m.find? k ≠ none → m'.find? k ≠ none) : m.size ≤ m'.size := by
  have hsub : m.entries.map Prod.fst ⊆ m'.entries.map Prod.fst := by
    intro k hk
    by_contra hk'
    refine h k (fun hn => ?_) ((find?_eq_none_iff m' k).mpr hk')
    exact (find?_eq_none_iff m k).mp hn hk
  have hle := m.nodup.length_le_of_subset hsub
  rwa [List.length_map, List.length_map] at hle

/-- **Growth.** -/
theorem size_lt_emplaceAll_iff (m : EmplaceMap κ α) (l : List (κ × α)) :
    m.size < (m.emplaceAll l).size ↔ ∃ e ∈ l, m.find? e.1 = none := by
  constructor
  · intro h
    by_contra hall
    have hm : m.emplaceAll l = m :=
      m.emplaceAll_of_contained l fun e he hn => hall ⟨e, he, hn⟩
    rw [hm] at h
    omega
  · rintro ⟨e, he, hn⟩
    induction l generalizing m with
    | nil => cases he
    | cons c l ih =>
      rw [emplaceAll_cons]
      cases hc : m.find? c.1 with
      | none =>
        have h₁ := size_emplace_of_none m c.2 hc
        have h₂ := size_le_emplaceAll (m.emplace c.1 c.2) l
        omega
      | some w =>
        rw [emplace_of_find?_some m hc]
        rcases List.mem_cons.mp he with rfl | he
        · rw [hn] at hc
          cases hc
        · exact ih m he hn

theorem size_emplaceAll_of_new (m : EmplaceMap κ α) (l : List (κ × α))
    (hl : (l.map Prod.fst).Nodup) (h : ∀ e ∈ l, m.find? e.1 = none) :
    (m.emplaceAll l).size = m.size + l.length := by
  induction l generalizing m with
  | nil => rfl
  | cons e l ih =>
    obtain ⟨hnot, hnodup⟩ := List.nodup_cons.mp hl
    have hrest : ∀ c ∈ l, (m.emplace e.1 e.2).find? c.1 = none := by
      intro c hc
      have hne : c.1 ≠ e.1 := fun heq => hnot (heq ▸ List.mem_map_of_mem hc)
      rw [find?_emplace_ne m e.2 hne, h c (List.mem_cons_of_mem _ hc)]
    rw [emplaceAll_cons, ih _ hnodup hrest,
      size_emplace_of_none m e.2 (h e List.mem_cons_self), List.length_cons]
    omega

theorem emplaceAll_eq_self_iff (m : EmplaceMap κ α) (l : List (κ × α)) :
    m.emplaceAll l = m ↔ ∀ e ∈ l, m.find? e.1 ≠ none := by
  constructor
  · intro h e he hn
    have hlt := (size_lt_emplaceAll_iff m l).mpr ⟨e, he, hn⟩
    rw [h] at hlt
    omega
  · exact m.emplaceAll_of_contained l

/-- Insertions computed one by one. -/
theorem foldlM_emplace {β ι : Type} (f : ι → Option (κ × β)) (g : β → α) (l : List ι)
    (m : EmplaceMap κ α) :
    l.foldlM (fun m i => (f i).map fun e => m.emplace e.1 (g e.2)) m =
      (l.mapM f).map fun t => m.emplaceAll (t.map fun e => (e.1, g e.2)) := by
  induction l generalizing m with
  | nil => rfl
  | cons i l ih =>
    rw [List.foldlM_cons, List.mapM_cons]
    cases f i with
    | none => rfl
    | some e =>
      simp only [Option.map_some, Option.bind_eq_bind, Option.bind_some, ih]
      cases l.mapM f <;> rfl

/-! ## Insertions left out -/

/-- Lookups in a list with other names for the keys. -/
theorem lookup_map_key {κ' β : Type} [DecidableEq κ'] {f : κ → κ'} (hf : Function.Injective f)
    (g : β → α) (l : List (κ × β)) (k : κ) :
    (l.map fun e => (f e.1, g e.2)).lookup (f k) = (l.lookup k).map g := by
  induction l with
  | nil => rfl
  | cons e l ih =>
    obtain ⟨k', v⟩ := e
    by_cases h : k = k'
    · subst h
      simp
    · have hf' : f k ≠ f k' := fun he => h (hf he)
      rw [List.map_cons, lookup_cons_ne _ _ hf', lookup_cons_ne _ _ h, ih]

theorem lookup_map {β : Type} (g : β → α) (l : List (κ × β)) (k : κ) :
    (l.map fun e => (e.1, g e.2)).lookup k = (l.lookup k).map g :=
  lookup_map_key Function.injective_id g l k

theorem mem_of_lookup {l : List (κ × α)} {k : κ} {v : α} (h : l.lookup k = some v) :
    (k, v) ∈ l := by
  induction l with
  | nil => cases h
  | cons e l ih =>
    obtain ⟨k', v'⟩ := e
    by_cases hk : k = k'
    · subst hk
      rw [List.lookup_cons_self, Option.some.injEq] at h
      rw [h]
      exact List.mem_cons_self
    · rw [lookup_cons_ne _ _ hk] at h
      exact List.mem_cons_of_mem _ (ih h)

theorem emplaceAll_filter {β : Type} (g : β → α) (p : κ × β → Bool) (l : List (κ × β))
    (m : EmplaceMap κ α)
    (h : ∀ k v, l.lookup k = some v → m.find? k = none → p (k, v) = true) :
    m.emplaceAll ((l.filter p).map fun e => (e.1, g e.2)) =
      m.emplaceAll (l.map fun e => (e.1, g e.2)) := by
  induction l generalizing m with
  | nil => rfl
  | cons e l ih =>
    obtain ⟨k, v⟩ := e
    rw [List.map_cons, emplaceAll_cons]
    cases hp : p (k, v) with
    | true =>
      rw [List.filter_cons_of_pos hp, List.map_cons, emplaceAll_cons]
      refine ih _ fun k' v' hl hn => ?_
      have hne : k' ≠ k := by
        rintro rfl
        rw [find?_emplace_self, Option.or_eq_none_iff] at hn
        cases hn.2
      rw [find?_emplace_ne m _ hne] at hn
      exact h k' v' (by rw [lookup_cons_ne _ _ hne, hl]) hn
    | false =>
      -- an entry left out has its key already
      have hsome : m.find? k ≠ none := fun hn => by
        rw [h k v List.lookup_cons_self hn] at hp
        cases hp
      obtain ⟨w, hw⟩ := Option.ne_none_iff_exists'.mp hsome
      rw [List.filter_cons_of_neg (by simp [hp]), emplace_of_find?_some m hw]
      refine ih m fun k' v' hl hn => ?_
      have hne : k' ≠ k := by
        rintro rfl
        exact hsome hn
      exact h k' v' (by rw [lookup_cons_ne _ _ hne, hl]) hn

/-- **Entries left out** change nothing exactly when none of them is the first one of a
new key. -/
theorem emplaceAll_filter_iff {β : Type} {g : β → α} (hg : Function.Injective g)
    (p : κ × β → Bool) (l : List (κ × β)) (m : EmplaceMap κ α) :
    m.emplaceAll (l.map fun e => (e.1, g e.2)) =
        m.emplaceAll ((l.filter p).map fun e => (e.1, g e.2)) ↔
      ∀ pre k v post, l = pre ++ (k, v) :: post → (∀ e ∈ pre, e.1 ≠ k) → m.find? k = none →
        p (k, v) = true := by
  constructor
  · intro heq pre k v post hl hpre hn
    have hlookup : l.lookup k = some v :=
      List.lookup_eq_some_iff.mpr
        ⟨pre, post, hl, fun e he => bne_iff_ne.mpr (hpre e he).symm⟩
    have hfind := congrArg (fun M => M.find? k) heq
    simp only [find?_emplaceAll, lookup_map, hn, hlookup, Option.none_or, Option.map_some] at hfind
    obtain ⟨v', hv', hgv⟩ := Option.map_eq_some_iff.mp hfind.symm
    have hmem := mem_of_lookup hv'
    rw [hg hgv] at hmem
    exact (List.mem_filter.mp hmem).2
  · intro h
    refine (emplaceAll_filter g p l m fun k v hlookup hn => ?_).symm
    obtain ⟨pre, post, hl, hpre⟩ := List.lookup_eq_some_iff.mp hlookup
    exact h pre k v post hl (fun e he => (bne_iff_ne.mp (hpre e he)).symm) hn

end EmplaceMap
