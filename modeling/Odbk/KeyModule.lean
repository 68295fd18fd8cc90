import Odbk.ScanRuns

/-!
# The key module of a scan

The addresses of a scan are merged first-wins by name, while `key_module` is the last
module that added one, or the first if the later ones are the application. Proved here:

* `ScanRun.firstContributor`: the first module that adds symbols, found in the import
  graph;
* `one_vm_iff`: after a scan with no symbols every address is from the key module exactly
  when the walk comes to one copy of the wanted functions only;
* `two_copies_mixed`: a scan that mixes two.
-/

namespace Odbk

open VisitedWalk

/-- The first module of the walk that has a wanted symbol. -/
def firstContributor (W : World) (core : OdbkCore) (restricts : List String) : Option Handle :=
  (importOrder W core none).find? fun h => !(contributions W restricts h).isEmpty

/-- The module below which nothing is walked once its symbols are the ones found. -/
def cutAt (W : World) (restricts : List String) (m : Handle) : Option Handle :=
  if 166 ≤ (EmplaceMap.empty.emplaceAll (contributions W restricts m)).size then some m else none

/-- One copy: the first module of the walk that has wanted symbols can become the key
module, and no other module met has a wanted name that it lacks. -/
def OneCopy (W : World) (core : OdbkCore) (ctx : OdbkLuaContext) : Prop :=
  ∀ m, firstContributor W core ctx.restricts = some m →
    (m = core.appModule → ctx.keyModule = nullptr ∨ ctx.keyModule = m) ∧
      ∀ h ∈ importOrder W core (cutAt W ctx.restricts m),
        ∀ e ∈ contributions W ctx.restricts h,
          e.1 ∈ (contributions W ctx.restricts m).map Prod.fst

/-- The visit of module `h` contributed the entry. -/
def ContributedBy (vs : List (Visit Handle Scan)) (h : Handle) (name : String) (address : Addr) :
    Prop :=
  ∃ v ∈ vs, v.node = h ∧ v.before.process.ctx.symbols.find? name = none ∧
    v.after.process.ctx.symbols.find? name = some address

/-- Either there are no symbols and no key module, or every address was contributed by
the key module. -/
def OneVm (vs : List (Visit Handle Scan)) (s : Scan) : Prop :=
  (s.process.ctx.symbols.isEmpty = true ∧ s.process.ctx.keyModule = nullptr) ∨
    ∀ name address, s.process.ctx.symbols.find? name = some address →
      ContributedBy vs s.process.ctx.keyModule name address

theorem find?_emplaceAll_of_some {m : Symbols} {name : String} {address : Addr}
    (l : List (String × Addr)) (h : m.find? name = some address) :
    (m.emplaceAll l).find? name = some address := by
  rw [EmplaceMap.find?_emplaceAll, h, Option.some_or]

/-- A name found in a list of insertions into the empty map is a name of the list. -/
theorem find?_empty_emplaceAll (l : List (String × Addr)) (name : String) :
    (EmplaceMap.empty.emplaceAll l).find? name = none ↔ name ∉ l.map Prod.fst := by
  rw [EmplaceMap.find?_emplaceAll, EmplaceMap.find?_empty, Option.none_or,
    EmplaceMap.lookup_eq_none_iff_not_mem]

section Runs

variable {W : World} {core : OdbkCore} {p : Process} {vs : List (Visit Handle Scan)} {s : Scan}

/-- A visit finds something new exactly when it has a name with no entry. -/
theorem ScanRun.grows_iff (h : ScanRun W core p vs s) {v : Visit Handle Scan} (hv : v ∈ vs) :
    v.before.process.ctx.symbols.size < v.after.process.ctx.symbols.size ↔
      ∃ e ∈ contributions W p.ctx.restricts v.node,
        v.before.process.ctx.symbols.find? e.1 = none := by
  rw [h.symbols hv, EmplaceMap.size_lt_emplaceAll_iff]

/-- A visit that finds nothing new leaves the symbols and the key module. -/
theorem ScanRun.unchanged (h : ScanRun W core p vs s) {v : Visit Handle Scan} (hv : v ∈ vs)
    (hnew : ∀ e ∈ contributions W p.ctx.restricts v.node,
      v.before.process.ctx.symbols.find? e.1 ≠ none) :
    v.after.process.ctx.symbols = v.before.process.ctx.symbols ∧
      v.after.process.ctx.keyModule = v.before.process.ctx.keyModule ∧
      v.next = resolvedImports W v.node := by
  have hsize : ¬v.before.process.ctx.symbols.size < v.after.process.ctx.symbols.size := by
    rw [h.grows_iff hv]
    rintro ⟨e, he, hn⟩
    exact hnew e he hn
  refine ⟨?_, ?_, ?_⟩
  · rw [h.symbols hv, EmplaceMap.emplaceAll_of_contained _ _ hnew]
  · rw [(h.visit_spec hv).keyModule, if_neg fun hc => hsize hc.1]
  · rw [(h.visit_spec hv).next, if_neg fun hc => hsize hc.1]

/-- Entries stay. -/
theorem ScanRun.find?_chain (h : ScanRun W core p vs s) {us : List (Visit Handle Scan)}
    {t t' : Scan} (hc : Chain t us t') (hus : ∀ u ∈ us, u ∈ vs) {name : String} {address : Addr}
    (hf : t.process.ctx.symbols.find? name = some address) :
    t'.process.ctx.symbols.find? name = some address := by
  refine hc.induction (P := fun t => t.process.ctx.symbols.find? name = some address) ?_ hf
  intro u hu hb
  rw [h.symbols (hus u hu)]
  exact find?_emplaceAll_of_some _ hb

/-- Visits with nothing to contribute leave an empty map, and the key module. -/
theorem ScanRun.empty_chain (h : ScanRun W core p vs s) {us : List (Visit Handle Scan)}
    {t t' : Scan} (hc : Chain t us t')
    (hus : ∀ u ∈ us, u ∈ vs ∧ contributions W p.ctx.restricts u.node = []) :
    t'.process.ctx.symbols = t.process.ctx.symbols ∧
      t'.process.ctx.keyModule = t.process.ctx.keyModule := by
  refine hc.induction (P := fun r => r.process.ctx.symbols = t.process.ctx.symbols ∧
    r.process.ctx.keyModule = t.process.ctx.keyModule) ?_ ⟨rfl, rfl⟩
  intro u hu hb
  obtain ⟨hmem, hnil⟩ := hus u hu
  obtain ⟨hsym, hkey, _⟩ := h.unchanged hmem (by simp [hnil])
  exact ⟨hsym.trans hb.1, hkey.trans hb.2⟩

/-- **The first contributor** of a scan, found in the import graph. -/
theorem ScanRun.firstContributor (h : ScanRun W core p vs s) :
    (∀ v ∈ vs, contributions W p.ctx.restricts v.node = []) ∧
        Odbk.firstContributor W core p.ctx.restricts = none ∨
      ∃ pre v post, vs = pre ++ v :: post ∧ contributions W p.ctx.restricts v.node ≠ [] ∧
        (∀ u ∈ pre, contributions W p.ctx.restricts u.node = []) ∧
        Odbk.firstContributor W core p.ctx.restricts = some v.node := by
  have hnext : ∀ v ∈ vs, contributions W p.ctx.restricts v.node = [] →
      importsBelow W none v.node = v.next := by
    intro v hv hnil
    rw [(h.unchanged hv (by simp [hnil])).2.2]
    rfl
  cases hfind : vs.find? fun v => !(contributions W p.ctx.restricts v.node).isEmpty with
  | none =>
    have hno : ∀ v ∈ vs, contributions W p.ctx.restricts v.node = [] := by simpa using hfind
    refine Or.inl ⟨hno, ?_⟩
    rw [Odbk.firstContributor, h.order fun v hv => hnext v hv (hno v hv)]
    simpa using hno
  | some v =>
    obtain ⟨hv, pre, post, hvs, hpre⟩ := List.find?_eq_some_iff_append.mp hfind
    have hno : ∀ u ∈ pre, contributions W p.ctx.restricts u.node = [] := fun u hu => by
      simpa using hpre u hu
    obtain ⟨post', ho⟩ := h.agree hvs fun u hu => hnext u (by simp [hvs, hu]) (hno u hu)
    refine Or.inr ⟨pre, v, post, hvs, by simpa using hv, hno, ?_⟩
    have hnone : (pre.map Visit.node).find?
        (fun h => !(contributions W p.ctx.restricts h).isEmpty) = none := by
      simpa using hno
    rw [Odbk.firstContributor, ho, List.find?_append, hnone, Option.none_or]
    exact List.find?_cons_of_pos hv

/-! ## After the first contributor -/

/-- What a scan of an empty map has at and after its first contributor `v`. -/
structure FirstCopy (W : World) (core : OdbkCore) (p : Process) (vs : List (Visit Handle Scan))
    (s : Scan) (pre : List (Visit Handle Scan)) (v : Visit Handle Scan)
    (post : List (Visit Handle Scan)) : Prop where
  run : ScanRun W core p vs s
  split : vs = pre ++ v :: post
  none_before : ∀ u ∈ pre, contributions W p.ctx.restricts u.node = []
  contributes : contributions W p.ctx.restricts v.node ≠ []
  before : v.before.process.ctx.symbols = .empty
  key_before : v.before.process.ctx.keyModule = p.ctx.keyModule

namespace FirstCopy

variable {pre post : List (Visit Handle Scan)} {v : Visit Handle Scan}

theorem mem (h : FirstCopy W core p vs s pre v post) : v ∈ vs := by simp [h.split]

theorem mem_post (h : FirstCopy W core p vs s pre v post) {u : Visit Handle Scan}
    (hu : u ∈ post) : u ∈ vs := by simp [h.split, hu]

theorem after (h : FirstCopy W core p vs s pre v post) :
    v.after.process.ctx.symbols =
      EmplaceMap.empty.emplaceAll (contributions W p.ctx.restricts v.node) := by
  rw [h.run.symbols h.mem, h.before]

theorem chain_post (h : FirstCopy W core p vs s pre v post) : Chain v.after post s := by
  have hc := Run.chain h.run
  rw [h.split] at hc
  exact hc.split.2

/-- An entry that the first contributor did not add has a name it lacks. -/
theorem after_none_iff (h : FirstCopy W core p vs s pre v post) (name : String) :
    v.after.process.ctx.symbols.find? name = none ↔
      name ∉ (contributions W p.ctx.restricts v.node).map Prod.fst := by
  rw [h.after, find?_empty_emplaceAll]

theorem grows (h : FirstCopy W core p vs s pre v post) :
    v.before.process.ctx.symbols.size < v.after.process.ctx.symbols.size := by
  rw [h.run.grows_iff h.mem]
  obtain ⟨e, he⟩ := List.exists_mem_of_ne_nil _ h.contributes
  exact ⟨e, he, by rw [h.before, EmplaceMap.find?_empty]⟩

theorem key_after (h : FirstCopy W core p vs s pre v post) :
    v.after.process.ctx.keyModule =
      if p.ctx.keyModule = nullptr ∨ v.node ≠ core.appModule then v.node
      else p.ctx.keyModule := by
  rw [(h.run.visit_spec h.mem).keyModule, h.key_before]
  by_cases hk : p.ctx.keyModule = nullptr ∨ v.node ≠ core.appModule
  · rw [if_pos ⟨h.grows, hk⟩, if_pos hk]
  · rw [if_neg fun hc => hk hc.2, if_neg hk]

theorem earlyReturn_iff (h : FirstCopy W core p vs s pre v post) :
    EarlyReturn v ↔ cutAt W p.ctx.restricts v.node = some v.node := by
  rw [EarlyReturn, h.after, cutAt]
  constructor
  · exact fun he => if_pos he.2
  · intro hc
    split at hc
    case isTrue hsize => exact ⟨h.after ▸ h.grows, hsize⟩
    case isFalse => cases hc

/-- Visits after the first contributor that all lack new names leave everything. -/
theorem unchanged_post (h : FirstCopy W core p vs s pre v post) {us : List (Visit Handle Scan)}
    {t : Scan} (hc : Chain v.after us t)
    (hus : ∀ u ∈ us, u ∈ vs ∧ ∀ e ∈ contributions W p.ctx.restricts u.node,
      e.1 ∈ (contributions W p.ctx.restricts v.node).map Prod.fst) :
    t.process.ctx.symbols = v.after.process.ctx.symbols ∧
      t.process.ctx.keyModule = v.after.process.ctx.keyModule := by
  refine hc.induction (P := fun r => r.process.ctx.symbols = v.after.process.ctx.symbols ∧
    r.process.ctx.keyModule = v.after.process.ctx.keyModule) ?_ ⟨rfl, rfl⟩
  intro u hu hb
  obtain ⟨hmem, hnames⟩ := hus u hu
  obtain ⟨hsym, hkey, _⟩ := h.run.unchanged hmem fun e he hn => by
    rw [hb.1, h.after_none_iff] at hn
    exact hn (hnames e he)
  exact ⟨hsym.trans hb.1, hkey.trans hb.2⟩

/-- The visits agree with the graph cut at the first contributor until a name is new. -/
theorem next_eq (h : FirstCopy W core p vs s pre v post) {us ws : List (Visit Handle Scan)}
    (hpost : post = us ++ ws)
    (hus : ∀ u ∈ us, ∀ e ∈ contributions W p.ctx.restricts u.node,
      e.1 ∈ (contributions W p.ctx.restricts v.node).map Prod.fst) :
    ∀ u ∈ pre ++ v :: us,
      importsBelow W (cutAt W p.ctx.restricts v.node) u.node = u.next := by
  have hvs : vs = (pre ++ v :: us) ++ ws := by simp [h.split, hpost]
  -- nothing is cut but `v`
  have hcut : ∀ u ∈ vs, u ≠ v →
      importsBelow W (cutAt W p.ctx.restricts v.node) u.node = resolvedImports W u.node := by
    intro u hu hne
    refine if_neg fun hc => hne (h.run.eq_of_node hu h.mem ?_)
    unfold cutAt at hc
    split at hc
    · exact (Option.some.inj hc).symm
    · cases hc
  intro u hu
  have hmem : u ∈ vs := by
    rw [hvs]
    exact List.mem_append_left _ hu
  by_cases huv : u = v
  · subst huv
    rw [(h.run.visit_spec hmem).next]
    by_cases he : EarlyReturn u
    · rw [if_pos he]
      exact if_pos (h.earlyReturn_iff.mp he)
    · rw [if_neg he]
      exact if_neg fun hc => he (h.earlyReturn_iff.mpr hc)
  · rw [hcut u hmem huv]
    rcases List.mem_append.mp hu with hpre | hrest
    · exact (h.run.unchanged hmem (by simp [h.none_before u hpre])).2.2.symm
    · have hus' : u ∈ us := (List.mem_cons.mp hrest).resolve_left huv
      obtain ⟨us₁, us₂, rfl⟩ := List.append_of_mem hus'
      have hc := h.chain_post
      rw [hpost, List.append_assoc, List.cons_append] at hc
      obtain ⟨hsym, _⟩ := h.unchanged_post hc.split.1 fun w hw =>
        ⟨h.mem_post (by simp [hpost, hw]), hus w (by simp [hw])⟩
      refine (h.run.unchanged hmem fun e he hn => ?_).2.2.symm
      rw [hsym, h.after_none_iff] at hn
      exact hn (hus u hus' e he)

/-- What a visit added is one of its contributions. -/
theorem mem_of_added (h : FirstCopy W core p vs s pre v post) {u : Visit Handle Scan}
    (hu : u ∈ vs) {name : String} {address : Addr}
    (hb : u.before.process.ctx.symbols.find? name = none)
    (ha : u.after.process.ctx.symbols.find? name = some address) :
    name ∈ (contributions W p.ctx.restricts u.node).map Prod.fst := by
  rw [h.run.symbols hu, EmplaceMap.find?_emplaceAll, hb, Option.none_or] at ha
  by_contra hno
  rw [(EmplaceMap.lookup_eq_none_iff_not_mem _ _).mpr hno] at ha
  cases ha

/-- Every name contributed is found in the end. -/
theorem find?_of_contribution (h : FirstCopy W core p vs s pre v post)
    {u : Visit Handle Scan} (hu : u ∈ vs) {e : String × Addr}
    (he : e ∈ contributions W p.ctx.restricts u.node) :
    ∃ address, u.after.process.ctx.symbols.find? e.1 = some address ∧
      s.process.ctx.symbols.find? e.1 = some address := by
  have hne : u.after.process.ctx.symbols.find? e.1 ≠ none := by
    rw [h.run.symbols hu, EmplaceMap.find?_emplaceAll]
    intro hn
    rw [Option.or_eq_none_iff, EmplaceMap.lookup_eq_none_iff_not_mem] at hn
    exact hn.2 (List.mem_map_of_mem he)
  obtain ⟨address, ha⟩ := Option.ne_none_iff_exists'.mp hne
  obtain ⟨us, ws, hvs⟩ := List.append_of_mem hu
  have hc := Run.chain h.run
  rw [hvs] at hc
  exact ⟨address, ha, h.run.find?_chain hc.split.2 (fun w hw => by simp [hvs, hw]) ha⟩

/-- Names of the first contributor are contributed by it alone. -/
theorem contributedBy_self (h : FirstCopy W core p vs s pre v post) {m : Handle}
    {name : String} {address : Addr}
    (hname : name ∈ (contributions W p.ctx.restricts v.node).map Prod.fst)
    (hc : ContributedBy vs m name address) : v.node = m := by
  obtain ⟨u, hu, rfl, hb, ha⟩ := hc
  have hadded := h.mem_of_added hu hb ha
  have hsplit := h.split ▸ hu
  rcases List.mem_append.mp hsplit with hpre | hrest
  · rw [h.none_before u hpre] at hadded
    cases hadded
  · rcases List.mem_cons.mp hrest with rfl | hpost
    · rfl
    · exfalso
      obtain ⟨us, ws, hpost'⟩ := List.append_of_mem hpost
      have hchain := h.chain_post
      rw [hpost'] at hchain
      have hne : v.after.process.ctx.symbols.find? name ≠ none := by
        rw [Ne, h.after_none_iff]
        exact not_not_intro hname
      obtain ⟨a, hf⟩ := Option.ne_none_iff_exists'.mp hne
      rw [h.run.find?_chain hchain.split.1
        (fun w hw => h.mem_post (by simp [hpost', hw])) hf] at hb
      cases hb

/-- The first contributor becomes the key module unless the application is kept from it. -/
theorem key_after_iff (h : FirstCopy W core p vs s pre v post) :
    v.after.process.ctx.keyModule = v.node ↔
      (v.node = core.appModule → p.ctx.keyModule = nullptr ∨ p.ctx.keyModule = v.node) := by
  rw [h.key_after]
  constructor
  · intro hkey happ
    by_cases hnull : p.ctx.keyModule = nullptr
    · exact Or.inl hnull
    · rw [if_neg fun hc => hc.elim hnull fun hne => hne happ] at hkey
      exact Or.inr hkey
  · intro happ
    split
    case isTrue => rfl
    case isFalse hno =>
      rw [not_or, not_not] at hno
      exact (happ hno.2).resolve_left hno.1

/-- A scan that found symbols of one module only found them in its key module, the first
contributor. -/
theorem contributedBy_of_oneVm (h : FirstCopy W core p vs s pre v post) (hone : OneVm vs s) :
    s.process.ctx.keyModule = v.node ∧
      ∀ name address, s.process.ctx.symbols.find? name = some address →
        ContributedBy vs v.node name address := by
  obtain ⟨e, he⟩ := List.exists_mem_of_ne_nil _ h.contributes
  obtain ⟨a, _, hfinal⟩ := h.find?_of_contribution h.mem he
  have hall : ∀ name address, s.process.ctx.symbols.find? name = some address →
      ContributedBy vs s.process.ctx.keyModule name address := by
    refine hone.resolve_left fun hempty => ?_
    rw [EmplaceMap.isEmpty_eq_false_of_find? _ hfinal] at hempty
    cases hempty.1
  have hkey : v.node = s.process.ctx.keyModule :=
    h.contributedBy_self (List.mem_map_of_mem he) (hall _ _ hfinal)
  exact ⟨hkey.symm, hkey ▸ hall⟩

/-- **One VM**, in terms of the visits after the first contributor. -/
theorem oneVm_iff (h : FirstCopy W core p vs s pre v post) :
    OneVm vs s ↔
      (v.node = core.appModule → p.ctx.keyModule = nullptr ∨ p.ctx.keyModule = v.node) ∧
        ∀ u ∈ post, ∀ e ∈ contributions W p.ctx.restricts u.node,
          e.1 ∈ (contributions W p.ctx.restricts v.node).map Prod.fst := by
  rw [← h.key_after_iff]
  constructor
  · intro hone
    obtain ⟨hkey, hall⟩ := h.contributedBy_of_oneVm hone
    have hnames : ∀ u ∈ post, ∀ e ∈ contributions W p.ctx.restricts u.node,
        e.1 ∈ (contributions W p.ctx.restricts v.node).map Prod.fst := by
      intro u hu e he
      obtain ⟨a, _, hf⟩ := h.find?_of_contribution (h.mem_post hu) he
      obtain ⟨w, hw, hnode, hb, ha⟩ := hall _ _ hf
      have hwv : w = v := h.run.eq_of_node hw h.mem hnode
      subst hwv
      exact h.mem_of_added hw hb ha
    have hsame := (h.unchanged_post h.chain_post fun u hu => ⟨h.mem_post hu, hnames u hu⟩).2
    exact ⟨hsame.symm.trans hkey, hnames⟩
  · rintro ⟨hv, hnames⟩
    obtain ⟨hsym, hkey⟩ :=
      h.unchanged_post h.chain_post fun u hu => ⟨h.mem_post hu, hnames u hu⟩
    refine Or.inr fun name address hf => ⟨v, h.mem, ?_, ?_, ?_⟩
    · rw [hkey, hv]
    · rw [h.before, EmplaceMap.find?_empty]
    · rwa [hsym] at hf

/-- The same condition on the graph cut at the first contributor. -/
theorem names_iff (h : FirstCopy W core p vs s pre v post) :
    (∀ u ∈ post, ∀ e ∈ contributions W p.ctx.restricts u.node,
        e.1 ∈ (contributions W p.ctx.restricts v.node).map Prod.fst) ↔
      ∀ a ∈ importOrder W core (cutAt W p.ctx.restricts v.node),
        ∀ e ∈ contributions W p.ctx.restricts a,
          e.1 ∈ (contributions W p.ctx.restricts v.node).map Prod.fst := by
  constructor
  · intro hnames
    have horder : importOrder W core (cutAt W p.ctx.restricts v.node) = vs.map Visit.node :=
      h.run.order fun u hu => h.next_eq (List.append_nil post).symm hnames u (h.split ▸ hu)
    rw [horder, h.split]
    intro a ha e he
    obtain ⟨u, hu, rfl⟩ := List.mem_map.mp ha
    rcases List.mem_append.mp hu with hpre | hrest
    · rw [h.none_before u hpre] at he
      cases he
    · rcases List.mem_cons.mp hrest with rfl | hpost
      · exact List.mem_map_of_mem he
      · exact hnames u hpost e he
  · intro hall
    cases hfind : post.find? fun u : Visit Handle Scan =>
        decide (¬∀ e ∈ contributions W p.ctx.restricts u.node,
          e.1 ∈ (contributions W p.ctx.restricts v.node).map Prod.fst) with
    | none => simpa using hfind
    | some u =>
      -- up to the first visit with a new name the run and the graph agree
      exfalso
      obtain ⟨hu, us, ws, hpost, hus⟩ := List.find?_eq_some_iff_append.mp hfind
      have hnew := of_decide_eq_true hu
      have hvs : vs = (pre ++ v :: us) ++ u :: ws := by simp [h.split, hpost]
      obtain ⟨post', ho⟩ := h.run.agree hvs (h.next_eq hpost (by simpa using hus))
      have hmem : u.node ∈ importOrder W core (cutAt W p.ctx.restricts v.node) := by
        rw [ho]
        simp
      exact hnew (hall u.node hmem)

end FirstCopy

/-- **One VM**, in terms of the import graph. -/
theorem ScanRun.oneVm_iff (h : ScanRun W core p vs s) (hp : p.ctx.symbols = .empty) :
    OneVm vs s ↔ OneCopy W core p.ctx := by
  rcases h.firstContributor with ⟨hno, hnone⟩ | ⟨pre, v, post, hvs, hne, hpre, hfirst⟩
  · have hempty := (h.empty_chain (Run.chain h) fun u hu => ⟨hu, hno u hu⟩).1
    constructor
    · intro _ m hm
      rw [hnone] at hm
      cases hm
    · refine fun _ => Or.inr fun name address hf => ?_
      have hinit : (Scan.init p).process.ctx.symbols = .empty := hp
      rw [hempty, hinit, EmplaceMap.find?_empty] at hf
      cases hf
  · have hc := Run.chain h
    rw [hvs] at hc
    obtain ⟨hsym, hkey⟩ := h.empty_chain hc.split.1 fun u hu => ⟨by simp [hvs, hu], hpre u hu⟩
    have hcopy : FirstCopy W core p vs s pre v post :=
      ⟨h, hvs, hpre, hne, hsym.trans hp, hkey⟩
    rw [hcopy.oneVm_iff, hcopy.names_iff]
    constructor
    · intro hboth m hm
      rw [hfirst] at hm
      cases hm
      exact hboth
    · exact fun hone => hone v.node hfirst

end Runs

/-! ## Two copies of Lua -/

/-- Two modules with Lua, the second one with a function that the first lacks. -/
def twoCopies : World :=
  { World.snapshotOf [1, 2] with
    symLoadModule64 := fun h _ => h
    symGetModuleInfo64 := fun _ _ => some ⟨.symOther, "lua.pdb"⟩
    luaSymbols := fun h _ =>
      if h = 1 then [some ⟨some "lua_close", 4096⟩]
      else [some ⟨some "lua_close", 8192⟩, some ⟨some "luaL_newstate", 8256⟩] }

/-- A process that asks for both functions. -/
def twoCopiesProcess : Process :=
  { Process.fresh fun _ => true with
    ctx := { OdbkLuaContext.new with restricts := ["lua_close", "luaL_newstate"] } }

theorem not_oneCopy_twoCopies : ¬OneCopy twoCopies ⟨7, 3⟩ twoCopiesProcess.ctx := by
  intro h
  have hfirst : firstContributor twoCopies ⟨7, 3⟩ twoCopiesProcess.ctx.restricts = some 1 := by
    decide +kernel
  have hmem : 2 ∈ importOrder twoCopies ⟨7, 3⟩
      (cutAt twoCopies twoCopiesProcess.ctx.restricts 1) := by
    decide +kernel
  have hnew := (h 1 hfirst).2 2 hmem ("luaL_newstate", 8256) (by decide +kernel)
  revert hnew
  decide +kernel

/-- **One VM.** After a scan of an empty map the symbols are those of the key module
exactly when the walk comes to one copy of them. -/
theorem one_vm_iff (W : World) (core : OdbkCore) {p : Process} {s : Scan}
    (hp : p.ctx.symbols = .empty) (h : loadSymFromAppModules W core p = .ok s) :
    (∀ vs, ScanRun W core p vs s → OneVm vs s) ↔ OneCopy W core p.ctx := by
  obtain ⟨vs, hrun⟩ := scanRun_of_ok h
  constructor
  · exact fun hone => (hrun.oneVm_iff hp).mp (hone vs hrun)
  · exact fun hcopy us hus => (hus.oneVm_iff hp).mpr hcopy

theorem one_vm_twoCopies :
    ∃ s, loadSymFromAppModules twoCopies ⟨7, 3⟩ twoCopiesProcess = .ok s ∧
      ((∀ vs, ScanRun twoCopies ⟨7, 3⟩ twoCopiesProcess vs s → OneVm vs s) ↔
        OneCopy twoCopies ⟨7, 3⟩ twoCopiesProcess.ctx) := by
  obtain ⟨s, hs⟩ := loadSymFromAppModules_ok twoCopies ⟨7, 3⟩ (p := twoCopiesProcess) fun _ => rfl
  exact ⟨s, hs, one_vm_iff twoCopies ⟨7, 3⟩ rfl hs⟩

/-- The addresses of two copies are mixed. -/
theorem two_copies_mixed :
    ∃ s, loadSymFromAppModules twoCopies ⟨7, 3⟩ twoCopiesProcess = .ok s ∧
      ¬∀ vs, ScanRun twoCopies ⟨7, 3⟩ twoCopiesProcess vs s → OneVm vs s := by
  obtain ⟨s, hs⟩ := loadSymFromAppModules_ok twoCopies ⟨7, 3⟩ (p := twoCopiesProcess) fun _ => rfl
  obtain ⟨vs, h⟩ := scanRun_of_ok hs
  exact ⟨s, hs, fun hall => not_oneCopy_twoCopies ((h.oneVm_iff rfl).mp (hall vs h))⟩

end Odbk
