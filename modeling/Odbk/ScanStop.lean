import Odbk.ScanRuns

/-!
# The early stop of the module scan

A visit that finds new functions and leaves at least 166 symbols logs that all other
modules are skipped and returns, but the return leaves one call of the recursion only.
Proved here:

* `ScanRun.splitFull`: the first such visit of a scan, found in the import graph;
* `early_stop_iff`: nothing is loaded after such a visit exactly when the walk up to it
  met every module there is to walk;
* `second_module_loaded`: a scan that goes on.
-/

namespace Odbk

open VisitedWalk

/-- A visit of the module finds something new and leaves the map full. -/
def Fills (W : World) (restricts : List String) (symbols : Symbols) (h : Handle) : Prop :=
  symbols.size < (symbols.emplaceAll (contributions W restricts h)).size ∧
    166 ≤ (symbols.emplaceAll (contributions W restricts h)).size

instance (W : World) (restricts : List String) (symbols : Symbols) (h : Handle) :
    Decidable (Fills W restricts symbols h) :=
  inferInstanceAs (Decidable (_ ∧ _))

/-- The first module of a list that fills the map, after the ones before it. -/
def splitFull (W : World) (restricts : List String) :
    Symbols → List Handle → Option (List Handle × Handle)
  | _, [] => none
  | symbols, h :: l =>
    if Fills W restricts symbols h then some ([], h)
    else
      (splitFull W restricts (symbols.emplaceAll (contributions W restricts h)) l).map
        fun r => (h :: r.1, r.2)

theorem splitFull_append {W : World} {restricts : List String} {pre l : List Handle} {h : Handle}
    {symbols : Symbols}
    (hpre : ∀ l₁ a l₂, pre = l₁ ++ a :: l₂ →
      ¬Fills W restricts (symbolsAfter W restricts symbols l₁) a)
    (hh : Fills W restricts (symbolsAfter W restricts symbols pre) h) :
    splitFull W restricts symbols (pre ++ h :: l) = some (pre, h) := by
  induction pre generalizing symbols with
  | nil => exact if_pos hh
  | cons a pre ih =>
    have ha : ¬Fills W restricts symbols a := hpre [] a pre rfl
    have hi := ih (fun l₁ b l₂ he => hpre (a :: l₁) b l₂ (by rw [he, List.cons_append])) hh
    rw [List.cons_append, splitFull, if_neg ha, hi]
    rfl

theorem splitFull_none {W : World} {restricts : List String} {l : List Handle}
    {symbols : Symbols}
    (hl : ∀ l₁ a l₂, l = l₁ ++ a :: l₂ →
      ¬Fills W restricts (symbolsAfter W restricts symbols l₁) a) :
    splitFull W restricts symbols l = none := by
  induction l generalizing symbols with
  | nil => rfl
  | cons a l ih =>
    have ha : ¬Fills W restricts symbols a := hl [] a l rfl
    have hi : splitFull W restricts (symbols.emplaceAll (contributions W restricts a)) l = none :=
      ih fun l₁ b l₂ he => hl (a :: l₁) b l₂ (by rw [he, List.cons_append])
    rw [splitFull, if_neg ha, hi]
    rfl

section Runs

variable {W : World} {core : OdbkCore} {p : Process} {vs : List (Visit Handle Scan)} {s : Scan}

theorem ScanRun.earlyReturn_iff (h : ScanRun W core p vs s) {pre post : List (Visit Handle Scan)}
    {v : Visit Handle Scan} (hvs : vs = pre ++ v :: post) :
    EarlyReturn v ↔ Fills W p.ctx.restricts
      (symbolsAfter W p.ctx.restricts p.ctx.symbols (pre.map Visit.node)) v.node := by
  have hv : v ∈ vs := by simp [hvs]
  rw [EarlyReturn, h.symbols hv, h.symbols_before hvs, Fills]

/-- **The first early return** of a scan, found in the import graph. -/
theorem ScanRun.splitFull (h : ScanRun W core p vs s) :
    (∀ v ∈ vs, ¬EarlyReturn v) ∧
        Odbk.splitFull W p.ctx.restricts p.ctx.symbols (importOrder W core none) = none ∨
      ∃ pre v post, vs = pre ++ v :: post ∧ EarlyReturn v ∧ (∀ u ∈ pre, ¬EarlyReturn u) ∧
        Odbk.splitFull W p.ctx.restricts p.ctx.symbols (importOrder W core none) =
          some (pre.map Visit.node, v.node) := by
  have hnext : ∀ v ∈ vs, ¬EarlyReturn v → importsBelow W none v.node = v.next := by
    intro v hv hearly
    rw [(h.visit_spec hv).next, if_neg hearly]
    rfl
  -- visits of a list without early return fill nothing
  have hfills : ∀ pre rest, vs = pre ++ rest → (∀ u ∈ pre, ¬EarlyReturn u) →
      ∀ l₁ a l₂, pre.map Visit.node = l₁ ++ a :: l₂ →
        ¬Fills W p.ctx.restricts (symbolsAfter W p.ctx.restricts p.ctx.symbols l₁) a := by
    intro pre rest hvs hpre l₁ a l₂ hsplit
    obtain ⟨us, ws, rfl, rfl, hws⟩ := List.map_eq_append_iff.mp hsplit
    obtain ⟨u, us', rfl, rfl, rfl⟩ := List.map_eq_cons_iff.mp hws
    rw [← h.earlyReturn_iff (by rw [hvs, List.append_assoc, List.cons_append])]
    exact hpre u (by simp)
  cases hfind : vs.find? fun v => decide (EarlyReturn v) with
  | none =>
    have hno : ∀ v ∈ vs, ¬EarlyReturn v := by simpa using hfind
    refine Or.inl ⟨hno, ?_⟩
    rw [h.order fun v hv => hnext v hv (hno v hv)]
    exact splitFull_none (hfills vs [] (by simp) hno)
  | some v =>
    obtain ⟨hv, pre, post, hvs, hpre⟩ := List.find?_eq_some_iff_append.mp hfind
    have hearly : EarlyReturn v := of_decide_eq_true hv
    have hno : ∀ u ∈ pre, ¬EarlyReturn u := fun u hu => by simpa using hpre u hu
    obtain ⟨post', ho⟩ := h.agree hvs fun u hu => hnext u (by simp [hvs, hu]) (hno u hu)
    refine Or.inr ⟨pre, v, post, hvs, hearly, hno, ?_⟩
    rw [ho]
    exact splitFull_append (hfills pre (v :: post) hvs hno) ((h.earlyReturn_iff hvs).mp hearly)

/-- Every visit makes a call. -/
theorem ScanRun.calls_after (h : ScanRun W core p vs s) {pre post : List (Visit Handle Scan)}
    {v : Visit Handle Scan} (hvs : vs = pre ++ v :: post) :
    s.calls = v.after.calls ↔ post = [] := by
  subst hvs
  have hchain := (Chain.split (Run.chain h)).2
  constructor
  · intro hcalls
    have hstarted := h.started_chain hchain fun u hu => by simp [hu]
    rw [hcalls, List.self_eq_append_right] at hstarted
    exact List.map_eq_nil_iff.mp hstarted
  · rintro rfl
    cases hchain
    rfl

/-- A visit is the last one when the modules up to it are all that are visited. -/
theorem ScanRun.last_of_subset (h : ScanRun W core p vs s) {pre post : List (Visit Handle Scan)}
    {v : Visit Handle Scan} (hvs : vs = pre ++ v :: post)
    (hall : ∀ u ∈ vs, u.node ∈ pre.map Visit.node ++ [v.node]) : post = [] := by
  subst hvs
  cases post with
  | nil => rfl
  | cons w post =>
    exfalso
    have hw := hall w (by simp)
    have hnodup := h.nodup
    rw [List.map_append, List.map_cons, List.map_cons] at hnodup
    simp only [List.mem_append, List.mem_singleton] at hw
    rcases hw with hw | hw
    · exact (List.disjoint_of_nodup_append hnodup) hw (by simp)
    · have htail := List.Nodup.of_append_right hnodup
      simp [hw] at htail

/-- An early return ends the run exactly when all that is left was met before. -/
theorem ScanRun.last_iff (h : ScanRun W core p vs s) {pre post : List (Visit Handle Scan)}
    {v : Visit Handle Scan} (hvs : vs = pre ++ v :: post) (hv : EarlyReturn v)
    (hpre : ∀ u ∈ pre, ¬EarlyReturn u) :
    post = [] ↔ ∀ a, (a ∈ W.roots core ∨ ∃ b ∈ pre.map Visit.node, a ∈ resolvedImports W b) →
      a = core.appInst ∨ a ∈ pre.map Visit.node ++ [v.node] := by
  subst hvs
  have hnext : ∀ u ∈ pre, u.next = resolvedImports W u.node := fun u hu => by
    rw [(h.visit_spec (by simp [hu])).next, if_neg (hpre u hu)]
  constructor
  · rintro rfl a ha
    have hcov : a = core.appInst ∨ a ∈ (pre ++ [v]).map Visit.node := by
      refine h.covers (ha.imp id ?_)
      rintro ⟨b, hb, hab⟩
      obtain ⟨u, hu, rfl⟩ := List.mem_map.mp hb
      exact ⟨u, by simp [hu], hnext u hu ▸ hab⟩
    rwa [List.map_append] at hcov
  · intro hall
    -- the modules up to `v` and `app_inst_` are closed under what the visits returned
    have hwithin := Run.within
      (D := fun a => a = core.appInst ∨ a ∈ pre.map Visit.node ++ [v.node]) h
      (fun a ha => hall a (Or.inl ha)) (by
        intro u hu hd b hb
        have hmem := hd.resolve_left (h.ne_appInst hu)
        rcases List.mem_append.mp hmem with hmem | hmem
        · obtain ⟨w, hw, heq⟩ := List.mem_map.mp hmem
          have huw : w = u := h.eq_of_node (by simp [hw]) hu heq
          subst huw
          rw [hnext w hw] at hb
          exact hall b (Or.inr ⟨w.node, hmem, hb⟩)
        · have huv : u = v := h.eq_of_node hu (by simp) (List.mem_singleton.mp hmem)
          rw [huv, (h.visit_spec (by simp)).next, if_pos hv] at hb
          cases hb)
    exact h.last_of_subset rfl fun u hu => (hwithin u hu).resolve_left (h.ne_appInst hu)

end Runs

/-- Where the walk of the import graph first fills the map, it has come to every module
there is: the ones it starts from and the loaded imports of those before. -/
def NothingLeft (W : World) (core : OdbkCore) (ctx : OdbkLuaContext) : Prop :=
  ∀ pre h, splitFull W ctx.restricts ctx.symbols (importOrder W core none) = some (pre, h) →
    ∀ a, (a ∈ W.roots core ∨ ∃ b ∈ pre, a ∈ resolvedImports W b) →
      a = core.appInst ∨ a ∈ pre ++ [h]

/-- No symbol loading call follows a visit that found new functions and left the map
full. -/
def StopsWhenFull (vs : List (Visit Handle Scan)) (s : Scan) : Prop :=
  ∀ v ∈ vs, EarlyReturn v → s.calls = v.after.calls

theorem ScanRun.stopsWhenFull_iff {W : World} {core : OdbkCore} {p : Process}
    {vs : List (Visit Handle Scan)} {s : Scan} (h : ScanRun W core p vs s) :
    StopsWhenFull vs s ↔ NothingLeft W core p.ctx := by
  rcases h.splitFull with ⟨hno, hnone⟩ | ⟨pre, v, post, hvs, hearly, hpre, hsome⟩
  · constructor
    · intro _ pre m hm
      rw [hnone] at hm
      cases hm
    · exact fun _ v hv he => absurd he (hno v hv)
  · have hiff : NothingLeft W core p.ctx ↔ post = [] := by
      rw [h.last_iff hvs hearly hpre]
      constructor
      · exact fun hn => hn _ _ hsome
      · intro hall pre' m hm
        rw [hsome] at hm
        cases hm
        exact hall
    rw [hiff]
    constructor
    · exact fun hstop => (h.calls_after hvs).mp (hstop v (by simp [hvs]) hearly)
    · rintro rfl u hu he
      -- the only visit that leaves early is the last one
      rw [hvs] at hu
      rcases List.mem_append.mp hu with hu | hu
      · exact absurd he (hpre u hu)
      · rw [List.mem_singleton.mp hu]
        exact (h.calls_after hvs).mpr rfl

/-! ## A full module and another one -/

/-- As many names as the map has to hold to be full. -/
def fullNames : List String :=
  (List.range 166).map fun n => String.ofList ("lua_".toList ++ List.replicate n 'x')

/-- An application with Lua linked in (module 1), followed by another module. -/
def fullThenMore : World :=
  { World.snapshotOf [1, 2] with
    symLoadModule64 := fun h _ => h
    symGetModuleInfo64 := fun _ _ => some ⟨.symOther, "app.pdb"⟩
    luaSymbols := fun h _ => if h = 1 then fullNames.map fun n => some ⟨some n, 4096⟩ else [] }

/-- A process that asks for these names. -/
def fullProcess : Process :=
  { Process.fresh fun _ => true with ctx := { OdbkLuaContext.new with restricts := fullNames } }

theorem fullNames_nodup : fullNames.Nodup := by
  refine List.Nodup.map ?_ List.nodup_range
  intro m n hmn
  have hl := congrArg List.length (String.ofList_injective hmn)
  simpa using hl

theorem contributions_fullThenMore :
    contributions fullThenMore fullNames 1 = fullNames.map fun n => (n, 4096) := by
  have hs : symbolsOf fullThenMore 1 = fullNames.map fun n => some ⟨some n, 4096⟩ := rfl
  rw [contributions, hs, List.filterMap_map, ← List.filterMap_eq_map]
  refine List.filterMap_congr fun n hn => ?_
  simp [restricted, hn]

theorem fills_fullThenMore : Fills fullThenMore fullNames .empty 1 := by
  have hsize : (EmplaceMap.empty.emplaceAll (contributions fullThenMore fullNames 1)).size =
      166 := by
    rw [contributions_fullThenMore, EmplaceMap.size_emplaceAll_of_new]
    · simp [EmplaceMap.size, EmplaceMap.empty, fullNames]
    · rw [List.map_map]
      simpa [Function.comp_def] using fullNames_nodup
    · intro e _
      rfl
  rw [Fills, hsize]
  exact ⟨by decide, Nat.le_refl _⟩

/-! ## When the scan stops early -/

/-- **Early stop.** Nothing is loaded after the map was filled exactly when nothing is left. -/
theorem early_stop_iff (W : World) (core : OdbkCore) {p : Process} {s : Scan}
    (h : loadSymFromAppModules W core p = .ok s) :
    (∀ vs, ScanRun W core p vs s → StopsWhenFull vs s) ↔ NothingLeft W core p.ctx := by
  obtain ⟨vs, hrun⟩ := scanRun_of_ok h
  constructor
  · exact fun hstop => hrun.stopsWhenFull_iff.mp (hstop vs hrun)
  · exact fun hn us hus => hus.stopsWhenFull_iff.mpr hn

theorem early_stop_fullThenMore :
    ∃ s, loadSymFromAppModules fullThenMore ⟨7, 1⟩ fullProcess = .ok s ∧
      ((∀ vs, ScanRun fullThenMore ⟨7, 1⟩ fullProcess vs s → StopsWhenFull vs s) ↔
        NothingLeft fullThenMore ⟨7, 1⟩ fullProcess.ctx) := by
  obtain ⟨s, hs⟩ := loadSymFromAppModules_ok fullThenMore ⟨7, 1⟩ (p := fullProcess) fun _ => rfl
  exact ⟨s, hs, early_stop_iff fullThenMore ⟨7, 1⟩ hs⟩

/-- The other module is loaded too. -/
theorem second_module_loaded :
    ∃ s, loadSymFromAppModules fullThenMore ⟨7, 1⟩ fullProcess = .ok s ∧
      ¬∀ vs, ScanRun fullThenMore ⟨7, 1⟩ fullProcess vs s → StopsWhenFull vs s := by
  obtain ⟨s, hs⟩ := loadSymFromAppModules_ok fullThenMore ⟨7, 1⟩ (p := fullProcess) fun _ => rfl
  refine ⟨s, hs, fun hall => ?_⟩
  obtain ⟨vs, h⟩ := scanRun_of_ok hs
  have hn := h.stopsWhenFull_iff.mp (hall vs h)
  have horder : importOrder fullThenMore ⟨7, 1⟩ none = [1, 2] := by decide
  have hsplit : splitFull fullThenMore fullNames .empty [1, 2] = some ([], 1) :=
    if_pos fills_fullThenMore
  have htwo := hn [] 1 (by rw [horder]; exact hsplit) 2 (Or.inl (by decide))
  revert htwo
  decide

end Odbk
