import Odbk.KeyModule
import Mathlib.Data.List.Induction

/-!
# The symbols and the key module of a scan

What a scan leaves, in terms of the symbols that its modules report: the merge of the
lists and the choice of the key module, without the walk. Proved here:

* `lookup_restricted`: the restricted entries of a list of symbols, looked up by name;
* `foldl_setKey`: the key module after the modules that add names, one after the other;
* `gathering_first_wins`: the symbols and the key module that a scan leaves.
-/

namespace Odbk

open VisitedWalk

/-! ## What the lists say -/

/-- The address at the first occurrence of a name in a list of reported symbols. -/
def firstAddress (symInfos : List (Option SymbolInfo)) (name : String) : Option Addr :=
  symInfos.findSome? fun
    | some ⟨some n, address⟩ => if n = name then some address else none
    | _ => none

/-- The symbols reported of modules, in order. -/
def reported (W : World) (l : List Handle) : List (Option SymbolInfo) := l.flatMap (symbolsOf W)

/-- Some wanted name occurs in the list and neither in the map nor in what was seen. -/
def addsName (restricts : List String) (symbols : Symbols)
    (seen symInfos : List (Option SymbolInfo)) : Bool :=
  restricts.any fun name => (symbols.find? name).isNone && (firstAddress seen name).isNone &&
    (firstAddress symInfos name).isSome

/-- The modules of a list that add a new name, after what was seen. -/
def adders (W : World) (restricts : List String) (symbols : Symbols) :
    List (Option SymbolInfo) → List Handle → List Handle
  | _, [] => []
  | seen, m :: l =>
    if addsName restricts symbols seen (symbolsOf W m) then
      m :: adders W restricts symbols (seen ++ symbolsOf W m) l
    else adders W restricts symbols (seen ++ symbolsOf W m) l

/-- The last module other than the application; else the application, if it is among
them and there was no key module; else the one there was. -/
def keyRule (appModule keyModule : Handle) (l : List Handle) : Handle :=
  match (l.filter (· ≠ appModule)).getLast? with
  | some m => m
  | none => if keyModule = nullptr ∧ appModule ∈ l then appModule else keyModule

theorem firstAddress_cons (n : String) (address : Addr) (l : List (Option SymbolInfo))
    (name : String) :
    firstAddress (some ⟨some n, address⟩ :: l) name =
      if n = name then some address else firstAddress l name := by
  rw [firstAddress, List.findSome?_cons]
  by_cases h : n = name
  · simp only [if_pos h]
  · simp only [if_neg h]
    rfl

/-- Restricted entries by name. -/
theorem lookup_restricted (restricts : List String) (l : List (Option SymbolInfo)) (name : String) :
    (l.filterMap (restricted restricts)).lookup name =
      if name ∈ restricts then firstAddress l name else none := by
  induction l with
  | nil =>
    rw [List.filterMap_nil, List.lookup_nil]
    exact (ite_self _).symm
  | cons i l ih =>
    cases i with
    | none => exact ih
    | some info =>
      obtain ⟨n, address⟩ := info
      cases n with
      | none => exact ih
      | some n =>
        by_cases hn : n ∈ restricts
        · have hi : restricted restricts (some ⟨some n, address⟩) = some (n, address) := by
            simp only [restricted, if_pos hn]
          rw [List.filterMap_cons_some hi]
          rw [firstAddress_cons]
          by_cases he : n = name
          · subst he
            rw [List.lookup_cons_self, if_pos hn, if_pos rfl]
          · rw [EmplaceMap.lookup_cons_ne _ _ fun h => he h.symm, ih, if_neg he]
        · have hi : restricted restricts (some ⟨some n, address⟩) = none := by
            simp only [restricted, if_neg hn]
          rw [List.filterMap_cons_none hi, ih, firstAddress_cons]
          by_cases hr : name ∈ restricts
          · have he : n ≠ name := fun h => hn (h ▸ hr)
            rw [if_neg he]
          · rw [if_neg hr, if_neg hr]

theorem find?_emplaceAll_restricted (symbols : Symbols) (restricts : List String)
    (l : List (Option SymbolInfo)) (name : String) :
    (symbols.emplaceAll (l.filterMap (restricted restricts))).find? name =
      (symbols.find? name).or (if name ∈ restricts then firstAddress l name else none) := by
  rw [EmplaceMap.find?_emplaceAll, lookup_restricted]

/-- A module makes the map grow exactly when it adds a new name. -/
theorem grows_iff_addsName (symbols : Symbols) (restricts : List String)
    (seen l : List (Option SymbolInfo)) :
    (symbols.emplaceAll (seen.filterMap (restricted restricts))).size <
        ((symbols.emplaceAll (seen.filterMap (restricted restricts))).emplaceAll
          (l.filterMap (restricted restricts))).size ↔
      addsName restricts symbols seen l = true := by
  have hmem : ∀ name, (∃ e ∈ l.filterMap (restricted restricts), e.1 = name) ↔
      name ∈ restricts ∧ (firstAddress l name).isSome = true := by
    intro name
    have hl := lookup_restricted restricts l name
    have hnone := EmplaceMap.lookup_eq_none_iff_not_mem (l.filterMap (restricted restricts)) name
    rw [hl, List.mem_map] at hnone
    rw [← not_iff_not, ← hnone]
    by_cases hr : name ∈ restricts
    · simp [hr]
    · simp [hr]
  rw [EmplaceMap.size_lt_emplaceAll_iff, addsName, List.any_eq_true]
  simp only [find?_emplaceAll_restricted, Option.or_eq_none_iff, Bool.and_eq_true,
    Option.isNone_iff_eq_none]
  constructor
  · rintro ⟨e, he, hs, hseen⟩
    obtain ⟨hr, hsome⟩ := (hmem e.1).mp ⟨e, he, rfl⟩
    rw [if_pos hr] at hseen
    exact ⟨e.1, hr, ⟨hs, hseen⟩, hsome⟩
  · rintro ⟨name, hr, ⟨hs, hseen⟩, hsome⟩
    obtain ⟨e, he, rfl⟩ := (hmem name).mpr ⟨hr, hsome⟩
    exact ⟨e, he, hs, by rw [if_pos hr, hseen]⟩

/-! ## The key module -/

/-- What a module that adds names makes of the key module. -/
def setKey (appModule keyModule hModule : Handle) : Handle :=
  if keyModule = nullptr ∨ hModule ≠ appModule then hModule else keyModule

theorem keyRule_concat_ne {appModule m : Handle} (hm : m ≠ appModule) (keyModule : Handle)
    (l : List Handle) : keyRule appModule keyModule (l ++ [m]) = m := by
  have hlast : ((l ++ [m]).filter (· ≠ appModule)).getLast? = some m := by
    rw [List.filter_append, List.filter_cons_of_pos (by simpa using hm), List.filter_nil,
      List.getLast?_concat]
  rw [keyRule, hlast]

/-- The application takes over only where nothing was set. -/
theorem keyRule_concat_self {appModule : Handle} {l : List Handle}
    (hl : ∀ m ∈ l, m ≠ appModule → m ≠ nullptr) (keyModule : Handle) :
    keyRule appModule keyModule (l ++ [appModule]) =
      if keyRule appModule keyModule l = nullptr then appModule
      else keyRule appModule keyModule l := by
  have hfilter : (l ++ [appModule]).filter (· ≠ appModule) = l.filter (· ≠ appModule) := by simp
  rw [keyRule, hfilter, keyRule]
  cases hlast : (l.filter (· ≠ appModule)).getLast? with
  | some a =>
    obtain ⟨ha, hne⟩ := List.mem_filter.mp (List.mem_of_getLast? hlast)
    exact (if_neg (hl a ha (of_decide_eq_true hne))).symm
  | none =>
    by_cases hk : keyModule = nullptr
    · by_cases hmem : appModule ∈ l <;> simp [hk, hmem]
    · simp [hk]

/-- **The key module** after modules that add names, none but the application null. -/
theorem foldl_setKey {appModule : Handle} {l : List Handle}
    (hl : ∀ m ∈ l, m ≠ appModule → m ≠ nullptr) (keyModule : Handle) :
    l.foldl (setKey appModule) keyModule = keyRule appModule keyModule l := by
  induction l using List.reverseRecOn with
  | nil => simp [keyRule]
  | append_singleton l m ih =>
    have hl' : ∀ a ∈ l, a ≠ appModule → a ≠ nullptr := fun a ha =>
      hl a (List.mem_append_left _ ha)
    rw [List.foldl_concat, ih hl', setKey]
    by_cases hm : m = appModule
    · subst hm
      rw [keyRule_concat_self hl']
      simp only [ne_eq, not_true_eq_false, or_false]
    · rw [keyRule_concat_ne hm, if_pos (Or.inr hm)]

/-! ## The walk -/

/-- The symbols and the key module after a visit of a module. -/
def gatherStep (W : World) (core : OdbkCore) (restricts : List String) (t : Symbols × Handle)
    (hModule : Handle) : Symbols × Handle :=
  let symbols := t.1.emplaceAll (contributions W restricts hModule)
  (symbols, if t.1.size < symbols.size then setKey core.appModule t.2 hModule else t.2)

/-- **The modules one after the other** make one merge, and set the key module by those
that add a name. -/
theorem foldl_gatherStep (W : World) (core : OdbkCore) (restricts : List String)
    (symbols : Symbols) (l : List Handle) (seen : List (Option SymbolInfo)) (keyModule : Handle) :
    l.foldl (gatherStep W core restricts)
        (symbols.emplaceAll (seen.filterMap (restricted restricts)), keyModule) =
      (symbols.emplaceAll ((seen ++ reported W l).filterMap (restricted restricts)),
        (adders W restricts symbols seen l).foldl (setKey core.appModule) keyModule) := by
  induction l generalizing seen keyModule with
  | nil =>
    rw [reported, List.flatMap_nil, List.append_nil]
    rfl
  | cons m l ih =>
    have hmerge : (symbols.emplaceAll (seen.filterMap (restricted restricts))).emplaceAll
          (contributions W restricts m) =
        symbols.emplaceAll ((seen ++ symbolsOf W m).filterMap (restricted restricts)) := by
      rw [List.filterMap_append, EmplaceMap.emplaceAll, EmplaceMap.emplaceAll,
        EmplaceMap.emplaceAll, List.foldl_append]
      rfl
    have hall : seen ++ reported W (m :: l) = seen ++ symbolsOf W m ++ reported W l := by
      rw [reported, List.flatMap_cons, ← List.append_assoc]
      rfl
    have hgrows := grows_iff_addsName symbols restricts seen (symbolsOf W m)
    rw [List.foldl_cons, gatherStep, hall]
    simp only [hmerge]
    rw [← contributions, hmerge] at hgrows
    by_cases ha : addsName restricts symbols seen (symbolsOf W m) = true
    · rw [if_pos (hgrows.mpr ha), ih, adders, if_pos ha, List.foldl_cons]
    · rw [if_neg fun hs => ha (hgrows.mp hs), ih, adders, if_neg ha]

section Runs

variable {W : World} {core : OdbkCore} {p : Process} {vs : List (Visit Handle Scan)} {s : Scan}

theorem ScanRun.gathered (h : ScanRun W core p vs s) :
    (s.process.ctx.symbols, s.process.ctx.keyModule) =
      (vs.map Visit.node).foldl (gatherStep W core p.ctx.restricts)
        (p.ctx.symbols, p.ctx.keyModule) := by
  refine (Run.chain h).foldl_eq
    (g := fun t => (t.process.ctx.symbols, t.process.ctx.keyModule)) ?_
  intro v hv
  have hkey := (h.visit_spec hv).keyModule
  have hsym := h.symbols hv
  rw [hkey, hsym, gatherStep]
  by_cases hg : v.before.process.ctx.symbols.size <
      (v.before.process.ctx.symbols.emplaceAll (contributions W p.ctx.restricts v.node)).size
  · simp only [hg, true_and, if_true, setKey]
  · simp only [hg, false_and, if_false]

/-- A module of a run is the one the scan starts from, in the snapshot, or an import. -/
theorem ScanRun.node_ne_nullptr (h : ScanRun W core p vs s)
    (hsnap : ∀ l, W.snapshot = some l → nullptr ∉ l) :
    ∀ v ∈ vs, v.node ≠ core.appModule → v.node ≠ nullptr := by
  refine Run.within (D := fun a => a ≠ core.appModule → a ≠ nullptr) h ?_ ?_
  · intro a ha hne hnull
    unfold World.roots at ha
    cases hs : W.snapshot with
    | none =>
      rw [hs] at ha
      exact hne (List.mem_singleton.mp ha)
    | some l =>
      rw [hs] at ha
      subst hnull
      exact hsnap l hs ha
  · intro v hv _ a ha _
    rw [(h.visit_spec hv).next] at ha
    split at ha
    · cases ha
    · exact (mem_resolvedImports.mp ha).1

end Runs

theorem adders_subset (W : World) (restricts : List String) (symbols : Symbols)
    (seen : List (Option SymbolInfo)) (l : List Handle) :
    ∀ m ∈ adders W restricts symbols seen l, m ∈ l := by
  induction l generalizing seen with
  | nil => exact fun m hm => hm
  | cons a l ih =>
    intro m hm
    unfold adders at hm
    split at hm
    · rcases List.mem_cons.mp hm with rfl | hm
      · exact List.mem_cons_self
      · exact List.mem_cons_of_mem _ (ih _ m hm)
    · exact List.mem_cons_of_mem _ (ih _ m hm)

/-- **Gathering.** A scan leaves the symbols there were and, of the wanted names without
an entry, the address of the first occurrence in what the modules it started report; and
the key module by the modules that added a name. -/
theorem gathering_first_wins (W : World) (core : OdbkCore) {p : Process} {s : Scan}
    (hsnap : ∀ l, W.snapshot = some l → nullptr ∉ l)
    (h : loadSymFromAppModules W core p = .ok s) :
    (∀ name, s.process.ctx.symbols.find? name =
        (p.ctx.symbols.find? name).or
          (if name ∈ p.ctx.restricts then firstAddress (reported W (started s.calls)) name
          else none)) ∧
      s.process.ctx.keyModule = keyRule core.appModule p.ctx.keyModule
        (adders W p.ctx.restricts p.ctx.symbols [] (started s.calls)) := by
  obtain ⟨vs, hrun⟩ := scanRun_of_ok h
  have hfold := hrun.gathered.trans
    (foldl_gatherStep W core p.ctx.restricts p.ctx.symbols _ [] p.ctx.keyModule)
  rw [← hrun.started, List.nil_append, Prod.mk.injEq] at hfold
  obtain ⟨hsym, hkey⟩ := hfold
  constructor
  · intro name
    rw [hsym, find?_emplaceAll_restricted]
  · rw [hkey]
    refine foldl_setKey (fun m hm hne => ?_) _
    have hmem := adders_subset _ _ _ _ _ m hm
    rw [hrun.started] at hmem
    obtain ⟨v, hv, rfl⟩ := List.mem_map.mp hmem
    exact hrun.node_ne_nullptr hsnap v hv hne

theorem gathering_twoCopies :
    ∃ s, loadSymFromAppModules twoCopies ⟨7, 3⟩ twoCopiesProcess = .ok s ∧
      (∀ name, s.process.ctx.symbols.find? name =
          (twoCopiesProcess.ctx.symbols.find? name).or
            (if name ∈ twoCopiesProcess.ctx.restricts then
              firstAddress (reported twoCopies (started s.calls)) name
            else none)) ∧
        s.process.ctx.keyModule = keyRule 3 twoCopiesProcess.ctx.keyModule
          (adders twoCopies twoCopiesProcess.ctx.restricts twoCopiesProcess.ctx.symbols []
            (started s.calls)) := by
  obtain ⟨s, hs⟩ := loadSymFromAppModules_ok twoCopies ⟨7, 3⟩ (p := twoCopiesProcess) fun _ => rfl
  have hsnap : ∀ l, twoCopies.snapshot = some l → nullptr ∉ l := by
    intro l hl
    cases hl
    decide
  exact ⟨s, hs, gathering_first_wins twoCopies ⟨7, 3⟩ hsnap hs⟩

end Odbk
