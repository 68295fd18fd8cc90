import Odbk.Gathering

/-!
# What a scan finds

A scan that ends with fewer symbols than its limit of 166 never left a module early, so it
went through the whole import graph. Proved here:

* `scan_complete`: a scan only starts modules that can be reached and only finds names they
  report; below the limit it starts all of them and finds all their names;
* `scan_order_irrelevant`: below the limit the order of the snapshot and of the imports
  does not matter: every other order finds the same names.
-/

namespace Odbk

open VisitedWalk

/-- The modules that a scan can come to: those of the snapshot and, from there on, the
loaded imports, without the debugger itself. -/
def Reachable (W : World) (core : OdbkCore) : Handle → Prop :=
  Reach (fun h => decide (h = core.appInst)) (resolvedImports W) (W.roots core)

/-- A wanted name that a reachable module reports. -/
def Reported (W : World) (core : OdbkCore) (restricts : List String) (name : String) : Prop :=
  ∃ h, Reachable W core h ∧ ∃ e ∈ contributions W restricts h, e.1 = name

section Runs

variable {W : World} {core : OdbkCore} {p : Process} {vs : List (Visit Handle Scan)} {s : Scan}

theorem ScanRun.reachable (h : ScanRun W core p vs s) {v : Visit Handle Scan} (hv : v ∈ vs) :
    Reachable W core v.node := by
  refine Run.reach h ?_ v hv
  intro u hu b hb
  rw [(h.visit_spec hu).next] at hb
  split at hb
  · cases hb
  · exact hb

/-- No visit of a scan that stays below the limit leaves early. -/
theorem ScanRun.not_earlyReturn (h : ScanRun W core p vs s)
    (hlimit : s.process.ctx.symbols.size < 166) {v : Visit Handle Scan} (hv : v ∈ vs) :
    ¬EarlyReturn v := by
  obtain ⟨pre, post, hvs⟩ := List.append_of_mem hv
  have hchain := (Chain.split (hvs ▸ Run.chain h)).2
  have hgrow : v.after.process.ctx.symbols.size ≤ s.process.ctx.symbols.size := by
    refine hchain.induction
      (P := fun t => v.after.process.ctx.symbols.size ≤ t.process.ctx.symbols.size) ?_
      (Nat.le_refl _)
    intro u hu hle
    have hmem : u ∈ vs := by simp [hvs, hu]
    rw [h.symbols hmem]
    exact Nat.le_trans hle (EmplaceMap.size_le_emplaceAll _ _)
  rintro ⟨_, hfull⟩
  omega

theorem ScanRun.mem_of_reachable (h : ScanRun W core p vs s)
    (hlimit : s.process.ctx.symbols.size < 166) {a : Handle} (ha : Reachable W core a) :
    a ∈ vs.map Visit.node := by
  refine Run.mem_of_reach (walker_marks W core) h rfl ?_ ha
  intro v hv b hb
  rw [(h.visit_spec hv).next, if_neg (h.not_earlyReturn hlimit hv)]
  exact hb

/-- The names of a scan are those there were and those that its modules report. -/
theorem ScanRun.names (h : ScanRun W core p vs s) (name : String) :
    s.process.ctx.symbols.find? name ≠ none ↔ p.ctx.symbols.find? name ≠ none ∨
      ∃ a ∈ vs.map Visit.node, ∃ e ∈ contributions W p.ctx.restricts a, e.1 = name := by
  refine (Run.chain h).iff_exists (P := fun t => t.process.ctx.symbols.find? name ≠ none) ?_
  intro v hv
  rw [h.symbols hv, EmplaceMap.find?_emplaceAll_ne_none_iff]

/-- Names added are reported by reachable modules. -/
theorem ScanRun.reported (h : ScanRun W core p vs s) {name : String}
    (hname : s.process.ctx.symbols.find? name ≠ none) :
    p.ctx.symbols.find? name ≠ none ∨ Reported W core p.ctx.restricts name := by
  refine ((h.names name).mp hname).imp id ?_
  rintro ⟨a, ha, he⟩
  obtain ⟨v, hv, rfl⟩ := List.mem_map.mp ha
  exact ⟨v.node, h.reachable hv, he⟩

/-- Below the limit all names that reachable modules report are there. -/
theorem ScanRun.found (h : ScanRun W core p vs s)
    (hlimit : s.process.ctx.symbols.size < 166) {name : String}
    (hname : p.ctx.symbols.find? name ≠ none ∨ Reported W core p.ctx.restricts name) :
    s.process.ctx.symbols.find? name ≠ none := by
  refine (h.names name).mpr (hname.imp id ?_)
  rintro ⟨a, ha, he⟩
  exact ⟨a, h.mem_of_reachable hlimit ha, he⟩

end Runs

/-- **What a scan finds.** A scan that returns starts none but reachable modules and adds
none but names they report; if it ends with fewer than 166 symbols it started every
reachable module and has every name they report. -/
theorem scan_complete {W : World} {core : OdbkCore} {p : Process} {s : Scan}
    (h : loadSymFromAppModules W core p = .ok s) :
    (∀ a ∈ started s.calls, Reachable W core a) ∧
      (∀ name, s.process.ctx.symbols.find? name ≠ none →
        p.ctx.symbols.find? name ≠ none ∨ Reported W core p.ctx.restricts name) ∧
      (s.process.ctx.symbols.size < 166 →
        (∀ a, Reachable W core a → a ∈ started s.calls) ∧
          ∀ name, p.ctx.symbols.find? name ≠ none ∨ Reported W core p.ctx.restricts name →
            s.process.ctx.symbols.find? name ≠ none) := by
  obtain ⟨vs, hrun⟩ := scanRun_of_ok h
  rw [hrun.started]
  refine ⟨?_, fun name hname => hrun.reported hname, fun hlimit =>
    ⟨fun a ha => hrun.mem_of_reachable hlimit ha, fun name hname => hrun.found hlimit hname⟩⟩
  intro a ha
  obtain ⟨v, hv, rfl⟩ := List.mem_map.mp ha
  exact hrun.reachable hv

theorem limit_twoCopies {s : Scan}
    (h : loadSymFromAppModules twoCopies ⟨7, 3⟩ twoCopiesProcess = .ok s) :
    s.process.ctx.symbols.size < 166 := by
  have hsize : (loadSymFromAppModules twoCopies ⟨7, 3⟩ twoCopiesProcess).toOption.map
      (fun s => s.process.ctx.symbols.size) = some 2 := by
    decide +kernel
  rw [h] at hsize
  have hs : s.process.ctx.symbols.size = 2 := Option.some.inj hsize
  omega

theorem scan_complete_twoCopies :
    ∃ s, loadSymFromAppModules twoCopies ⟨7, 3⟩ twoCopiesProcess = .ok s ∧
      s.process.ctx.symbols.size < 166 ∧
      ∀ a, Reachable twoCopies ⟨7, 3⟩ a → a ∈ started s.calls := by
  obtain ⟨s, hs⟩ := loadSymFromAppModules_ok twoCopies ⟨7, 3⟩ (p := twoCopiesProcess) fun _ => rfl
  have hlimit := limit_twoCopies hs
  exact ⟨s, hs, hlimit, ((scan_complete hs).2.2 hlimit).1⟩

/-! ## The order of the modules -/

/-- The same modules with the same imports and symbols, but perhaps in another order. -/
structure SameModules (W W' : World) (core : OdbkCore) : Prop where
  roots : ∀ h, h ∈ W.roots core ↔ h ∈ W'.roots core
  imports : ∀ h a, a ∈ resolvedImports W h ↔ a ∈ resolvedImports W' h
  symbols : ∀ h, symbolsOf W h = symbolsOf W' h

theorem SameModules.symm {W W' : World} {core : OdbkCore} (h : SameModules W W' core) :
    SameModules W' W core :=
  ⟨fun a => (h.roots a).symm, fun a b => (h.imports a b).symm, fun a => (h.symbols a).symm⟩

theorem SameModules.reachable {W W' : World} {core : OdbkCore} (h : SameModules W W' core)
    {a : Handle} (ha : Reachable W core a) : Reachable W' core a :=
  ha.mono (fun b hb => (h.roots b).mp hb) fun b _ _ c hc => (h.imports b c).mp hc

theorem SameModules.reported {W W' : World} {core : OdbkCore} (h : SameModules W W' core)
    {restricts : List String} {name : String} (hname : Reported W core restricts name) :
    Reported W' core restricts name := by
  obtain ⟨a, ha, he⟩ := hname
  refine ⟨a, h.reachable ha, ?_⟩
  rwa [contributions, ← h.symbols a]

/-- **Order.** If a scan ends with fewer than 166 symbols, every scan of the same modules,
in whatever order the snapshot and the import tables list them, starts the same modules
and ends with the same names. -/
theorem scan_order_irrelevant {W W' : World} {core : OdbkCore} {p : Process} {s s' : Scan}
    (hW : SameModules W W' core) (h : loadSymFromAppModules W core p = .ok s)
    (h' : loadSymFromAppModules W' core p = .ok s')
    (hlimit : s.process.ctx.symbols.size < 166) :
    (started s'.calls).Perm (started s.calls) ∧
      ∀ name, s'.process.ctx.symbols.find? name ≠ none ↔
        s.process.ctx.symbols.find? name ≠ none := by
  obtain ⟨vs, hrun⟩ := scanRun_of_ok h
  obtain ⟨vs', hrun'⟩ := scanRun_of_ok h'
  have hsub : ∀ name, s'.process.ctx.symbols.find? name ≠ none →
      s.process.ctx.symbols.find? name ≠ none := fun name hname =>
    hrun.found hlimit ((hrun'.reported hname).imp id hW.symm.reported)
  -- no more names, so the other scan stays below the limit too
  have hlimit' : s'.process.ctx.symbols.size < 166 :=
    Nat.lt_of_le_of_lt (EmplaceMap.size_le_of_find? hsub) hlimit
  constructor
  · rw [hrun.started, hrun'.started, List.perm_ext_iff_of_nodup hrun'.nodup hrun.nodup]
    intro a
    constructor
    · intro ha
      obtain ⟨v, hv, rfl⟩ := List.mem_map.mp ha
      exact hrun.mem_of_reachable hlimit (hW.symm.reachable (hrun'.reachable hv))
    · intro ha
      obtain ⟨v, hv, rfl⟩ := List.mem_map.mp ha
      exact hrun'.mem_of_reachable hlimit' (hW.reachable (hrun.reachable hv))
  · exact fun name => ⟨hsub name, fun hname =>
      hrun'.found hlimit' ((hrun.reported hname).imp id hW.reported)⟩

/-- The two copies in the other order. -/
def swappedCopies : World :=
  { twoCopies with
    snapshot := some [2, 1]
    snapshot_mem := by
      intro l hl h hh
      cases hl
      exact (List.Perm.swap 1 2 []).mem_iff.mp hh }

theorem scan_order_twoCopies :
    ∃ s s', loadSymFromAppModules twoCopies ⟨7, 3⟩ twoCopiesProcess = .ok s ∧
      loadSymFromAppModules swappedCopies ⟨7, 3⟩ twoCopiesProcess = .ok s' ∧
      (started s'.calls).Perm (started s.calls) ∧
      ∀ name, s'.process.ctx.symbols.find? name ≠ none ↔
        s.process.ctx.symbols.find? name ≠ none := by
  obtain ⟨s, hs⟩ := loadSymFromAppModules_ok twoCopies ⟨7, 3⟩ (p := twoCopiesProcess) fun _ => rfl
  obtain ⟨s', hs'⟩ :=
    loadSymFromAppModules_ok swappedCopies ⟨7, 3⟩ (p := twoCopiesProcess) fun _ => rfl
  have hsame : SameModules twoCopies swappedCopies ⟨7, 3⟩ :=
    ⟨fun h => (List.Perm.swap 2 1 []).mem_iff, fun _ _ => Iff.rfl, fun _ => rfl⟩
  exact ⟨s, s', hs, hs', scan_order_irrelevant hsame hs hs' (limit_twoCopies hs)⟩

end Odbk
