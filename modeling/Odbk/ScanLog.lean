import Odbk.ScanComplete

/-!
# What a scan logs

The set `warned_modules` is filled with addresses of a buffer and searched for module
handles, so it never holds a warning back. Proved here:

* `scan_log`: the lines of a scan, from the modules it started and the symbols before it;
* `scan_again`: a second scan after one below the limit finds nothing and logs nothing but
  warnings, and not even these where `dbghelp` has the modules loaded.
-/

namespace Odbk

open VisitedWalk

/-! ## The lines -/

def warning1002 (symbolFileName moduleFileName : String) : LogMessage :=
  ⟨.warn, "Warning 1002: Symbol file '" ++ symbolFileName ++
    "' located but it does not match module '" ++ moduleFileName ++ "'" ++ "\r\n"⟩

/-- The warning about a symbol file that does not match a module, if there is one. -/
def symWarning (W : World) (hModule : Handle) : List LogMessage :=
  match openSymbols W (fun _ => true) hModule with
  | .ok ⟨_, source, some m, _⟩ =>
    if m.cvData ≠ "" ∧ (m.symType = .symExport ∨ m.symType = .symNone) then
      (W.locateSymFile hModule source).toList.map fun file =>
        warning1002 file (W.moduleFileName hModule)
    else []
  | _ => []

/-- The lines about a module after which there are `size'` symbols and not `size`. -/
def foundLines (W : World) (hModule : Handle) (size size' : Nat) : List LogMessage :=
  if size < size' then
    ⟨.info, "Lua exports API found at '" ++ W.moduleFileName hModule ++
        "'. Symbols loaded" ++ "\r\n"⟩ ::
      if 166 ≤ size' then
        [⟨.info, "Load lua symbols only required, skip all other module!" ++ "\r\n"⟩]
      else []
  else []

/-- The lines of the visits of some modules, one after the other. -/
def scanLog (W : World) (restricts : List String) : Symbols → List Handle → List LogMessage
  | _, [] => []
  | symbols, h :: l =>
    let symbols' := symbols.emplaceAll (contributions W restricts h)
    symWarning W h ++ foundLines W h symbols.size symbols'.size ++ scanLog W restricts symbols' l

/-! ## One visit -/

/-- What `warned_modules` really holds. -/
def OnlyBuffers (s : Scan) : Prop := ∀ k ∈ s.context.warnedModules, k = WarnKey.fileNameBuffer

theorem warnSymFile_log {W : World} {dbghelp : DbgFn → Bool} {hModule : Handle} {o : Opened}
    (ho : openSymbols W dbghelp hModule = .ok o) {s : Scan} (hs : OnlyBuffers s) :
    (warnSymFile W hModule o.source o.info s).process.log =
        s.process.log ++ symWarning W hModule ∧
      OnlyBuffers (warnSymFile W hModule o.source o.info s) := by
  have hnot : WarnKey.module hModule ∉ s.context.warnedModules := fun hm => by
    cases hs _ hm
  obtain ⟨base, source, info, calls⟩ := o
  rw [symWarning, openSymbols_pointers ho]
  cases info with
  | none => exact ⟨(List.append_nil _).symm, hs⟩
  | some m =>
    simp only [warnSymFile, hnot, not_false_eq_true, and_true]
    by_cases hm : m.cvData ≠ "" ∧ (m.symType = .symExport ∨ m.symType = .symNone)
    · rw [if_pos hm, if_pos hm]
      have hcons : ∀ k ∈ WarnKey.fileNameBuffer :: s.context.warnedModules,
          k = WarnKey.fileNameBuffer := by
        intro k hk
        rcases List.mem_cons.mp hk with rfl | hk
        · rfl
        · exact hs k hk
      cases W.locateSymFile hModule source with
      | none => exact ⟨(List.append_nil _).symm, hcons⟩
      | some file => exact ⟨rfl, hcons⟩
    · rw [if_neg hm, if_neg hm]
      exact ⟨(List.append_nil _).symm, hs⟩

theorem report_log (W : World) (hModule : Handle) (found : Bool) (s : Scan) {size : Nat}
    (hfound : found = decide (size < s.process.ctx.symbols.size)) :
    (report W hModule found s).1.process.log =
      s.process.log ++ foundLines W hModule size s.process.ctx.symbols.size := by
  subst hfound
  unfold report foundLines
  by_cases hgrow : size < s.process.ctx.symbols.size
  · rw [if_pos (decide_eq_true hgrow), if_pos hgrow]
    by_cases hfull : 166 ≤ s.process.ctx.symbols.size
    · simp [Scan.print, Process.print, hfull]
    · simp [Scan.print, Process.print, hfull]
  · rw [if_neg (by simpa using hgrow), if_neg hgrow, List.append_nil]

/-- **One visit** logs the warning about the module and what is new in it. -/
theorem visitModule_log {W : World} {core : OdbkCore} {hModule : Handle} {s s' : Scan} {b : Bool}
    (h : visitModule W core hModule s = .ok (s', b)) (hs : OnlyBuffers s) :
    s'.process.log = s.process.log ++ (symWarning W hModule ++
        foundLines W hModule s.process.ctx.symbols.size s'.process.ctx.symbols.size) ∧
      OnlyBuffers s' := by
  obtain ⟨o, found, s₁, ho, he, hr⟩ := visitModule_ok h
  obtain ⟨hlog, hbuf⟩ := warnSymFile_log ho
    (s := (s.markLoaded hModule).record o.calls) hs
  have hctx := (warnSymFile_frame W hModule o.source o.info
    ((s.markLoaded hModule).record o.calls)).2.1
  generalize warnSymFile W hModule o.source o.info
    ((s.markLoaded hModule).record o.calls) = s₀ at he hlog hbuf hctx
  have hctx₀ : s₀.process.ctx = s.process.ctx := hctx
  have hfound := (enumSymbols_spec ho he).1.found
  rw [hctx₀] at hfound
  have henum : s₁.process.log = s₀.process.log ∧ s₁.context = s₀.context := by
    rcases enumSymbols_ok he with ⟨_, _, rfl⟩ | ⟨_, _, _, rfl⟩
    · exact ⟨rfl, rfl⟩
    · exact ⟨rfl, rfl⟩
  obtain ⟨_, hctx', hcontext⟩ := report_frame W hModule found s₁
  have hreport := report_log W hModule found s₁ hfound
  rw [hr] at hreport hctx' hcontext
  constructor
  · rw [hreport, henum.1, hlog, hctx', List.append_assoc]
    rfl
  · intro k hk
    rw [hcontext, henum.2] at hk
    exact hbuf k hk

/-! ## A scan -/

section Runs

variable {W : World} {core : OdbkCore} {p : Process} {vs : List (Visit Handle Scan)} {s : Scan}

theorem ScanRun.log_chain (h : ScanRun W core p vs s) {us : List (Visit Handle Scan)} {t t' : Scan}
    (hc : Chain t us t') (hus : ∀ u ∈ us, u ∈ vs) (ht : OnlyBuffers t) :
    t'.process.log = t.process.log ++
      scanLog W p.ctx.restricts t.process.ctx.symbols (us.map Visit.node) := by
  induction us generalizing t with
  | nil =>
    cases hc
    exact (List.append_nil _).symm
  | cons u us ih =>
    obtain ⟨rfl, hc⟩ := hc
    have hu : u ∈ vs := hus u List.mem_cons_self
    obtain ⟨_, _, hvis⟩ := Run.of_mem h hu
    obtain ⟨b, hb, _⟩ := walker_visit hvis
    obtain ⟨hlog, hbuf⟩ := visitModule_log hb ht
    rw [ih hc (fun v hv => hus v (List.mem_cons_of_mem _ hv)) hbuf, hlog, h.symbols hu,
      List.map_cons, scanLog]
    simp only [List.append_assoc]

theorem ScanRun.log (h : ScanRun W core p vs s) :
    s.process.log = p.log ++ scanLog W p.ctx.restricts p.ctx.symbols (vs.map Visit.node) :=
  h.log_chain (Run.chain h) (fun _ hu => hu) fun _ hk => (nomatch hk)

end Runs

/-- **The log of a scan.** It depends on the modules started and on the symbols there were:
for each module the warning about it, and then what was new. -/
theorem scan_log {W : World} {core : OdbkCore} {p : Process} {s : Scan}
    (h : loadSymFromAppModules W core p = .ok s) :
    s.process.log = p.log ++ scanLog W p.ctx.restricts p.ctx.symbols (started s.calls) := by
  obtain ⟨vs, hrun⟩ := scanRun_of_ok h
  rw [hrun.started]
  exact hrun.log

theorem scan_log_twoCopies :
    ∃ s, loadSymFromAppModules twoCopies ⟨7, 3⟩ twoCopiesProcess = .ok s ∧
      s.process.log =
        scanLog twoCopies twoCopiesProcess.ctx.restricts .empty (started s.calls) := by
  obtain ⟨s, hs⟩ := loadSymFromAppModules_ok twoCopies ⟨7, 3⟩ (p := twoCopiesProcess) fun _ => rfl
  exact ⟨s, hs, scan_log hs⟩

/-! ## A second scan -/

theorem gatherSymbols_of_contained (W : World) (core : OdbkCore) (hModule : Handle)
    (source : SymSource) {ctx : OdbkLuaContext}
    (h : ∀ e ∈ (W.luaSymbols hModule source).filterMap (restricted ctx.restricts),
      ctx.symbols.find? e.1 ≠ none) :
    gatherSymbols W core hModule source ctx = (false, ctx) := by
  have hsame : (W.luaSymbols hModule source).foldl gatherSymbolsCallback ctx = ctx := by
    rw [gathered_frame, gathered_symbols, EmplaceMap.emplaceAll_of_contained _ _ h]
  rw [gatherSymbols, hsame, if_neg (Nat.lt_irrefl _)]

/-- A visit of a module that reports nothing new leaves the context alone. -/
theorem visitModule_of_contained {W : World} {core : OdbkCore} {hModule : Handle} {s s' : Scan}
    {b : Bool} (h : visitModule W core hModule s = .ok (s', b))
    (hnew : ∀ e ∈ contributions W s.process.ctx.restricts hModule,
      s.process.ctx.symbols.find? e.1 ≠ none) : s'.process.ctx = s.process.ctx := by
  obtain ⟨o, found, s₁, ho, he, hr⟩ := visitModule_ok h
  have hwarn : (warnSymFile W hModule o.source o.info
      ((s.markLoaded hModule).record o.calls)).process.ctx = s.process.ctx :=
    (warnSymFile_frame W hModule o.source o.info _).2.1
  have hctx : s₁.process.ctx = s.process.ctx := by
    rcases enumSymbols_ok he with ⟨_, _, rfl⟩ | ⟨hbase, _, _, rfl⟩
    · exact hwarn
    · have hof : symbolsOf W hModule = W.luaSymbols hModule o.source := by
        rw [symbolsOf, openSymbols_pointers ho]
        exact if_neg hbase
      rw [contributions, hof] at hnew
      simp only [hwarn, gatherSymbols_of_contained W core hModule o.source hnew]
  have hreport := (report_frame W hModule found s₁).2.1
  rw [hr] at hreport
  exact hreport.trans hctx

/-- Modules with nothing new are only warned about. -/
theorem scanLog_of_contained {W : World} {restricts : List String} {symbols : Symbols}
    {l : List Handle}
    (h : ∀ a ∈ l, ∀ e ∈ contributions W restricts a, symbols.find? e.1 ≠ none) :
    scanLog W restricts symbols l = l.flatMap (symWarning W) := by
  induction l with
  | nil => rfl
  | cons a l ih =>
    have ha := EmplaceMap.emplaceAll_of_contained symbols _ (h a List.mem_cons_self)
    rw [scanLog, ha, ih fun c hc => h c (List.mem_cons_of_mem _ hc), foundLines,
      if_neg (Nat.lt_irrefl _), List.append_nil, List.flatMap_cons]

/-- The scans below the limit start the modules in the order of the import graph. -/
theorem started_of_limit {W : World} {core : OdbkCore} {p : Process} {s : Scan}
    (h : loadSymFromAppModules W core p = .ok s)
    (hlimit : s.process.ctx.symbols.size < 166) :
    started s.calls = importOrder W core none := by
  obtain ⟨vs, hrun⟩ := scanRun_of_ok h
  rw [hrun.started]
  refine (hrun.order fun v hv => ?_).symm
  rw [(hrun.visit_spec hv).next, if_neg (hrun.not_earlyReturn hlimit hv)]
  rfl

/-- The process at a second scan: the modules and their imports are the same, and `dbghelp`
reports no wanted name of a module that it did not report before. Its answers may be others:
`SymLoadModule64` gives 0 for a module that is loaded already. -/
structure ScannedAgain (W W' : World) (core : OdbkCore) (restricts : List String) : Prop where
  roots : W'.roots core = W.roots core
  imports : ∀ h, resolvedImports W' h = resolvedImports W h
  names : ∀ h, ∀ e ∈ contributions W' restricts h, ∃ e' ∈ contributions W restricts h, e'.1 = e.1

theorem ScannedAgain.reported {W W' : World} {core : OdbkCore} {restricts : List String}
    (hW : ScannedAgain W W' core restricts) {a : Handle} (ha : Reachable W' core a)
    {e : String × Addr} (he : e ∈ contributions W' restricts a) :
    Reported W core restricts e.1 := by
  refine ⟨a, ?_, hW.names a e he⟩
  refine ha.mono (fun b hb => hW.roots ▸ hb) fun b _ _ c hc => ?_
  rwa [hW.imports] at hc

theorem ScannedAgain.importOrder_eq {W W' : World} {core : OdbkCore} {restricts : List String}
    (hW : ScannedAgain W W' core restricts) (cut : Option Handle) :
    importOrder W' core cut = importOrder W core cut := by
  have hbelow : importsBelow W' cut = importsBelow W cut := by
    funext a
    rw [importsBelow, importsBelow, hW.imports]
  have hspec := importOrder_spec W' core cut
  rw [hbelow, hW.roots] at hspec
  exact (importOrder_spec W core cut).deterministic hspec

/-- The answers of `dbghelp` about a module that it has loaded before: no base, and of base
0 no information. -/
structure World.Held (W : World) (hModule : Handle) : Prop where
  base : W.symLoadModule64 hModule .image = 0
  info : W.symGetModuleInfo64 hModule .image = none

theorem contributions_of_held {W : World} {hModule : Handle} (h : W.Held hModule)
    (restricts : List String) : contributions W restricts hModule = [] := by
  have hnone : symbolsOf W hModule = [] := by
    simp only [symbolsOf, openSymbols, callDbg, if_true, bind, Except.bind, h.info, h.base, pure,
      Except.pure]
  rw [contributions, hnone, List.filterMap_nil]

theorem symWarning_of_held {W : World} {hModule : Handle} (h : W.Held hModule) :
    symWarning W hModule = [] := by
  simp only [symWarning, openSymbols, callDbg, if_true, bind, Except.bind, h.info, pure,
    Except.pure]

/-- **A second scan.** After a scan that ends with fewer than 166 symbols another one starts
the same modules in the same order, finds nothing, and leaves the process as it was but for
warnings. Where `dbghelp` has all the modules loaded, it changes nothing at all. -/
theorem scan_again {W W' : World} {core : OdbkCore} {p : Process} {s t : Scan}
    (hW : ScannedAgain W W' core p.ctx.restricts)
    (h : loadSymFromAppModules W core p = .ok s)
    (hlimit : s.process.ctx.symbols.size < 166)
    (h' : loadSymFromAppModules W' core s.process = .ok t) :
    started t.calls = started s.calls ∧
      t.process = { s.process with
        log := s.process.log ++ (started s.calls).flatMap (symWarning W') } ∧
      ((∀ a ∈ started s.calls, W'.Held a) → t.process = s.process) := by
  obtain ⟨us, hfirst⟩ := scanRun_of_ok h
  obtain ⟨vs, hrun⟩ := scanRun_of_ok h'
  have hknown : ∀ v ∈ vs, ∀ e ∈ contributions W' s.process.ctx.restricts v.node,
      s.process.ctx.symbols.find? e.1 ≠ none := by
    intro v hv e he
    rw [(scan_frame h).restricts] at he
    exact hfirst.found hlimit (Or.inr (hW.reported (hrun.reachable hv) he))
  have hctx : t.process.ctx = s.process.ctx := by
    refine (Run.chain hrun).induction (P := fun r => r.process.ctx = s.process.ctx) ?_ rfl
    intro v hv hb
    obtain ⟨_, _, hvis⟩ := Run.of_mem hrun hv
    obtain ⟨b, hvisit, _⟩ := walker_visit hvis
    rw [visitModule_of_contained hvisit (by rw [hb]; exact hknown v hv), hb]
  have hstarted : started t.calls = started s.calls := by
    rw [started_of_limit h hlimit, started_of_limit h' (by rwa [hctx]), hW.importOrder_eq]
  have hprocess : t.process = { s.process with
      log := s.process.log ++ (started s.calls).flatMap (symWarning W') } := by
    rw [(scan_frame h').eq_of_ctx hctx, hrun.log, ← hrun.started, hstarted, scanLog_of_contained]
    intro a ha
    rw [← hstarted, hrun.started] at ha
    obtain ⟨v, hv, rfl⟩ := List.mem_map.mp ha
    exact hknown v hv
  refine ⟨hstarted, hprocess, fun hheld => ?_⟩
  have hsilent : (started s.calls).flatMap (symWarning W') = [] :=
    List.flatMap_eq_nil_iff.mpr fun a ha => symWarning_of_held (hheld a ha)
  rw [hprocess, hsilent, List.append_nil]

/-- The two copies, with symbol files that do not match them. -/
def staleCopies : World :=
  { twoCopies with
    symGetModuleInfo64 := fun _ _ => some ⟨.symExport, "lua.pdb"⟩
    locateSymFile := fun _ _ => some "lua.pdb" }

/-- The same process, after `dbghelp` has loaded the modules. -/
def loadedCopies : World :=
  { staleCopies with
    symLoadModule64 := fun _ _ => 0
    symGetModuleInfo64 := fun _ _ => none }

theorem scan_again_staleCopies :
    ∃ s t, loadSymFromAppModules staleCopies ⟨7, 3⟩ twoCopiesProcess = .ok s ∧
      loadSymFromAppModules loadedCopies ⟨7, 3⟩ s.process = .ok t ∧
      warning1002 "lua.pdb" "" ∈ s.process.log ∧ started t.calls = [1, 2] ∧
      t.process = s.process := by
  obtain ⟨s, hs⟩ := loadSymFromAppModules_ok staleCopies ⟨7, 3⟩ (p := twoCopiesProcess) fun _ => rfl
  obtain ⟨t, ht⟩ := loadSymFromAppModules_ok loadedCopies ⟨7, 3⟩ (p := s.process) fun f => by
    rw [(scan_frame hs).dbghelp]
    rfl
  have hfirst : (loadSymFromAppModules staleCopies ⟨7, 3⟩ twoCopiesProcess).toOption.map
      (fun s => (s.process.ctx.symbols.size, decide (warning1002 "lua.pdb" "" ∈ s.process.log),
        started s.calls)) = some (2, true, [1, 2]) := by
    decide +kernel
  rw [hs] at hfirst
  obtain ⟨hsize, hfirst⟩ := Prod.mk.inj (Option.some.inj hfirst)
  obtain ⟨hwarned, hstarted⟩ := Prod.mk.inj hfirst
  have hheld : ∀ a, loadedCopies.Held a := fun _ => ⟨rfl, rfl⟩
  have hW : ScannedAgain staleCopies loadedCopies ⟨7, 3⟩ twoCopiesProcess.ctx.restricts := by
    refine ⟨rfl, fun _ => rfl, fun a e he => ?_⟩
    rw [contributions_of_held (hheld a)] at he
    cases he
  have hagain := scan_again hW hs (by rw [hsize]; decide) ht
  exact ⟨s, t, hs, ht, of_decide_eq_true hwarned, hagain.1.trans hstarted,
    hagain.2.2 fun a _ => hheld a⟩

end Odbk
