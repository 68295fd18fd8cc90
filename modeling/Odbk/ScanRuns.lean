import Odbk.ModuleScan
import Odbk.Lib.WalkRuns

/-!
# The module scan visit by visit

A scan that returns is one sequence of first visits (`ScanRun`). What a visit finds
depends on the module alone (`contributions`), so the maps and the order of a scan are
those of the import graph. Proved here:

* `scanRun_of_ok`, `loadSymFromAppModules_ne_depth`: every scan that returns is such a
  run, and no scan runs out of depth;
* `visit_spec`: what one visit does to the symbols, the key module and the calls;
* `ScanRun.started`: the modules whose symbols were loaded are the modules visited;
* `symbols_before`: the symbols before a visit, from the modules visited;
* `importOrder_spec`: the order of the import graph is computed by `importOrder`.
-/

namespace Odbk

open VisitedWalk

/-! ## What a module contributes -/

/-- What the scan enumerates of a module. -/
def symbolsOf (W : World) (hModule : Handle) : List (Option SymbolInfo) :=
  match openSymbols W (fun _ => true) hModule with
  | .ok o => if o.base = 0 then [] else W.luaSymbols hModule o.source
  | .error _ => []

/-- A reported symbol that passes the restriction set. -/
def restricted (restricts : List String) : Option SymbolInfo → Option (String × Addr)
  | some ⟨some name, address⟩ => if name ∈ restricts then some (name, address) else none
  | _ => none

/-- The entries a visit of a module offers to the map. -/
def contributions (W : World) (restricts : List String) (hModule : Handle) :
    List (String × Addr) :=
  (symbolsOf W hModule).filterMap (restricted restricts)

/-- The symbols after the modules `l` were visited. -/
def symbolsAfter (W : World) (restricts : List String) (symbols : Symbols) (l : List Handle) :
    Symbols :=
  l.foldl (fun S h => S.emplaceAll (contributions W restricts h)) symbols

/-- The imports of a module that are loaded. -/
def resolvedImports (W : World) (hModule : Handle) : List Handle :=
  ((W.imports hModule).map W.getModuleHandle).filter (· ≠ nullptr)

theorem callDbg_bind_ok {β : Type} {dbghelp : DbgFn → Bool} {f : DbgFn} {k : Except Fault β} {r : β}
    (h : (callDbg dbghelp f >>= fun _ => k) = .ok r) : k = .ok r := by
  unfold callDbg at h
  split at h
  · exact h
  · cases h

theorem openSymbols_pointers {W : World} {dbghelp : DbgFn → Bool} {hModule : Handle} {o : Opened}
    (h : openSymbols W dbghelp hModule = .ok o) :
    openSymbols W (fun _ => true) hModule = .ok o := by
  unfold openSymbols at h ⊢
  have h₁ := callDbg_bind_ok (callDbg_bind_ok h)
  simp only [callDbg, if_true, bind, Except.bind]
  cases hi : W.symGetModuleInfo64 hModule .image with
  | none =>
    rw [hi] at h₁
    exact h₁
  | some m =>
    rw [hi] at h₁
    simp only at h₁ ⊢
    split at h₁
    case isTrue hp =>
      rw [if_pos hp]
      have h₂ := callDbg_bind_ok (callDbg_bind_ok h₁)
      split at h₂
      case isTrue hb =>
        rw [if_pos hb]
        exact callDbg_bind_ok h₂
      case isFalse hb =>
        rw [if_neg hb]
        exact h₂
    case isFalse hp =>
      rw [if_neg hp]
      exact h₁

theorem gathered_symbols (l : List (Option SymbolInfo)) (ctx : OdbkLuaContext) :
    (l.foldl gatherSymbolsCallback ctx).symbols =
      ctx.symbols.emplaceAll (l.filterMap (restricted ctx.restricts)) := by
  induction l generalizing ctx with
  | nil => rfl
  | cons i l ih =>
    have hr : (gatherSymbolsCallback ctx i).restricts = ctx.restricts := by
      rw [gatherSymbolsCallback_frame]
    rw [List.foldl_cons, ih, hr]
    unfold gatherSymbolsCallback
    split
    case h_1 name address =>
      by_cases hn : name ∈ ctx.restricts
      · have hi : restricted ctx.restricts (some ⟨some name, address⟩) = some (name, address) := by
          simp only [restricted, if_pos hn]
        rw [List.filterMap_cons_some hi, if_pos hn]
        rfl
      · have hi : restricted ctx.restricts (some ⟨some name, address⟩) = none := by
          simp only [restricted, if_neg hn]
        rw [List.filterMap_cons_none hi, if_neg hn]
    case h_2 hne =>
      have hi : restricted ctx.restricts i = none := by
        unfold restricted
        split
        · exact absurd rfl (hne _ _)
        · rfl
      rw [List.filterMap_cons_none hi]

/-! ## One visit -/

/-- The modules whose symbol loading was started: every `SymLoadModule64` call on the
image of a module. The one on its `pdb` file goes on with the same module. -/
def started (calls : List ScanCall) : List Handle :=
  calls.filterMap fun
    | .symLoadModule64 h .image => some h
    | _ => none

theorem started_append (calls calls' : List ScanCall) :
    started (calls ++ calls') = started calls ++ started calls' :=
  List.filterMap_append

theorem openSymbols_calls {W : World} {dbghelp : DbgFn → Bool} {hModule : Handle} {o : Opened}
    (h : openSymbols W dbghelp hModule = .ok o) :
    ∃ more, o.calls = .symLoadModule64 hModule .image :: more ∧ started more = [] := by
  have h' := openSymbols_pointers h
  unfold openSymbols at h'
  simp only [callDbg, if_true, bind, Except.bind, pure, Except.pure] at h'
  split at h'
  · cases h'
    exact ⟨[], rfl, rfl⟩
  · split at h'
    · split at h'
      · cases h'
        exact ⟨_, rfl, rfl⟩
      · cases h'
        exact ⟨_, rfl, rfl⟩
    · cases h'
      exact ⟨[], rfl, rfl⟩

theorem warnSymFile_calls (W : World) (hModule : Handle) (source : SymSource)
    (info : Option SymModule) (s : Scan) :
    (warnSymFile W hModule source info s).calls = s.calls := by
  unfold warnSymFile
  split
  · rfl
  · split
    · split <;> rfl
    · rfl

theorem report_spec {W : World} {hModule : Handle} {found : Bool} {s s' : Scan} {b : Bool}
    (h : report W hModule found s = (s', b)) :
    s'.calls = s.calls ∧ s'.process.ctx = s.process.ctx ∧
      (b = false ↔ found = true ∧ 166 ≤ s.process.ctx.symbols.size) := by
  unfold report at h
  cases found with
  | false =>
    cases h
    simp
  | true =>
    simp only [if_true] at h
    split at h
    case isTrue hs =>
      cases h
      refine ⟨rfl, rfl, ?_⟩
      simpa [Scan.print, Process.print] using hs
    case isFalse hs =>
      cases h
      refine ⟨rfl, rfl, ?_⟩
      simpa [Scan.print, Process.print] using hs

/-- What gathering the entries of a module makes of the context. -/
structure Gathered (core : OdbkCore) (hModule : Handle) (entries : List (String × Addr))
    (ctx ctx' : OdbkLuaContext) (found : Bool) : Prop where
  symbols : ctx'.symbols = ctx.symbols.emplaceAll entries
  found : found = decide (ctx.symbols.size < ctx'.symbols.size)
  keyModule : ctx'.keyModule =
    if ctx.symbols.size < ctx'.symbols.size ∧
        (ctx.keyModule = nullptr ∨ hModule ≠ core.appModule) then hModule
    else ctx.keyModule

theorem Gathered.nothing (core : OdbkCore) (hModule : Handle) (ctx : OdbkLuaContext) :
    Gathered core hModule [] ctx ctx false := by
  refine ⟨(EmplaceMap.emplaceAll_nil _).symm, ?_, ?_⟩
  · simp
  · simp

theorem gatherSymbols_spec (W : World) (core : OdbkCore) (hModule : Handle) (source : SymSource)
    (ctx : OdbkLuaContext) {found : Bool} {ctx' : OdbkLuaContext}
    (h : gatherSymbols W core hModule source ctx = (found, ctx')) :
    Gathered core hModule ((W.luaSymbols hModule source).filterMap (restricted ctx.restricts))
      ctx ctx' found := by
  have hs := gathered_symbols (W.luaSymbols hModule source) ctx
  have hf := gathered_frame (W.luaSymbols hModule source) ctx
  unfold gatherSymbols at h
  generalize (W.luaSymbols hModule source).foldl gatherSymbolsCallback ctx = g at h hs hf
  have hk : g.keyModule = ctx.keyModule := by rw [hf]
  simp only [hk] at h
  split at h
  case isTrue hg =>
    split at h
    case isTrue happ =>
      cases h
      exact ⟨hs, by simp [hg], by rw [if_pos ⟨hg, happ⟩]⟩
    case isFalse happ =>
      cases h
      exact ⟨hs, by simp [hg], by rw [if_neg fun hc => happ hc.2, hk]⟩
  case isFalse hg =>
    cases h
    exact ⟨hs, by simp [hg], by rw [if_neg fun hc => hg hc.1, hk]⟩

/-- **The enumeration** gathers what the module contributes. -/
theorem enumSymbols_spec {W : World} {core : OdbkCore} {hModule : Handle} {o : Opened}
    {dbghelp : DbgFn → Bool} {s s' : Scan} {found : Bool}
    (ho : openSymbols W dbghelp hModule = .ok o)
    (h : enumSymbols W core hModule o.base o.source s = .ok (found, s')) :
    Gathered core hModule (contributions W s.process.ctx.restricts hModule) s.process.ctx
        s'.process.ctx found ∧
      ∃ more, s'.calls = s.calls ++ more ∧ started more = [] := by
  have hof : symbolsOf W hModule = if o.base = 0 then [] else W.luaSymbols hModule o.source := by
    rw [symbolsOf, openSymbols_pointers ho]
  rcases enumSymbols_ok h with ⟨hbase, rfl, rfl⟩ | ⟨hbase, _, hfound, rfl⟩
  · have hc : contributions W s'.process.ctx.restricts hModule = [] := by
      rw [contributions, hof, if_pos hbase]
      rfl
    rw [hc]
    exact ⟨Gathered.nothing core hModule _, [], (List.append_nil _).symm, rfl⟩
  · have hpair : gatherSymbols W core hModule o.source s.process.ctx =
        (found, (gatherSymbols W core hModule o.source s.process.ctx).2) :=
      Prod.ext hfound.symm rfl
    rw [contributions, hof, if_neg hbase]
    exact ⟨gatherSymbols_spec W core hModule o.source s.process.ctx hpair,
      [.symEnumSymbols hModule], rfl, rfl⟩

/-- A visit that finds new functions and leaves the map with all of them. -/
def EarlyReturn (v : Visit Handle Scan) : Prop :=
  v.before.process.ctx.symbols.size < v.after.process.ctx.symbols.size ∧
    166 ≤ v.after.process.ctx.symbols.size

instance (v : Visit Handle Scan) : Decidable (EarlyReturn v) :=
  inferInstanceAs (Decidable (_ ∧ _))

/-- What one visit does. -/
structure VisitSpec (W : World) (core : OdbkCore) (v : Visit Handle Scan) : Prop where
  symbols : v.after.process.ctx.symbols =
    v.before.process.ctx.symbols.emplaceAll
      (contributions W v.before.process.ctx.restricts v.node)
  keyModule : v.after.process.ctx.keyModule =
    if v.before.process.ctx.symbols.size < v.after.process.ctx.symbols.size ∧
        (v.before.process.ctx.keyModule = nullptr ∨ v.node ≠ core.appModule) then v.node
    else v.before.process.ctx.keyModule
  next : v.next = if EarlyReturn v then [] else resolvedImports W v.node
  calls : ∃ more, v.after.calls = v.before.calls ++ .symLoadModule64 v.node .image :: more ∧
    started more = []

theorem visitModule_spec {W : World} {core : OdbkCore} {hModule : Handle} {s s' : Scan} {b : Bool}
    (h : visitModule W core hModule s = .ok (s', b)) :
    VisitSpec W core ⟨hModule, s, s', if b then resolvedImports W hModule else []⟩ := by
  obtain ⟨o, found, s₁, ho, he, hr⟩ := visitModule_ok h
  obtain ⟨more, hmore, hstarted⟩ := openSymbols_calls ho
  have hw := (warnSymFile_frame W hModule o.source o.info
    ((s.markLoaded hModule).record o.calls)).2.1
  have hwc := warnSymFile_calls W hModule o.source o.info
    ((s.markLoaded hModule).record o.calls)
  generalize warnSymFile W hModule o.source o.info
    ((s.markLoaded hModule).record o.calls) = s₀ at he hw hwc
  have hctx₀ : s₀.process.ctx = s.process.ctx := hw
  have hcalls₀ : s₀.calls = s.calls ++ .symLoadModule64 hModule .image :: more := by
    rw [hwc, ← hmore]
    rfl
  obtain ⟨hcalls, hctx, hb⟩ := report_spec hr
  obtain ⟨hgathered, more', hcalls', hstarted'⟩ := enumSymbols_spec ho he
  rw [hctx₀] at hgathered
  obtain ⟨hsym, hfound, hkey⟩ := hgathered
  refine ⟨?_, ?_, ?_, more ++ more', ?_, ?_⟩
  · rw [hctx]
    exact hsym
  · rw [hctx]
    exact hkey
  · have hiff : ∀ next, b = false ↔ EarlyReturn ⟨hModule, s, s', next⟩ := by
      intro next
      rw [hb, hfound, EarlyReturn, hctx, decide_eq_true_eq]
    cases b with
    | false => exact (if_pos ((hiff _).mp rfl)).symm
    | true =>
      have hno : ¬EarlyReturn ⟨hModule, s, s', resolvedImports W hModule⟩ := by
        intro hc
        cases (hiff _).mpr hc
      exact (if_neg hno).symm
  · rw [hcalls, hcalls', hcalls₀, List.append_assoc]
    rfl
  · rw [started_append, hstarted, hstarted']
    rfl

/-! ## Scans as runs -/

/-- The modules a scan starts from. -/
def World.roots (W : World) (core : OdbkCore) : List Handle :=
  W.snapshot.getD [core.appModule]

/-- The scan of `p` visits the modules as in `vs` and ends in `s`. -/
def ScanRun (W : World) (core : OdbkCore) (p : Process) (vs : List (Visit Handle Scan))
    (s : Scan) : Prop :=
  (walker W core).Run (W.roots core) (Scan.init p) vs s

theorem walker_marks (W : World) (core : OdbkCore) : (walker W core).Marks := by
  intro h s s' next hv
  obtain ⟨b, hb, _⟩ := walker_visit hv
  exact (visitModule_frame hb).2

theorem walkAppModules_eq_foldlM (W : World) (core : OdbkCore) (s : Scan) :
    walkAppModules W core s =
      (W.roots core).foldlM (fun s h => (walker W core).go W.depth h s) s := by
  unfold walkAppModules World.roots
  simp only [loadSymFromModule_eq_go]
  cases W.snapshot with
  | some entries => rfl
  | none =>
    rw [Option.getD_none, List.foldlM_cons]
    cases (walker W core).go W.depth core.appModule s <;> rfl

/-- **Scans are runs.** -/
theorem scanRun_of_ok {W : World} {core : OdbkCore} {p : Process} {s : Scan}
    (h : loadSymFromAppModules W core p = .ok s) : ∃ vs, ScanRun W core p vs s := by
  have hwalk := (loadSymFromAppModules_eq_ok.mp h).2.1
  rw [walkAppModules_eq_foldlM] at hwalk
  exact run_of_foldlM (walker W core) W.depth (W.roots core) hwalk

theorem roots_subset_universe (W : World) (core : OdbkCore) :
    ∀ h ∈ W.roots core, h ∈ W.universe core := by
  intro h hh
  unfold World.roots at hh
  cases hs : W.snapshot with
  | none =>
    rw [hs] at hh
    exact List.mem_cons.mpr (Or.inl (List.mem_singleton.mp hh))
  | some entries =>
    rw [hs] at hh
    exact List.mem_cons_of_mem _ (W.snapshot_mem entries hs h hh)

theorem mem_resolvedImports {W : World} {a h : Handle} :
    h ∈ resolvedImports W a ↔
      h ≠ nullptr ∧ ∃ name ∈ W.imports a, W.getModuleHandle name = h := by
  simp only [resolvedImports, List.mem_filter, List.mem_map, decide_eq_true_eq]
  exact and_comm

theorem resolvedImports_subset_universe (W : World) (core : OdbkCore) (a : Handle) :
    ∀ h ∈ resolvedImports W a, h ∈ W.universe core := by
  intro h hh
  obtain ⟨hne, name, _, rfl⟩ := mem_resolvedImports.mp hh
  exact List.mem_cons_of_mem _ (W.getModuleHandle_mem name hne)

theorem length_universe_lt_depth (W : World) (core : OdbkCore) :
    (W.universe core).length < W.depth := by
  simp only [World.universe, List.length_cons, World.depth]
  omega

theorem callDbg_ne_depth {dbghelp : DbgFn → Bool} {f : DbgFn} {e : Fault}
    (h : callDbg dbghelp f = .error e) : e ≠ .depth := by
  unfold callDbg at h
  split at h
  · cases h
  · cases h
    simp

theorem callDbg_bind_error {β : Type} {dbghelp : DbgFn → Bool} {f : DbgFn} {k : Except Fault β}
    {e : Fault} (h : (callDbg dbghelp f >>= fun _ => k) = .error e) :
    e ≠ .depth ∨ k = .error e := by
  cases hc : callDbg dbghelp f with
  | error e' =>
    rw [hc] at h
    cases h
    exact Or.inl (callDbg_ne_depth hc)
  | ok u =>
    rw [hc] at h
    exact Or.inr h

theorem openSymbols_ne_depth {W : World} {dbghelp : DbgFn → Bool} {hModule : Handle} {e : Fault}
    (h : openSymbols W dbghelp hModule = .error e) : e ≠ .depth := by
  unfold openSymbols at h
  rcases callDbg_bind_error h with hne | h
  · exact hne
  rcases callDbg_bind_error h with hne | h
  · exact hne
  split at h
  · cases h
  · split at h
    · rcases callDbg_bind_error h with hne | h
      · exact hne
      rcases callDbg_bind_error h with hne | h
      · exact hne
      dsimp only at h
      split at h
      · exact (callDbg_bind_error h).elim id fun h => by cases h
      · cases h
    · cases h

theorem visitModule_ne_depth {W : World} {core : OdbkCore} {hModule : Handle} {s : Scan}
    {e : Fault} (h : visitModule W core hModule s = .error e) : e ≠ .depth := by
  unfold visitModule at h
  cases ho : openSymbols W s.process.dbghelp hModule with
  | error e' =>
    rw [ho] at h
    cases h
    exact openSymbols_ne_depth ho
  | ok o =>
    rw [ho] at h
    simp only [bind, Except.bind, enumSymbols] at h
    split at h
    case h_1 e' he =>
      cases h
      split at he
      · cases he
      · split at he
        case h_1 e'' hc =>
          cases he
          exact callDbg_ne_depth hc
        case h_2 => cases he
    case h_2 => cases h

theorem walker_bounded (W : World) (core : OdbkCore) :
    (walker W core).Bounded (W.universe core) where
  visits a s s' next h := by
    obtain ⟨b, hb, rfl⟩ := walker_visit h
    have hl : (walker W core).seen s' = a :: (walker W core).seen s := (visitModule_frame hb).2
    rw [hl]
    refine ⟨List.mem_cons_self, fun c hc => List.mem_cons_of_mem _ hc, fun c hc => ?_⟩
    split at hc
    · exact resolvedImports_subset_universe W core a c hc
    · cases hc
  fails a s e h := by
    simp only [walker] at h
    cases hv : visitModule W core a s with
    | error e' =>
      rw [hv] at h
      cases h
      exact visitModule_ne_depth hv
    | ok r =>
      rw [hv] at h
      cases h

/-- **No scan runs out of depth**, whatever calls fault. -/
theorem loadSymFromAppModules_ne_depth (W : World) (core : OdbkCore) (p : Process) :
    loadSymFromAppModules W core p ≠ .error .depth := by
  intro h
  unfold loadSymFromAppModules at h
  cases hl : callDbg p.dbghelp .ldrLockLoaderLock with
  | error e =>
    rw [hl] at h
    cases h
    exact callDbg_ne_depth hl rfl
  | ok u =>
    rw [hl] at h
    cases hw : walkAppModules W core (Scan.init p) with
    | error e =>
      rw [walkAppModules_eq_foldlM] at hw
      obtain ⟨pre, a, post, t, hroots, _, ha⟩ := foldlM_error _ _ hw
      have haU : a ∈ W.universe core := roots_subset_universe W core a (by simp [hroots])
      have hlen : ((walker W core).unseen (W.universe core) t).length < W.depth :=
        Nat.lt_of_le_of_lt (List.length_filter_le _ _) (length_universe_lt_depth W core)
      rw [walkAppModules_eq_foldlM] at h
      rw [hw] at h
      cases h
      exact go_no_overflow (walker_bounded W core) W.depth haU hlen ha rfl
    | ok s =>
      rw [hw] at h
      cases hu : callDbg s.process.dbghelp .ldrUnlockLoaderLock with
      | error e =>
        simp only [bind, Except.bind, hu] at h
        cases h
        exact callDbg_ne_depth hu rfl
      | ok u =>
        simp only [bind, Except.bind, hu] at h
        cases h

/-! ## What a run says -/

section Runs

variable {W : World} {core : OdbkCore} {p : Process} {vs : List (Visit Handle Scan)} {s : Scan}

theorem ScanRun.visit_spec (h : ScanRun W core p vs s) {v : Visit Handle Scan} (hv : v ∈ vs) :
    VisitSpec W core v := by
  obtain ⟨_, _, hvis⟩ := Run.of_mem h hv
  obtain ⟨b, hb, hnext⟩ := walker_visit hvis
  have hspec := visitModule_spec hb
  have hnext' : v.next = if b then resolvedImports W v.node else [] := hnext
  rw [← hnext'] at hspec
  exact hspec

theorem ScanRun.frame (h : ScanRun W core p vs s) {pre post : List (Visit Handle Scan)}
    {v : Visit Handle Scan} (hvs : vs = pre ++ v :: post) : ScanFrame p v.before.process := by
  subst hvs
  refine (Chain.split (Run.chain h)).1.induction (P := fun t => ScanFrame p t.process) ?_
    (ScanFrame.refl p)
  intro u hu hb
  obtain ⟨_, _, hvis⟩ := Run.of_mem h (List.mem_append_left _ hu)
  obtain ⟨b, hvisit, _⟩ := walker_visit hvis
  exact hb.trans (visitModule_frame hvisit).1

theorem ScanRun.restricts (h : ScanRun W core p vs s) {v : Visit Handle Scan} (hv : v ∈ vs) :
    v.before.process.ctx.restricts = p.ctx.restricts := by
  obtain ⟨pre, post, hvs⟩ := List.append_of_mem hv
  exact (h.frame hvs).restricts

theorem ScanRun.symbols (h : ScanRun W core p vs s) {v : Visit Handle Scan} (hv : v ∈ vs) :
    v.after.process.ctx.symbols =
      v.before.process.ctx.symbols.emplaceAll (contributions W p.ctx.restricts v.node) := by
  rw [(h.visit_spec hv).symbols, h.restricts hv]

/-- **Symbols before a visit**: those of the modules visited. -/
theorem ScanRun.symbols_before (h : ScanRun W core p vs s) {pre post : List (Visit Handle Scan)}
    {v : Visit Handle Scan} (hvs : vs = pre ++ v :: post) :
    v.before.process.ctx.symbols =
      symbolsAfter W p.ctx.restricts p.ctx.symbols (pre.map Visit.node) := by
  subst hvs
  refine (Chain.split (Run.chain h)).1.foldl_eq (g := fun t => t.process.ctx.symbols) ?_
  intro u hu
  exact h.symbols (List.mem_append_left _ hu)

/-- Visits of a run that follow each other start their modules, in order. -/
theorem ScanRun.started_chain (h : ScanRun W core p vs s) {us : List (Visit Handle Scan)}
    {t t' : Scan} (hc : Chain t us t') (hus : ∀ u ∈ us, u ∈ vs) :
    Odbk.started t'.calls = Odbk.started t.calls ++ us.map Visit.node := by
  have hf : Odbk.started t'.calls =
      (us.map Visit.node).foldl (fun l a => l ++ [a]) (Odbk.started t.calls) := by
    refine hc.foldl_eq (g := fun t => Odbk.started t.calls) ?_
    intro u hu
    obtain ⟨more, hcalls, hmore⟩ := (h.visit_spec (hus u hu)).calls
    have hm : ∀ m, Odbk.started (.symLoadModule64 u.node .image :: m) = u.node :: Odbk.started m :=
      fun _ => rfl
    rw [hcalls, started_append, hm, hmore]
  rw [hf, List.foldl_append_eq_append, ← List.flatMap_def, List.flatMap_singleton']

/-- **The modules started are the modules visited**, in order. -/
theorem ScanRun.started (h : ScanRun W core p vs s) :
    Odbk.started s.calls = vs.map Visit.node :=
  h.started_chain (Run.chain h) fun _ hu => hu

theorem ScanRun.nodup (h : ScanRun W core p vs s) : (vs.map Visit.node).Nodup :=
  (Run.fresh (walker_marks W core) h).1

theorem ScanRun.mem_seen (h : ScanRun W core p vs s) {a : Handle} :
    a ∈ (walker W core).seen s ↔ a ∈ vs.map Visit.node := by
  have hs := Run.seen (walker_marks W core) h
  have hinit : (walker W core).seen (Scan.init p) = [] := rfl
  rw [hs, hinit, List.append_nil, List.mem_reverse]

/-- Every module to start from is visited, and every import that a visit returned. -/
theorem ScanRun.covers (h : ScanRun W core p vs s) {a : Handle}
    (ha : a ∈ W.roots core ∨ ∃ v ∈ vs, a ∈ v.next) :
    a = core.appInst ∨ a ∈ vs.map Visit.node := by
  obtain ⟨hroots, hnext⟩ := Run.covers (walker_marks W core) h
  have hor : (walker W core).skip a = true ∨ a ∈ (walker W core).seen s := by
    rcases ha with ha | ⟨v, hv, ha⟩
    · exact hroots a ha
    · exact hnext v hv a ha
  rw [h.mem_seen] at hor
  exact hor.imp (fun hk => of_decide_eq_true hk) id

theorem ScanRun.ne_appInst (h : ScanRun W core p vs s) {v : Visit Handle Scan} (hv : v ∈ vs) :
    v.node ≠ core.appInst :=
  of_decide_eq_false (Run.of_mem h hv).1

/-- Visits are told apart by their modules. -/
theorem ScanRun.eq_of_node (h : ScanRun W core p vs s) {u v : Visit Handle Scan} (hu : u ∈ vs)
    (hv : v ∈ vs) (heq : u.node = v.node) : u = v :=
  List.inj_on_of_nodup_map h.nodup hu hv heq

end Runs

/-! ## The order of the import graph -/

/-- The imports walked below a module, with none below `cut`. -/
def importsBelow (W : World) (cut : Option Handle) (hModule : Handle) : List Handle :=
  if cut = some hModule then [] else resolvedImports W hModule

/-- The depth-first order of the modules a scan can come to, where nothing is walked
below `cut`. -/
def importOrder (W : World) (core : OdbkCore) (cut : Option Handle) : List Handle :=
  walkOrder (fun h => decide (h = core.appInst)) (importsBelow W cut) W.depth (W.roots core)

theorem importOrder_spec (W : World) (core : OdbkCore) (cut : Option Handle) :
    WalkOrder (walker W core).skip (importsBelow W cut) (W.roots core) []
      (importOrder W core cut) := by
  refine walkOrder_spec _ _ (roots_subset_universe W core) ?_ (length_universe_lt_depth W core)
  intro a b hb
  unfold importsBelow at hb
  split at hb
  · cases hb
  · exact resolvedImports_subset_universe W core a b hb

section Runs

variable {W : World} {core : OdbkCore} {p : Process} {vs : List (Visit Handle Scan)} {s : Scan}

/-- A scan begins in the order of the import graph, up to the first visit after one that
returned other successors. -/
theorem ScanRun.agree (h : ScanRun W core p vs s) {cut : Option Handle}
    {pre post : List (Visit Handle Scan)} {v : Visit Handle Scan} (hvs : vs = pre ++ v :: post)
    (hnext : ∀ u ∈ pre, importsBelow W cut u.node = u.next) :
    ∃ post', importOrder W core cut = pre.map Visit.node ++ v.node :: post' :=
  Run.agree (walker_marks W core) h (importOrder_spec W core cut) hvs hnext

theorem ScanRun.order (h : ScanRun W core p vs s) {cut : Option Handle}
    (hnext : ∀ v ∈ vs, importsBelow W cut v.node = v.next) :
    importOrder W core cut = vs.map Visit.node :=
  (Run.order (walker_marks W core) h hnext).deterministic (importOrder_spec W core cut)

end Runs

/-! ## Modules due -/

/-- The modules a scan has to start: the ones it starts from and, below one that did not
leave early, the imports that are loaded; `app_inst_` never. -/
inductive Due (W : World) (core : OdbkCore) (vs : List (Visit Handle Scan)) : Handle → Prop
  | root {h : Handle} (hr : h ∈ W.roots core) (hne : h ≠ core.appInst) : Due W core vs h
  | ofImport {v : Visit Handle Scan} {name : String} (hv : v ∈ vs) (hd : Due W core vs v.node)
      (hearly : ¬EarlyReturn v) (hname : name ∈ W.imports v.node)
      (hnull : W.getModuleHandle name ≠ nullptr) (hne : W.getModuleHandle name ≠ core.appInst) :
      Due W core vs (W.getModuleHandle name)

theorem ScanRun.mem_of_due {W : World} {core : OdbkCore} {p : Process}
    {vs : List (Visit Handle Scan)} {s : Scan} (h : ScanRun W core p vs s) {a : Handle}
    (hd : Due W core vs a) : a ∈ vs.map Visit.node := by
  cases hd with
  | root hr hne => exact (h.covers (Or.inl hr)).resolve_left hne
  | @ofImport v name hv _ hearly hname hnull hne =>
    refine (h.covers (Or.inr ⟨v, hv, ?_⟩)).resolve_left hne
    rw [(h.visit_spec hv).next, if_neg hearly]
    exact mem_resolvedImports.mpr ⟨hnull, name, hname, rfl⟩

theorem ScanRun.due_of_mem {W : World} {core : OdbkCore} {p : Process}
    {vs : List (Visit Handle Scan)} {s : Scan} (h : ScanRun W core p vs s)
    {v : Visit Handle Scan} (hv : v ∈ vs) : Due W core vs v.node := by
  have hwithin := Run.within (D := fun a => a = core.appInst ∨ Due W core vs a) h ?_ ?_ v hv
  · exact hwithin.resolve_left (h.ne_appInst hv)
  · intro a ha
    by_cases hne : a = core.appInst
    · exact Or.inl hne
    · exact Or.inr (.root ha hne)
  · intro u hu hd b hb
    have hdu := hd.resolve_left (h.ne_appInst hu)
    rw [(h.visit_spec hu).next] at hb
    split at hb
    case isTrue => cases hb
    case isFalse hearly =>
      obtain ⟨hnull, name, hname, rfl⟩ := mem_resolvedImports.mp hb
      by_cases hne : W.getModuleHandle name = core.appInst
      · exact Or.inl hne
      · exact Or.inr (.ofImport hu hdu hearly hname hnull hne)

/-- **Module walk.** Every scan ends, and returns if every pointer it may call through is
set. One that returns started each module at most once, never `app_inst_`, and exactly
the modules that are due. -/
theorem module_walk (W : World) (core : OdbkCore) (p : Process) :
    loadSymFromAppModules W core p ≠ .error .depth ∧
      ((∀ f, p.dbghelp f = true) → ∃ s, loadSymFromAppModules W core p = .ok s) ∧
      ∀ s, loadSymFromAppModules W core p = .ok s → ∃ vs, ScanRun W core p vs s ∧
        (started s.calls).Nodup ∧ core.appInst ∉ started s.calls ∧
        ∀ h, h ∈ started s.calls ↔ Due W core vs h := by
  refine ⟨loadSymFromAppModules_ne_depth W core p, loadSymFromAppModules_ok W core, ?_⟩
  intro s hs
  obtain ⟨vs, h⟩ := scanRun_of_ok hs
  refine ⟨vs, h, ?_, ?_, ?_⟩
  · rw [h.started]
    exact h.nodup
  · rw [h.started]
    intro hmem
    obtain ⟨v, hv, heq⟩ := List.mem_map.mp hmem
    exact h.ne_appInst hv heq
  · intro a
    rw [h.started]
    constructor
    · intro hmem
      obtain ⟨v, hv, rfl⟩ := List.mem_map.mp hmem
      exact h.due_of_mem hv
    · exact h.mem_of_due

end Odbk
