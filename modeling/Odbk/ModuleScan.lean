import Odbk.Process
import Odbk.Lib.VisitedWalk

/-!
# Scanning the loaded modules for Lua symbols

`load_sym_from_app_modules` walks the module snapshot and, below each module, its
imports, loads the debug symbols of every module once and merges the symbols
named `lua*` that pass the restriction set into `s_ctx->symbols`. Proved here:

* `loadSymFromModule_eq_go`: the recursion is a depth-first walk with a shared
  visited set;
* `loadSymFromModule_induction`, `loadSymFromAppModules_induction`: what every
  module visit keeps, the whole scan keeps;
* `loadSymFromAppModules_ok`: with the dbghelp pointers set the scan returns;
* `scan_frame`: a scan touches neither the API pointers nor the hooks nor the
  version fields; with an empty restriction set it changes no part of the
  context (`loadSymFromAppModules_of_no_restricts`).
-/

namespace Odbk

/-- A call through a pointer of namespace `odbk`. -/
def callDbg (dbghelp : DbgFn → Bool) (f : DbgFn) : Except Fault Unit :=
  if dbghelp f then .ok () else .error (.nullCall f)

/-- The calls that load symbols, in order. -/
inductive ScanCall where
  | symLoadModule64 (h : Handle) (source : SymSource)
  | symEnumSymbols (h : Handle)
  deriving DecidableEq, Repr

/-- An entry of `warned_modules`, a set of `HANDLE`: the code looks module
handles up in it, but inserts the address of its file name buffer. -/
inductive WarnKey where
  | module (h : Handle)
  | fileNameBuffer
  deriving DecidableEq, Repr

structure LoadSymContext where
  loadedModules : List Handle
  warnedModules : List WarnKey
  deriving DecidableEq, Repr

structure Scan where
  process : Process
  context : LoadSymContext
  calls : List ScanCall

def Scan.record (calls : List ScanCall) (s : Scan) : Scan := { s with calls := s.calls ++ calls }

def Scan.print (type : MsgType) (content : String) (s : Scan) : Scan :=
  { s with process := s.process.print type content }

def Scan.markLoaded (h : Handle) (s : Scan) : Scan :=
  { s with context := { s.context with loadedModules := h :: s.context.loadedModules } }

/-! ## One module -/

/-- What loading a module's symbols leaves: the base (`0` on failure), the file
used, the module information if it was found, and the calls made. -/
structure Opened where
  base : Nat
  source : SymSource
  info : Option SymModule
  calls : List ScanCall

/-- Load the symbols of a module, from its `pdb` file if the image has none. -/
def openSymbols (W : World) (dbghelp : DbgFn → Bool) (hModule : Handle) :
    Except Fault Opened := do
  callDbg dbghelp .symLoadModule64
  let base := W.symLoadModule64 hModule .image
  let calls := [.symLoadModule64 hModule .image]
  callDbg dbghelp .symGetModuleInfo64
  match W.symGetModuleInfo64 hModule .image with
  | none => return ⟨base, .image, none, calls⟩
  | some m =>
    -- the symbol file may have been renamed after the module
    if m.symType = .symNone ∧ W.pdbFileExists hModule then
      callDbg dbghelp .symUnloadModule64
      callDbg dbghelp .symLoadModule64
      let base := W.symLoadModule64 hModule .pdb
      let calls := calls ++ [.symLoadModule64 hModule .pdb]
      if base ≠ 0 then
        callDbg dbghelp .symGetModuleInfo64
        return ⟨base, .pdb, W.symGetModuleInfo64 hModule .pdb, calls⟩
      else return ⟨base, .pdb, none, calls⟩
    else return ⟨base, .image, some m, calls⟩

/-- Warn about a symbol file that was located but does not match. -/
def warnSymFile (W : World) (hModule : Handle) (source : SymSource) (result : Option SymModule)
    (s : Scan) : Scan :=
  match result with
  | none => s
  | some m =>
    if m.cvData ≠ "" ∧ (m.symType = .symExport ∨ m.symType = .symNone) ∧
        .module hModule ∉ s.context.warnedModules then
      let s :=
        match W.locateSymFile hModule source with
        | some file => s.print .warn ("Warning 1002: Symbol file '" ++ file ++
            "' located but it does not match module '" ++ W.moduleFileName hModule ++ "'")
        | none => s
      { s with context :=
        { s.context with warnedModules := .fileNameBuffer :: s.context.warnedModules } }
    else s

/-- `gather_symbols_callback` for one reported symbol. -/
def gatherSymbolsCallback (ctx : OdbkLuaContext) (symInfo : Option SymbolInfo) : OdbkLuaContext :=
  match symInfo with
  | some ⟨some name, address⟩ =>
    if name ∈ ctx.restricts then { ctx with symbols := ctx.symbols.emplace name address } else ctx
  | _ => ctx

/-- Run the callback over the symbols of a module and set up the key module;
tells whether any symbol was new. -/
def gatherSymbols (W : World) (core : OdbkCore) (hModule : Handle) (source : SymSource)
    (ctx : OdbkLuaContext) : Bool × OdbkLuaContext :=
  let gathered := (W.luaSymbols hModule source).foldl gatherSymbolsCallback ctx
  if ctx.symbols.size < gathered.symbols.size then
    if gathered.keyModule = nullptr ∨ hModule ≠ core.appModule then
      (true, { gathered with keyModule := hModule, keyModuleName := W.moduleName hModule })
    else (true, gathered)
  else (false, gathered)

def enumSymbols (W : World) (core : OdbkCore) (hModule : Handle) (base : Nat)
    (source : SymSource) (s : Scan) : Except Fault (Bool × Scan) :=
  if base = 0 then .ok (false, s)
  else do
    callDbg s.process.dbghelp .symEnumSymbols
    let s := s.record [.symEnumSymbols hModule]
    let (foundLuaFunctions, ctx) := gatherSymbols W core hModule source s.process.ctx
    return (foundLuaFunctions, { s with process := { s.process with ctx := ctx } })

/-- What is logged about new functions. The result tells whether the imports are
walked: not when the symbols are taken to be complete. -/
def report (W : World) (hModule : Handle) (foundLuaFunctions : Bool) (s : Scan) : Scan × Bool :=
  if foundLuaFunctions then
    let s := s.print .info ("Lua exports API found at '" ++ W.moduleFileName hModule ++
      "'. Symbols loaded")
    if 166 ≤ s.process.ctx.symbols.size then
      (s.print .info "Load lua symbols only required, skip all other module!", false)
    else (s, true)
  else (s, true)

/-- The part of `load_sym_from_module` before the imports, for a module that was
not loaded yet. -/
def visitModule (W : World) (core : OdbkCore) (hModule : Handle) (s : Scan) :
    Except Fault (Scan × Bool) := do
  let o ← openSymbols W s.process.dbghelp hModule
  let (foundLuaFunctions, s) ← enumSymbols W core hModule o.base o.source
    (warnSymFile W hModule o.source o.info ((s.markLoaded hModule).record o.calls))
  return report W hModule foundLuaFunctions s

/-! ## The walk -/

/-- `load_sym_from_module` with a bound on the recursion depth. -/
def loadSymFromModule (W : World) (core : OdbkCore) : Nat → Handle → Scan → Except Fault Scan
  | 0, _, _ => .error .depth
  | fuel + 1, hModule, s =>
    if hModule = core.appInst then .ok s
    else if hModule ∈ s.context.loadedModules then .ok s
    else do
      let (s, walkImports) ← visitModule W core hModule s
      if walkImports then
        (W.imports hModule).foldlM (fun s name =>
          let hImportModule := W.getModuleHandle name
          if hImportModule ≠ nullptr then loadSymFromModule W core fuel hImportModule s
          else .ok s) s
      else return s

/-- More than the longest chain of different modules. -/
def World.depth (W : World) : Nat := W.modules.length + 2

def Scan.init (p : Process) : Scan := ⟨p, ⟨[], []⟩, []⟩

/-- The scan between taking and releasing the loader lock. -/
def walkAppModules (W : World) (core : OdbkCore) (s : Scan) : Except Fault Scan :=
  match W.snapshot with
  | some entries =>
    entries.foldlM (fun s hModule => loadSymFromModule W core W.depth hModule s) s
  | none => loadSymFromModule W core W.depth core.appModule s

/-- `load_sym_from_app_modules` -/
def loadSymFromAppModules (W : World) (core : OdbkCore) (p : Process) : Except Fault Scan := do
  callDbg p.dbghelp .ldrLockLoaderLock
  let s ← walkAppModules W core (Scan.init p)
  callDbg s.process.dbghelp .ldrUnlockLoaderLock
  return s

/-- The scan as a walk: the successors of a module are its resolved imports. -/
def walker (W : World) (core : OdbkCore) : VisitedWalk Handle Scan Fault where
  skip h := decide (h = core.appInst)
  seen s := s.context.loadedModules
  visit h s :=
    match visitModule W core h s with
    | .error e => .error e
    | .ok (s', walkImports) =>
      .ok (s', if walkImports then
        ((W.imports h).map W.getModuleHandle).filter (· ≠ nullptr) else [])
  overflow := .depth

theorem foldlM_resolved (W : World) (f : Scan → Handle → Except Fault Scan) (names : List String)
    (s : Scan) :
    names.foldlM (fun s name =>
        if W.getModuleHandle name ≠ nullptr then f s (W.getModuleHandle name) else .ok s) s =
      ((names.map W.getModuleHandle).filter (· ≠ nullptr)).foldlM f s := by
  induction names generalizing s with
  | nil => rfl
  | cons name names ih =>
    rw [List.foldlM_cons, List.map_cons]
    by_cases h : W.getModuleHandle name = nullptr
    · rw [List.filter_cons_of_neg (by simp [h]), ← ih]
      simp [h, bind, Except.bind]
    · rw [List.filter_cons_of_pos (by simp [h]), List.foldlM_cons]
      simp only [ne_eq, h, not_false_eq_true, if_true]
      congr 1
      funext s'
      exact ih s'

theorem loadSymFromModule_eq_go (W : World) (core : OdbkCore) (fuel : Nat) (h : Handle)
    (s : Scan) : loadSymFromModule W core fuel h s = (walker W core).go fuel h s := by
  induction fuel generalizing h s with
  | zero => rfl
  | succ fuel ih =>
    rw [loadSymFromModule, VisitedWalk.go]
    simp only [walker, decide_eq_true_eq]
    split
    · rfl
    · by_cases hm : h ∈ s.context.loadedModules
      · rw [if_pos hm]
        exact (if_pos hm).symm
      · rw [if_neg hm]
        refine Eq.trans ?_ (if_neg hm).symm
        cases hv : visitModule W core h s with
        | error e => rfl
        | ok r =>
          obtain ⟨s', walkImports⟩ := r
          cases walkImports with
          | false => rfl
          | true =>
            have hf := foldlM_resolved W (fun s b => loadSymFromModule W core fuel b s)
              (W.imports h) s'
            simp only [ih] at hf
            simp only [bind, Except.bind, if_true, ih]
            exact hf

/-! ## What a visit does -/

/-- A scan leaves everything but the symbols, the key module and the log. -/
structure ScanFrame (p q : Process) : Prop where
  ptr : q.ptr = p.ptr
  registry : q.registry = p.registry
  dbghelp : q.dbghelp = p.dbghelp
  ctx : q.ctx = { p.ctx with
    symbols := q.ctx.symbols
    keyModule := q.ctx.keyModule
    keyModuleName := q.ctx.keyModuleName }

theorem ScanFrame.refl (p : Process) : ScanFrame p p := ⟨rfl, rfl, rfl, rfl⟩

theorem ScanFrame.trans {p q r : Process} (h : ScanFrame p q) (h' : ScanFrame q r) :
    ScanFrame p r :=
  ⟨h'.ptr.trans h.ptr, h'.registry.trans h.registry, h'.dbghelp.trans h.dbghelp,
    h'.ctx.trans (by rw [h.ctx])⟩

theorem ScanFrame.restricts {p q : Process} (h : ScanFrame p q) :
    q.ctx.restricts = p.ctx.restricts := by
  rw [h.ctx]

theorem ScanFrame.eq_of_ctx {p q : Process} (h : ScanFrame p q) (hc : q.ctx = p.ctx) :
    q = { p with log := q.log } := by
  obtain ⟨⟨ptr, registry⟩, ctx, dbghelp, log⟩ := p
  obtain ⟨⟨ptr', registry'⟩, ctx', dbghelp', log'⟩ := q
  obtain ⟨hp, hr, hd, _⟩ := h
  simp only at hp hr hd hc
  simp only [hp, hr, hd, hc]

theorem gatherSymbolsCallback_frame (ctx : OdbkLuaContext) (i : Option SymbolInfo) :
    gatherSymbolsCallback ctx i =
      { ctx with symbols := (gatherSymbolsCallback ctx i).symbols } := by
  unfold gatherSymbolsCallback
  split
  · split <;> rfl
  · rfl

theorem gathered_frame (l : List (Option SymbolInfo)) (ctx : OdbkLuaContext) :
    l.foldl gatherSymbolsCallback ctx =
      { ctx with symbols := (l.foldl gatherSymbolsCallback ctx).symbols } := by
  induction l generalizing ctx with
  | nil => rfl
  | cons i l ih =>
    rw [List.foldl_cons, ih, gatherSymbolsCallback_frame ctx i]

/-- Nothing passes an empty restriction set. -/
theorem gathered_of_no_restricts (l : List (Option SymbolInfo)) {ctx : OdbkLuaContext}
    (h : ctx.restricts = []) : l.foldl gatherSymbolsCallback ctx = ctx := by
  induction l with
  | nil => rfl
  | cons i l ih =>
    have hi : gatherSymbolsCallback ctx i = ctx := by
      unfold gatherSymbolsCallback
      split
      · simp [h]
      · rfl
    rw [List.foldl_cons, hi, ih]

theorem gatherSymbols_frame (W : World) (core : OdbkCore) (hModule : Handle) (source : SymSource)
    (ctx : OdbkLuaContext) :
    (gatherSymbols W core hModule source ctx).2 = { ctx with
      symbols := (gatherSymbols W core hModule source ctx).2.symbols
      keyModule := (gatherSymbols W core hModule source ctx).2.keyModule
      keyModuleName := (gatherSymbols W core hModule source ctx).2.keyModuleName } := by
  have hf := gathered_frame (W.luaSymbols hModule source) ctx
  simp only [gatherSymbols]
  generalize (W.luaSymbols hModule source).foldl gatherSymbolsCallback ctx = g at hf ⊢
  rw [hf]
  split
  · split <;> rfl
  · rfl

theorem gatherSymbols_of_no_restricts (W : World) (core : OdbkCore) (hModule : Handle)
    (source : SymSource) {ctx : OdbkLuaContext} (h : ctx.restricts = []) :
    gatherSymbols W core hModule source ctx = (false, ctx) := by
  simp [gatherSymbols, gathered_of_no_restricts _ h]

theorem warnSymFile_frame (W : World) (hModule : Handle) (source : SymSource)
    (info : Option SymModule) (s : Scan) :
    ScanFrame s.process (warnSymFile W hModule source info s).process ∧
      (warnSymFile W hModule source info s).process.ctx = s.process.ctx ∧
      (warnSymFile W hModule source info s).context.loadedModules = s.context.loadedModules := by
  unfold warnSymFile
  split
  · exact ⟨ScanFrame.refl _, rfl, rfl⟩
  · split
    · split <;> exact ⟨⟨rfl, rfl, rfl, rfl⟩, rfl, rfl⟩
    · exact ⟨ScanFrame.refl _, rfl, rfl⟩

theorem enumSymbols_ok {W : World} {core : OdbkCore} {hModule : Handle} {base : Nat}
    {source : SymSource} {s s' : Scan} {found : Bool}
    (h : enumSymbols W core hModule base source s = .ok (found, s')) :
    (base = 0 ∧ found = false ∧ s' = s) ∨
      (base ≠ 0 ∧ s.process.dbghelp .symEnumSymbols = true ∧
        found = (gatherSymbols W core hModule source s.process.ctx).1 ∧
        s' = { s.record [.symEnumSymbols hModule] with process := { s.process with
          ctx := (gatherSymbols W core hModule source s.process.ctx).2 } }) := by
  unfold enumSymbols at h
  split at h
  case isTrue hb =>
    cases h
    exact Or.inl ⟨hb, rfl, rfl⟩
  case isFalse hb =>
    cases hd : s.process.dbghelp .symEnumSymbols with
    | false => simp [callDbg, hd, bind, Except.bind] at h
    | true =>
      simp only [callDbg, hd, if_true, bind, Except.bind, pure, Except.pure] at h
      cases h
      exact Or.inr ⟨hb, rfl, rfl, rfl⟩

/-- **One visit**, step by step. -/
theorem visitModule_ok {W : World} {core : OdbkCore} {hModule : Handle} {s s' : Scan} {b : Bool}
    (h : visitModule W core hModule s = .ok (s', b)) :
    ∃ o found s₁, openSymbols W s.process.dbghelp hModule = .ok o ∧
      enumSymbols W core hModule o.base o.source
        (warnSymFile W hModule o.source o.info ((s.markLoaded hModule).record o.calls)) =
          .ok (found, s₁) ∧
      report W hModule found s₁ = (s', b) := by
  unfold visitModule at h
  cases ho : openSymbols W s.process.dbghelp hModule with
  | error e =>
    rw [ho] at h
    cases h
  | ok o =>
    rw [ho] at h
    cases he : enumSymbols W core hModule o.base o.source
        (warnSymFile W hModule o.source o.info ((s.markLoaded hModule).record o.calls)) with
    | error e =>
      simp only [bind, Except.bind, he] at h
      cases h
    | ok r =>
      simp only [bind, Except.bind, he, pure, Except.pure, Except.ok.injEq] at h
      exact ⟨o, r.1, r.2, rfl, he, h⟩

theorem report_frame (W : World) (hModule : Handle) (found : Bool) (s : Scan) :
    ScanFrame s.process (report W hModule found s).1.process ∧
      (report W hModule found s).1.process.ctx = s.process.ctx ∧
      (report W hModule found s).1.context = s.context := by
  unfold report
  split
  · simp only
    split <;> exact ⟨⟨rfl, rfl, rfl, rfl⟩, rfl, rfl⟩
  · exact ⟨ScanFrame.refl _, rfl, rfl⟩

theorem enumSymbols_frame {W : World} {core : OdbkCore} {hModule : Handle} {base : Nat}
    {source : SymSource} {s s' : Scan} {found : Bool}
    (h : enumSymbols W core hModule base source s = .ok (found, s')) :
    ScanFrame s.process s'.process ∧ s'.context = s.context := by
  rcases enumSymbols_ok h with ⟨_, _, rfl⟩ | ⟨_, _, _, rfl⟩
  · exact ⟨ScanFrame.refl _, rfl⟩
  · exact ⟨⟨rfl, rfl, rfl, gatherSymbols_frame W core hModule source s.process.ctx⟩, rfl⟩

/-- **A visit** marks its module and touches nothing outside the frame. -/
theorem visitModule_frame {W : World} {core : OdbkCore} {hModule : Handle} {s s' : Scan}
    {b : Bool} (h : visitModule W core hModule s = .ok (s', b)) :
    ScanFrame s.process s'.process ∧
      s'.context.loadedModules = hModule :: s.context.loadedModules := by
  obtain ⟨o, found, s₁, _, he, hr⟩ := visitModule_ok h
  obtain ⟨hw, _, hwl⟩ := warnSymFile_frame W hModule o.source o.info
    ((s.markLoaded hModule).record o.calls)
  obtain ⟨hef, hec⟩ := enumSymbols_frame he
  obtain ⟨hrf, _, hrc⟩ := report_frame W hModule found s₁
  rw [hr] at hrf hrc
  refine ⟨(ScanFrame.trans hw hef).trans hrf, ?_⟩
  rw [hrc, hec, hwl]
  rfl

/-- With an empty restriction set a visit finds nothing and goes on. -/
theorem visitModule_of_no_restricts {W : World} {core : OdbkCore} {hModule : Handle}
    {s s' : Scan} {b : Bool} (hs : s.process.ctx.restricts = [])
    (h : visitModule W core hModule s = .ok (s', b)) :
    b = true ∧ s'.process.ctx = s.process.ctx := by
  obtain ⟨o, found, s₁, _, he, hr⟩ := visitModule_ok h
  obtain ⟨_, hwc, _⟩ := warnSymFile_frame W hModule o.source o.info
    ((s.markLoaded hModule).record o.calls)
  have hwr : (warnSymFile W hModule o.source o.info
      ((s.markLoaded hModule).record o.calls)).process.ctx = s.process.ctx := hwc
  have hg := gatherSymbols_of_no_restricts W core hModule o.source hs
  have hfound : found = false ∧ s₁.process.ctx = s.process.ctx := by
    rcases enumSymbols_ok he with ⟨_, hf, rfl⟩ | ⟨_, _, hf, rfl⟩
    · exact ⟨hf, hwr⟩
    · rw [hwr, hg] at hf
      refine ⟨hf, ?_⟩
      simp only [hwr, hg]
  obtain ⟨rfl, hctx⟩ := hfound
  have hr' : (s₁, true) = (s', b) := hr
  cases hr'
  exact ⟨rfl, hctx⟩

/-! ## What a scan keeps -/

theorem walker_visit {W : World} {core : OdbkCore} {hModule : Handle} {s s' : Scan}
    {next : List Handle} (h : (walker W core).visit hModule s = .ok (s', next)) :
    ∃ b, visitModule W core hModule s = .ok (s', b) ∧
      next =
        if b then ((W.imports hModule).map W.getModuleHandle).filter (· ≠ nullptr) else [] := by
  simp only [walker] at h
  cases hv : visitModule W core hModule s with
  | error e =>
    rw [hv] at h
    cases h
  | ok r =>
    rw [hv] at h
    cases h
    exact ⟨r.2, rfl, rfl⟩

/-- What every visit of a module not loaded yet keeps, a walk keeps. -/
theorem loadSymFromModule_induction {W : World} {core : OdbkCore} {P : Scan → Prop}
    (hv : ∀ h s s' b, h ≠ core.appInst → h ∉ s.context.loadedModules → P s →
      visitModule W core h s = .ok (s', b) → P s')
    {fuel : Nat} {h : Handle} {s s' : Scan} (hs : P s)
    (hok : loadSymFromModule W core fuel h s = .ok s') : P s' := by
  rw [loadSymFromModule_eq_go] at hok
  refine VisitedWalk.go_induction (walker W core) ?_ fuel h hs hok
  intro a s s' next hk hm hs hvis
  obtain ⟨b, hb, _⟩ := walker_visit hvis
  exact hv a s s' b (by simpa [walker] using hk) hm hs hb

theorem walkAppModules_induction {W : World} {core : OdbkCore} {P : Scan → Prop}
    (hv : ∀ h s s' b, h ≠ core.appInst → h ∉ s.context.loadedModules → P s →
      visitModule W core h s = .ok (s', b) → P s')
    {s s' : Scan} (hs : P s) (hok : walkAppModules W core s = .ok s') : P s' := by
  unfold walkAppModules at hok
  split at hok
  · exact VisitedWalk.foldlM_induction _ P _
      (fun _ _ _ _ hs h => loadSymFromModule_induction hv hs h) hs hok
  · exact loadSymFromModule_induction hv hs hok

theorem loadSymFromAppModules_eq_ok {W : World} {core : OdbkCore} {p : Process} {s : Scan} :
    loadSymFromAppModules W core p = .ok s ↔
      p.dbghelp .ldrLockLoaderLock = true ∧ walkAppModules W core (Scan.init p) = .ok s ∧
        s.process.dbghelp .ldrUnlockLoaderLock = true := by
  unfold loadSymFromAppModules
  cases hl : p.dbghelp .ldrLockLoaderLock with
  | false => simp [callDbg, hl, bind, Except.bind]
  | true =>
    cases hw : walkAppModules W core (Scan.init p) with
    | error e => simp [callDbg, hl, bind, Except.bind]
    | ok s₁ =>
      cases hu : s₁.process.dbghelp .ldrUnlockLoaderLock with
      | false =>
        simp only [callDbg, hl, hu, if_true, bind, Except.bind]
        constructor
        · intro h
          cases h
        · rintro ⟨_, h, hs⟩
          cases h
          rw [hu] at hs
          cases hs
      | true =>
        simp only [callDbg, hl, hu, if_true, bind, Except.bind, pure, Except.pure]
        constructor
        · intro h
          cases h
          exact ⟨trivial, rfl, hu⟩
        · rintro ⟨_, h, _⟩
          exact h

/-- **Scan rule.** What every first visit of a module keeps, the scan keeps. -/
theorem loadSymFromAppModules_induction {W : World} {core : OdbkCore} {P : Scan → Prop}
    (hv : ∀ h s s' b, h ≠ core.appInst → h ∉ s.context.loadedModules → P s →
      visitModule W core h s = .ok (s', b) → P s')
    {p : Process} {s : Scan} (hs : P (Scan.init p))
    (hok : loadSymFromAppModules W core p = .ok s) : P s :=
  walkAppModules_induction hv hs (loadSymFromAppModules_eq_ok.mp hok).2.1

/-- **Frame of the scan.** -/
theorem scan_frame {W : World} {core : OdbkCore} {p : Process} {s : Scan}
    (h : loadSymFromAppModules W core p = .ok s) : ScanFrame p s.process :=
  loadSymFromAppModules_induction (P := fun s => ScanFrame p s.process)
    (fun _ _ _ _ _ _ hs hv => hs.trans (visitModule_frame hv).1) (ScanFrame.refl p) h

/-- **No restrictions, no symbols.** A scan with an empty restriction set leaves
the whole context alone. -/
theorem loadSymFromAppModules_of_no_restricts {W : World} {core : OdbkCore} {p : Process}
    {s : Scan} (hr : p.ctx.restricts = []) (h : loadSymFromAppModules W core p = .ok s) :
    s.process.ctx = p.ctx := by
  refine loadSymFromAppModules_induction (P := fun s => s.process.ctx = p.ctx) ?_ rfl h
  intro a s s' b _ _ hs hv
  rw [(visitModule_of_no_restricts (by rw [hs, hr]) hv).2, hs]

/-! ## When a scan returns -/

theorem openSymbols_ok (W : World) {dbghelp : DbgFn → Bool} (hd : ∀ f, dbghelp f = true)
    (hModule : Handle) : ∃ o, openSymbols W dbghelp hModule = .ok o := by
  simp only [openSymbols, callDbg, hd, if_true, bind, Except.bind, pure, Except.pure]
  split
  · exact ⟨_, rfl⟩
  · split
    · split <;> exact ⟨_, rfl⟩
    · exact ⟨_, rfl⟩

theorem visitModule_returns_iff (W : World) (core : OdbkCore) (hModule : Handle) (s : Scan) :
    (∃ s' b, visitModule W core hModule s = .ok (s', b)) ↔
      ∃ o, openSymbols W s.process.dbghelp hModule = .ok o ∧
        (o.base = 0 ∨ s.process.dbghelp .symEnumSymbols = true) := by
  constructor
  · rintro ⟨s', b, h⟩
    obtain ⟨o, found, s₁, ho, he, _⟩ := visitModule_ok h
    refine ⟨o, ho, ?_⟩
    rcases enumSymbols_ok he with ⟨hb, _⟩ | ⟨_, hd, _⟩
    · exact Or.inl hb
    · rw [(warnSymFile_frame W hModule o.source o.info _).1.dbghelp] at hd
      exact Or.inr hd
  · rintro ⟨o, ho, hd⟩
    unfold visitModule
    rw [ho]
    simp only [bind, Except.bind, pure, Except.pure, enumSymbols]
    by_cases hb : o.base = 0
    · rw [if_pos hb]
      exact ⟨_, _, rfl⟩
    · have hd' : (warnSymFile W hModule o.source o.info
          ((s.markLoaded hModule).record o.calls)).process.dbghelp .symEnumSymbols = true := by
        rw [(warnSymFile_frame W hModule o.source o.info _).1.dbghelp]
        exact hd.resolve_left hb
      rw [if_neg hb]
      simp only [callDbg, hd', if_true]
      exact ⟨_, _, rfl⟩

theorem visitModule_returns (W : World) (core : OdbkCore) (hModule : Handle) {s : Scan}
    (hd : ∀ f, s.process.dbghelp f = true) :
    ∃ s' b, visitModule W core hModule s = .ok (s', b) := by
  obtain ⟨o, ho⟩ := openSymbols_ok W hd hModule
  exact (visitModule_returns_iff W core hModule s).mpr ⟨o, ho, Or.inr (hd _)⟩

/-- The modules a walk can meet. -/
def World.universe (W : World) (core : OdbkCore) : List Handle := core.appModule :: W.modules

theorem walker_progress (W : World) (core : OdbkCore) :
    (walker W core).Progress (W.universe core) fun s => ∀ f, s.process.dbghelp f = true where
  visits a s _ _ hd := by
    obtain ⟨s', b, hv⟩ := visitModule_returns W core a hd
    obtain ⟨hf, hl⟩ := visitModule_frame hv
    have hvis : (walker W core).visit a s = .ok (s',
        if b then ((W.imports a).map W.getModuleHandle).filter (· ≠ nullptr) else []) := by
      simp only [walker, hv]
    refine ⟨s', _, hvis, ?_, ?_, ?_, ?_⟩
    · intro f
      rw [hf.dbghelp]
      exact hd f
    · simp [walker, hl]
    · intro c hc
      simp only [walker, hl]
      exact List.mem_cons_of_mem _ hc
    · intro c hc
      split at hc
      case isTrue =>
        obtain ⟨hc, hne⟩ := List.mem_filter.mp hc
        obtain ⟨name, _, rfl⟩ := List.mem_map.mp hc
        exact List.mem_cons_of_mem _ (W.getModuleHandle_mem name (by simpa using hne))
      case isFalse => cases hc

/-- **The scan returns** when every pointer of namespace `odbk` is set. -/
theorem loadSymFromAppModules_ok (W : World) (core : OdbkCore) {p : Process}
    (hd : ∀ f, p.dbghelp f = true) : ∃ s, loadSymFromAppModules W core p = .ok s := by
  have hone : ∀ s h, h ∈ W.universe core → (∀ f, s.process.dbghelp f = true) →
      ∃ s', loadSymFromModule W core W.depth h s = .ok s' ∧
        ∀ f, s'.process.dbghelp f = true := by
    intro s h hh hs
    have hlen : ((walker W core).unseen (W.universe core) s).length < W.depth := by
      have hle : ((walker W core).unseen (W.universe core) s).length ≤
          (W.universe core).length := List.length_filter_le _ _
      simp only [World.universe, List.length_cons, World.depth] at hle ⊢
      omega
    obtain ⟨s', h', hI, _⟩ := VisitedWalk.go_ok (walker_progress W core) W.depth hh hs hlen
    exact ⟨s', by rw [loadSymFromModule_eq_go, h'], hI⟩
  have hwalk : ∃ s, walkAppModules W core (Scan.init p) = .ok s ∧
      ∀ f, s.process.dbghelp f = true := by
    unfold walkAppModules
    cases hs : W.snapshot with
    | none => exact hone _ _ (List.mem_cons_self ..) hd
    | some entries =>
      exact VisitedWalk.foldlM_ok _ (fun s => ∀ f, s.process.dbghelp f = true) entries
        (fun s h hm hs' => hone s h (List.mem_cons_of_mem _ (W.snapshot_mem entries hs h hm)) hs')
        (Scan.init p) hd
  obtain ⟨s, hs, hs'⟩ := hwalk
  exact ⟨s, loadSymFromAppModules_eq_ok.mpr ⟨hd _, hs, hs' _⟩⟩

/-! ## Scans that take the same course -/

/-- States that scans cannot tell apart: no symbol can be found in either. -/
structure Alike (s t : Scan) : Prop where
  context : s.context = t.context
  dbghelp : s.process.dbghelp = t.process.dbghelp
  left : s.process.ctx.restricts = []
  right : t.process.ctx.restricts = []

theorem context_warnSymFile {W : World} (hModule : Handle) (source : SymSource)
    (info : Option SymModule) {s t : Scan} (h : s.context = t.context) :
    (warnSymFile W hModule source info s).context =
      (warnSymFile W hModule source info t).context := by
  unfold warnSymFile
  rw [h]
  split
  · exact h
  · split
    · simp only
      split <;> simp only [Scan.print, h]
    · exact h

theorem context_visitModule {W : World} {core : OdbkCore} {hModule : Handle} {s s' : Scan}
    {b : Bool} (h : visitModule W core hModule s = .ok (s', b)) :
    ∃ o, openSymbols W s.process.dbghelp hModule = .ok o ∧
      s'.context = (warnSymFile W hModule o.source o.info
        ((s.markLoaded hModule).record o.calls)).context := by
  obtain ⟨o, found, s₁, ho, he, hr⟩ := visitModule_ok h
  have hrc := (report_frame W hModule found s₁).2.2
  rw [hr] at hrc
  exact ⟨o, ho, hrc.trans (enumSymbols_frame he).2⟩

theorem visitModule_alike {W : World} {core : OdbkCore} {hModule : Handle} {s t s' : Scan}
    {b : Bool} (h : Alike s t) (hs : visitModule W core hModule s = .ok (s', b)) :
    ∃ t', visitModule W core hModule t = .ok (t', b) ∧ Alike s' t' := by
  have hret := (visitModule_returns_iff W core hModule s).mp ⟨s', b, hs⟩
  rw [h.dbghelp] at hret
  obtain ⟨t', b', ht⟩ := (visitModule_returns_iff W core hModule t).mpr hret
  obtain ⟨rfl, hsc⟩ := visitModule_of_no_restricts h.left hs
  obtain ⟨rfl, htc⟩ := visitModule_of_no_restricts h.right ht
  obtain ⟨o, ho, hos⟩ := context_visitModule hs
  obtain ⟨o', ho', hot⟩ := context_visitModule ht
  rw [h.dbghelp, ho'] at ho
  cases ho
  refine ⟨t', ht, ?_, ?_, by rw [hsc, h.left], by rw [htc, h.right]⟩
  · have hm : ((s.markLoaded hModule).record o.calls).context =
        ((t.markLoaded hModule).record o.calls).context := by
      simp only [Scan.record, Scan.markLoaded, h.context]
    rw [hos, hot, context_warnSymFile hModule o.source o.info hm]
  · rw [(visitModule_frame hs).1.dbghelp, (visitModule_frame ht).1.dbghelp, h.dbghelp]

theorem walker_simulates (W : World) (core : OdbkCore) : (walker W core).Simulates Alike where
  seen s t h := by simp only [walker, h.context]
  visits a s t s' next h hs := by
    obtain ⟨b, hv, rfl⟩ := walker_visit hs
    obtain ⟨t', ht, hA⟩ := visitModule_alike h hv
    exact ⟨t', by simp only [walker, ht], hA⟩

/-- **Same course.** With empty restriction sets, whether a scan returns depends on
the dbghelp pointers alone. -/
theorem loadSymFromAppModules_alike {W : World} {core : OdbkCore} {p q : Process} {s : Scan}
    (hd : p.dbghelp = q.dbghelp) (hp : p.ctx.restricts = []) (hq : q.ctx.restricts = [])
    (h : loadSymFromAppModules W core p = .ok s) : ∃ t, loadSymFromAppModules W core q = .ok t := by
  obtain ⟨hlock, hwalk, hunlock⟩ := loadSymFromAppModules_eq_ok.mp h
  have hone : ∀ s t s' a, Alike s t → loadSymFromModule W core W.depth a s = .ok s' →
      ∃ t', loadSymFromModule W core W.depth a t = .ok t' ∧ Alike s' t' := by
    intro s t s' a hA hs
    rw [loadSymFromModule_eq_go] at hs ⊢
    exact VisitedWalk.go_sim (walker_simulates W core) W.depth a hA hs
  have hinit : Alike (Scan.init p) (Scan.init q) := ⟨rfl, hd, hp, hq⟩
  have hw : ∃ t, walkAppModules W core (Scan.init q) = .ok t ∧ Alike s t := by
    unfold walkAppModules at hwalk ⊢
    cases hs : W.snapshot with
    | none =>
      rw [hs] at hwalk
      exact hone _ _ _ _ hinit hwalk
    | some entries =>
      rw [hs] at hwalk
      exact VisitedWalk.foldlM_sim _ Alike entries (fun s t s' a => hone s t s' a) hinit hwalk
  obtain ⟨t, ht, hA⟩ := hw
  exact ⟨t, loadSymFromAppModules_eq_ok.mpr ⟨hd ▸ hlock, ht, hA.dbghelp ▸ hunlock⟩⟩

end Odbk
