import Odbk.Provenance

/-!
# Loads as bindings of tables

What a sequence of loads leaves is a function of the tables they bind, and these are a
function of the exports read. Proved here:

* `load_refines`, `loadAll_refines`: loads, accepted or not, run an abstract binder;
* `bindAll_ptr`, `bindAll_version`, `bindAll_hookTailCall`: in it the last table that
  says something wins;
* `load_again`: a load repeated changes nothing that is bound;
* `errors_loadAll`: the errors logged tell which required function each table lacks;
* `log_run`: the log only grows, by lines that end alike;
* `api_complete`: what an accepted load and the hooks over it leave set.
-/

namespace Odbk

open BindScript

/-! ## The abstract binder -/

/-- What is bound: the symbols, the API pointers and the version fields. -/
structure Bound where
  symbols : Symbols
  ptr : Fn → Option (Code Addr)
  version : Int
  registryIndex : Int
  globalsIndex : Int
  hookTailCall : Int

def Process.bound (p : Process) : Bound :=
  ⟨p.ctx.symbols, p.ptr, p.ctx.version, p.ctx.registryIndex, p.ctx.globalsIndex,
    p.ctx.hookTailCall⟩

/-- What binding a table stores in a pointer; nothing if no step run is the pointer's. -/
def assigned (T : Symbols) (f : Fn) : Option (Option (Code Addr)) :=
  (detectVersion T).bind fun v =>
    ((executed T v).filter fun s => s.slot = f).getLast?.map fun s =>
      firstOf (getLuaFn T) s.names

/-- Bind a table: the pointers it has something for, and the fields of its version. -/
def Bound.bind (b : Bound) (T : Symbols) : Bound where
  symbols := T
  ptr f := (assigned T f).getD (b.ptr f)
  version := (detectVersion T).elim b.version LuaVersion.version
  registryIndex := (detectVersion T).elim b.registryIndex LuaVersion.registryIndex
  globalsIndex := (detectVersion T).elim b.globalsIndex LuaVersion.globalsIndex
  hookTailCall := ((detectVersion T).bind LuaVersion.hookTailCall).getD b.hookTailCall

/-- The tables that loads bind one after the other. -/
def tablesOf : List (World × Handle) → Symbols → List Symbols
  | [], _ => []
  | (W, hLua) :: l, leftover =>
    boundTable W hLua leftover :: tablesOf l (boundTable W hLua leftover)

theorem leftPtr_eq (T : Symbols) (p : Process) (f : Fn) :
    leftPtr T p f = (assigned T f).getD (p.ptr f) := by
  rw [leftPtr, assigned]
  cases detectVersion T with
  | none => rfl
  | some v =>
    simp only [Option.bind_some]
    cases ((executed T v).filter fun s => s.slot = f).getLast? <;> rfl

/-- What is assigned comes from the table alone. -/
theorem find_of_assigned {T : Symbols} {f : Fn} {o : Option (Code Addr)}
    (h : assigned T f = some o) :
    o = none ∨ ∃ a, o = some (.image a) ∧ ∃ n ∈ lookedUp f, T.find? n = some a := by
  obtain ⟨v, _, hlast⟩ := Option.bind_eq_some_iff.mp h
  obtain ⟨s, hs, rfl⟩ := Option.map_eq_some_iff.mp hlast
  obtain ⟨hex, hslot⟩ := List.mem_filter.mp (List.mem_of_getLast? hs)
  obtain rfl := of_decide_eq_true hslot
  cases hc : firstOf (getLuaFn T) s.names with
  | none => exact Or.inl rfl
  | some c =>
    obtain ⟨a, rfl, _, n, hn, hna⟩ := find_of_executed hex hc
    exact Or.inr ⟨a, rfl, n, hn, hna⟩

/-- An accepted table assigns all that it does not spare. -/
theorem assigned_of_accepts {T : Symbols} (ha : accepts T = true) (f : Fn) :
    assigned T f = if spared T f then none else some (offer T f) := by
  obtain ⟨v, hv, hm⟩ := (accepts_iff T).mp ha
  have he : executed T v = selected T v := reached_of_find?_none _ _ hm
  rw [assigned, hv, Option.bind_some, he]
  exact last_selected T v f

theorem bound_odbkLuaFinishLoad (p : Process) :
    (odbkLuaFinishLoad p).1.bound = p.bound.bind p.ctx.symbols := by
  have hctx := ctx_odbkLuaFinishLoad p
  have hptr := ptr_odbkLuaFinishLoad p
  generalize (odbkLuaFinishLoad p).1 = q at hctx hptr
  cases hv : detectVersion p.ctx.symbols with
  | none =>
    rw [hv] at hctx hptr
    simp only at hctx hptr
    simp [Process.bound, Bound.bind, hctx, hptr, hv, assigned]
  | some v =>
    rw [hv] at hctx hptr
    simp only at hctx hptr
    have hassign : ∀ f, q.ptr f = (assigned p.ctx.symbols f).getD (p.ptr f) := by
      intro f
      rw [hptr, foldl_assign, assigned, hv, Option.bind_some]
      cases ((executed p.ctx.symbols v).filter fun s => s.slot = f).getLast? <;> rfl
    simp [Process.bound, Bound.bind, hctx, hv, funext hassign, OdbkLuaContext.setVersion]

/-- Up to its binding a load changes the symbols only, as far as it is bound. -/
theorem load_fills {W : World} {core : OdbkCore} {hLua : Handle} {p : Process}
    {r : Process × Bool} (hp : Configured p) (h : odbkLoadLuaInternal W core hLua p = .ok r) :
    ∃ q, r = odbkLuaFinishLoad q ∧
      q.bound = { p.bound with symbols := boundTable W hLua p.ctx.symbols } := by
  by_cases hn : hLua = nullptr
  · subst hn
    obtain ⟨log, rfl⟩ := odbkLoadLuaInternal_process hp h
    exact ⟨_, rfl, by simp [Process.bound, merged, boundTable, exportsOf]⟩
  · rw [odbkLoadLuaInternal_module W core hn, Except.ok.injEq] at h
    subst h
    refine ⟨_, rfl, ?_⟩
    simp [Process.bound, Process.withSymbols, moduleTable, odbkGetExports, boundTable, exportsOf,
      hn]

/-- **Step lemma.** A load binds its table and returns whether the table is accepted. -/
theorem load_refines {W : World} {core : OdbkCore} {hLua : Handle} {p q : Process} {b : Bool}
    (hp : Configured p) (h : odbkLoadLuaInternal W core hLua p = .ok (q, b)) :
    q.bound = p.bound.bind (boundTable W hLua p.ctx.symbols) ∧
      b = accepts (boundTable W hLua p.ctx.symbols) := by
  refine ⟨?_, load_snd hp h⟩
  obtain ⟨x, hx, hbound⟩ := load_fills hp h
  have hsym : x.ctx.symbols = boundTable W hLua p.ctx.symbols := congrArg Bound.symbols hbound
  rw [show q = (odbkLuaFinishLoad x).1 from congrArg Prod.fst hx, bound_odbkLuaFinishLoad, hsym,
    hbound]
  rfl

/-- **Any sequence of loads** binds its tables one after the other. -/
theorem loadAll_refines {core : OdbkCore} {l : List (World × Handle)} {p q : Process}
    (hp : Configured p) (h : loadAll core l p = .ok q) :
    q.bound = (tablesOf l p.ctx.symbols).foldl Bound.bind p.bound := by
  induction l generalizing p with
  | nil =>
    cases h
    rfl
  | cons e l ih =>
    obtain ⟨W, hLua⟩ := e
    rw [loadAll] at h
    cases hl : odbkLoadLuaInternal W core hLua p with
    | error e =>
      rw [hl] at h
      cases h
    | ok r =>
      obtain ⟨p', b⟩ := r
      rw [hl] at h
      have hstep := (load_refines hp hl).1
      have hsym : p'.ctx.symbols = boundTable W hLua p.ctx.symbols := congrArg Bound.symbols hstep
      rw [ih (configured_load hp hl) h, hsym, hstep, tablesOf, List.foldl_cons]

/-! ## The last table wins -/

/-- A component that each table sets or leaves holds what the last table that sets it
gives. -/
theorem foldl_bind_component {β : Type} (get : Bound → β) (set : Symbols → Option β)
    (hstep : ∀ b T, get (b.bind T) = (set T).getD (get b)) (tables : List Symbols) (b : Bound) :
    get (tables.foldl Bound.bind b) = ((tables.filterMap set).getLast?).getD (get b) := by
  induction tables using List.reverseRecOn with
  | nil => rfl
  | append_singleton tables T ih =>
    rw [List.foldl_append, List.foldl_cons, List.foldl_nil, hstep, ih, List.filterMap_append]
    cases hs : set T with
    | none => simp [hs]
    | some x => simp [hs]

/-- What the last table that assigns a pointer stores in it. -/
def lastAssigned (tables : List Symbols) (f : Fn) : Option (Option (Code Addr)) :=
  (tables.filterMap fun T => assigned T f).getLast?

/-- The version of the last table that has one. -/
def lastVersion (tables : List Symbols) : Option LuaVersion :=
  (tables.filterMap detectVersion).getLast?

theorem lastAssigned_pair (T T' : Symbols) (f : Fn) :
    lastAssigned [T, T'] f = (assigned T' f).or (assigned T f) := by
  rw [lastAssigned]
  cases h : assigned T f <;> cases h' : assigned T' f <;> simp [h, h']

theorem bindAll_ptr (tables : List Symbols) (b : Bound) (f : Fn) :
    (tables.foldl Bound.bind b).ptr f = (lastAssigned tables f).getD (b.ptr f) :=
  foldl_bind_component (fun b => b.ptr f) (fun T => assigned T f) (fun _ _ => rfl) tables b

theorem bindAll_symbols (tables : List Symbols) (b : Bound) :
    (tables.foldl Bound.bind b).symbols = tables.getLast?.getD b.symbols := by
  have h := foldl_bind_component Bound.symbols some (fun _ _ => rfl) tables b
  rwa [List.filterMap_some] at h

/-- A field that a table with a version sets, and no other. -/
theorem bindAll_version {get : Bound → Int} {field : LuaVersion → Int}
    (hstep : ∀ b T, get (b.bind T) = (detectVersion T).elim (get b) field)
    (tables : List Symbols) (b : Bound) :
    get (tables.foldl Bound.bind b) = (lastVersion tables).elim (get b) field := by
  have h := foldl_bind_component get (fun T => (detectVersion T).map field) (fun b T => by
    rw [hstep]
    cases detectVersion T <;> rfl) tables b
  rw [h, ← List.map_filterMap, List.getLast?_map, lastVersion]
  cases (tables.filterMap detectVersion).getLast? <;> rfl

theorem bindAll_hookTailCall (tables : List Symbols) (b : Bound) :
    (tables.foldl Bound.bind b).hookTailCall =
      ((tables.filterMap fun T =>
        (detectVersion T).bind LuaVersion.hookTailCall).getLast?).getD b.hookTailCall :=
  foldl_bind_component Bound.hookTailCall _ (fun _ _ => rfl) tables b

/-- **What a history of loads leaves bound.** After any loads in a new process, accepted
or not, each pointer holds what the last table that assigns it gives, the version and the
indices are those of the last table that has a version, and the hook mask is that of the
last table whose version has one. -/
theorem loadAll_bound {core : OdbkCore} {dbghelp : DbgFn → Bool} {l : List (World × Handle)}
    {p : Process} (h : loadAll core l (Process.fresh dbghelp) = .ok p) :
    p.ctx.symbols = (tablesOf l .empty).getLast?.getD .empty ∧
      (∀ f, p.ptr f = (lastAssigned (tablesOf l .empty) f).getD none) ∧
      p.ctx.version = (lastVersion (tablesOf l .empty)).elim 510 LuaVersion.version ∧
      p.ctx.registryIndex = (lastVersion (tablesOf l .empty)).elim 0 LuaVersion.registryIndex ∧
      p.ctx.globalsIndex = (lastVersion (tablesOf l .empty)).elim 0 LuaVersion.globalsIndex ∧
      p.ctx.hookTailCall = ((tablesOf l .empty).filterMap fun T =>
        (detectVersion T).bind LuaVersion.hookTailCall).getLast?.getD 0 := by
  have hb : p.bound = (tablesOf l .empty).foldl Bound.bind (Process.fresh dbghelp).bound :=
    loadAll_refines (configured_fresh dbghelp) h
  refine ⟨?_, fun f => ?_, ?_, ?_, ?_, ?_⟩
  · exact (congrArg Bound.symbols hb).trans (bindAll_symbols _ _)
  · exact (congrFun (congrArg Bound.ptr hb) f).trans (bindAll_ptr _ _ f)
  · exact (congrArg Bound.version hb).trans (bindAll_version (fun _ _ => rfl) _ _)
  · exact (congrArg Bound.registryIndex hb).trans (bindAll_version (fun _ _ => rfl) _ _)
  · exact (congrArg Bound.globalsIndex hb).trans (bindAll_version (fun _ _ => rfl) _ _)
  · exact (congrArg Bound.hookTailCall hb).trans (bindAll_hookTailCall _ _)

/-- A stock Lua 5.1, and then a module with the first functions of Lua 5.2, which is
refused. -/
def truncatedHistory : List (World × Handle) :=
  [(World.exporting (stockTable 4096 lua51Fns), 1), (truncatedWorld, 1)]

theorem tablesOf_truncatedHistory :
    tablesOf truncatedHistory .empty =
      [stockSymbols 4096 lua51Fns, stockSymbols 1048576 truncatedFns] := by
  have hn : (1 : Handle) ≠ nullptr := by decide
  simp only [truncatedHistory, truncatedWorld, tablesOf, boundTable, exportsOf, if_neg hn]
  rfl

theorem modules_truncatedHistory : ∀ e ∈ truncatedHistory, e.2 ≠ nullptr := by
  intro e he
  rcases List.mem_pair.mp he with rfl | rfl <;> decide

/-- What the table of the refused module assigns. -/
theorem assigned_truncated (f : Fn) :
    assigned (stockSymbols 1048576 truncatedFns) f =
      ([getFunctionOptional .luaOpen, getFunctionUnless .luaOpen .luaNewstate,
        getFunction .luaNewthread, getFunction .luaClose].filter fun s => s.slot = f).getLast?.map
          fun s => firstOf (getLuaFn (stockSymbols 1048576 truncatedFns)) s.names := by
  rw [assigned, detectVersion_truncated, Option.bind_some, executed_truncated]

/-- The refused module changes the version, takes two pointers and clears a third; the
others are still those of the module before it. -/
theorem loadAll_bound_truncated :
    ∃ p, loadAll ⟨0, 0⟩ truncatedHistory (Process.fresh fun _ => true) = .ok p ∧
      p.ctx.version = 520 ∧
      p.ptr .luaNewthread = some (.image (Fn.stockAddr 1048576 .luaNewthread)) ∧
      p.ptr .luaClose = none ∧
      p.ptr .luaPushstring = some (.image (Fn.stockAddr 4096 .luaPushstring)) := by
  obtain ⟨p, hp⟩ := loadAll_ok_of_modules modules_truncatedHistory (Process.fresh fun _ => true)
  obtain ⟨_, hptr, hversion, _⟩ := loadAll_bound hp
  have hpush : assigned (stockSymbols 4096 lua51Fns) .luaPushstring =
      some (some (.image (Fn.stockAddr 4096 .luaPushstring))) := by
    rw [assigned_of_accepts (accepts_lua51 4096), if_neg (by decide), offer_of_bindNames rfl,
      getLuaFn_stockSymbols, if_pos (by decide)]
  have hlast : ∀ f, p.ptr f = ((assigned (stockSymbols 1048576 truncatedFns) f).or
      (assigned (stockSymbols 4096 lua51Fns) f)).getD none := by
    intro f
    rw [hptr, tablesOf_truncatedHistory]
    exact congrArg (fun o => o.getD none) (lastAssigned_pair _ _ f)
  refine ⟨p, hp, ?_, ?_, ?_, ?_⟩
  · rw [hversion, tablesOf_truncatedHistory, lastVersion]
    simp [detectVersion_lua51, detectVersion_truncated]
  · rw [hlast, assigned_truncated]
    simp [getFunction, getFunctionOptional, getFunctionUnless, firstOf, getLuaFn_stockSymbols,
      truncatedFns]
  · rw [hlast, assigned_truncated]
    simp [getFunction, getFunctionOptional, getFunctionUnless, firstOf, getLuaFn_stockSymbols,
      truncatedFns]
  · rw [hlast, assigned_truncated, hpush]
    simp [getFunction, getFunctionOptional, getFunctionUnless]

/-! ## A load repeated -/

/-- Binding a table a second time changes nothing. -/
theorem bind_bind (b : Bound) (T : Symbols) : (b.bind T).bind T = b.bind T := by
  simp only [Bound.bind, Bound.mk.injEq, true_and]
  refine ⟨?_, ?_, ?_, ?_, ?_⟩
  · funext f
    cases assigned T f <;> rfl
  · cases detectVersion T <;> rfl
  · cases detectVersion T <;> rfl
  · cases detectVersion T <;> rfl
  · cases (detectVersion T).bind LuaVersion.hookTailCall <;> rfl

theorem boundTable_again (W : World) (hLua : Handle) (leftover : Symbols) :
    boundTable W hLua (boundTable W hLua leftover) = boundTable W hLua leftover := by
  unfold boundTable
  by_cases hn : hLua = nullptr
  · simp only [if_pos hn]
    exact EmplaceMap.emplaceAll_emplaceAll leftover (exportsOf W hLua)
  · simp only [if_neg hn]

/-- **A load repeated.** In any process that loads and installs led to, a load that is made
again at once returns what it returned and leaves bound what it left. -/
theorem load_again {core : OdbkCore} {dbghelp : DbgFn → Bool} {l : List (World × Handle)}
    {p q : Process} {b : Bool} {W : World} {hLua : Handle}
    (run : BackendRun core (Process.fresh dbghelp) l p)
    (h : odbkLoadLuaInternal W core hLua p = .ok (q, b)) :
    ∃ q', odbkLoadLuaInternal W core hLua q = .ok (q', b) ∧ q'.bound = q.bound ∧
      q'.registry = q.registry := by
  have hp := (managed_run run (managed_fresh dbghelp)).configured
  have hq : Configured q := configured_load hp h
  obtain ⟨hbound, hb⟩ := load_refines hp h
  have hsym : q.ctx.symbols = boundTable W hLua p.ctx.symbols := congrArg Bound.symbols hbound
  have hret : ∃ r, odbkLoadLuaInternal W core hLua q = .ok r := by
    rw [load_returns_iff W core hLua hq, hsym, boundTable_again, dbghelp_load h]
    exact (load_returns_iff W core hLua hp).mp ⟨_, h⟩
  obtain ⟨⟨q', b'⟩, hq'⟩ := hret
  obtain ⟨hbound', hb'⟩ := load_refines hq hq'
  rw [hsym, boundTable_again] at hbound' hb'
  rw [← hb] at hb'
  subst hb'
  exact ⟨q', hq', by rw [hbound', hbound, bind_bind], registry_load hq'⟩

theorem load_again_lua51 :
    ∃ q, odbkLoadLuaInternal (World.exporting (stockTable 4096 lua51Fns)) ⟨0, 0⟩ 1
        (Process.fresh fun _ => true) = .ok (q, true) ∧
      ∃ q', odbkLoadLuaInternal (World.exporting (stockTable 4096 lua51Fns)) ⟨0, 0⟩ 1 q =
        .ok (q', true) ∧ q'.bound = q.bound := by
  have hl := load_exporting 4096 lua51Fns ⟨0, 0⟩ (Process.fresh fun _ => true)
  rw [accepts_lua51] at hl
  obtain ⟨q', hq', hbound, _⟩ := load_again (.nil _) hl
  exact ⟨_, hl, q', hq', hbound⟩

/-! ## The errors logged -/

/-- The lines logged as errors. -/
def Process.errors (p : Process) : List LogMessage := p.log.filter fun m => m.type = .error

/-- The lines end as the log macros end them. -/
def LogMessage.Terminated (m : LogMessage) : Prop := ∃ text, m.content = text ++ "\r\n"

/-- The lines logged in between are all of a kind. -/
def Logged (A : LogMessage → Prop) (p q : Process) : Prop :=
  ∃ more, q.log = p.log ++ more ∧ ∀ m ∈ more, A m

section Logged

variable {A : LogMessage → Prop} {p q r : Process}

theorem Logged.of_log_eq (h : q.log = p.log) : Logged A p q :=
  ⟨[], by rw [h, List.append_nil], fun _ hm => absurd hm List.not_mem_nil⟩

theorem Logged.trans (h : Logged A p q) (h' : Logged A q r) : Logged A p r := by
  obtain ⟨more, hq, hmore⟩ := h
  obtain ⟨more', hr, hmore'⟩ := h'
  refine ⟨more ++ more', by rw [hr, hq, List.append_assoc], fun m hm => ?_⟩
  rcases List.mem_append.mp hm with hm | hm
  · exact hmore m hm
  · exact hmore' m hm

theorem Logged.mono {A' : LogMessage → Prop} (h : Logged A p q) (hA : ∀ m, A m → A' m) :
    Logged A' p q := by
  obtain ⟨more, hq, hmore⟩ := h
  exact ⟨more, hq, fun m hm => hA m (hmore m hm)⟩

end Logged

/-- A line that is no error. -/
structure Notice (m : LogMessage) : Prop where
  type : m.type ≠ .error
  terminated : m.Terminated

theorem notice_print {type : MsgType} (h : type ≠ .error) (content : String) (p : Process) :
    Logged Notice p (p.print type content) :=
  ⟨[⟨type, content ++ "\r\n"⟩], rfl, fun m hm => by
    rw [List.mem_singleton.mp hm]
    exact ⟨h, content, rfl⟩⟩

theorem errors_of_notices {p q : Process} (h : Logged Notice p q) : q.errors = p.errors := by
  obtain ⟨more, hq, hmore⟩ := h
  have hnone : more.filter (fun m => m.type = .error) = [] := by
    rw [List.filter_eq_nil_iff]
    exact fun m hm he => (hmore m hm).type (of_decide_eq_true he)
  rw [Process.errors, hq, List.filter_append, hnone, List.append_nil]
  rfl

/-- The line of an error that tells which required function a table lacks. -/
def refusal (T : Symbols) : Option LogMessage :=
  (detectVersion T).bind fun v =>
    (firstMissing T v).map fun s => ⟨.error, warning1004 s.slot ++ "\r\n"⟩

theorem errors_odbkLuaFinishLoad (p : Process) :
    (odbkLuaFinishLoad p).1.errors = p.errors ++ (refusal p.ctx.symbols).toList := by
  rw [odbkLuaFinishLoad_eq]
  cases hv : detectVersion p.ctx.symbols with
  | none => simp [refusal, hv]
  | some v =>
    cases hm : firstMissing p.ctx.symbols v with
    | none => simp [refusal, hv, hm, Process.errors]
    | some s => simp [refusal, hv, hm, Process.errors, Process.print]

theorem notices_warnSymFile (W : World) (hModule : Handle) (source : SymSource)
    (info : Option SymModule) (s : Scan) :
    Logged Notice s.process (warnSymFile W hModule source info s).process := by
  unfold warnSymFile
  split
  · exact Logged.of_log_eq rfl
  · split
    · split
      · exact notice_print (by decide) _ _
      · exact Logged.of_log_eq rfl
    · exact Logged.of_log_eq rfl

theorem notices_report (W : World) (hModule : Handle) (found : Bool) (s : Scan) :
    Logged Notice s.process (report W hModule found s).1.process := by
  unfold report
  split
  · dsimp only
    split
    · exact (notice_print (by decide) _ _).trans (notice_print (by decide) _ _)
    · exact notice_print (by decide) _ _
  · exact Logged.of_log_eq rfl

/-- A visit of the scan logs no error. -/
theorem notices_visitModule {W : World} {core : OdbkCore} {hModule : Handle} {s s' : Scan}
    {b : Bool} (h : visitModule W core hModule s = .ok (s', b)) :
    Logged Notice s.process s'.process := by
  obtain ⟨o, found, s₁, _, he, hr⟩ := visitModule_ok h
  have hmark : Logged Notice s.process ((s.markLoaded hModule).record o.calls).process :=
    Logged.of_log_eq rfl
  have hwarn := notices_warnSymFile W hModule o.source o.info
    ((s.markLoaded hModule).record o.calls)
  have henum : Logged Notice (warnSymFile W hModule o.source o.info
      ((s.markLoaded hModule).record o.calls)).process s₁.process := by
    rcases enumSymbols_ok he with ⟨_, _, rfl⟩ | ⟨_, _, _, rfl⟩ <;> exact Logged.of_log_eq rfl
  have hreport := notices_report W hModule found s₁
  rw [hr] at hreport
  exact hmark.trans (hwarn.trans (henum.trans hreport))

/-- Filling the symbols map logs no error. -/
theorem notices_loadFromProcess {W : World} {core : OdbkCore} {p q : Process}
    (h : loadFromProcess W core p = .ok q) : Logged Notice p q := by
  have hlog : Logged Notice p (tryExports W p.useBuiltin) := by
    apply Logged.of_log_eq
    rw [tryExports_frame, useBuiltin_frame]
  simp only [loadFromProcess, loadSymRestricts, ite_self, loadSymFromCache] at h
  generalize tryExports W p.useBuiltin = x at h hlog
  split at h
  case isTrue =>
    cases hs : loadSymFromAppModules W core (x.print .warn useSlibWarnMsg) with
    | error e => simp [hs] at h
    | ok s =>
      have hq : q = s.process := by simpa [hs] using h.symm
      have hscan := loadSymFromAppModules_induction (P := fun s => Logged Notice x s.process)
        (fun _ _ _ _ _ _ hs hv => hs.trans (notices_visitModule hv))
        (notice_print (by decide) _ x) hs
      rw [hq]
      exact hlog.trans hscan
  case isFalse =>
    cases h
    exact hlog

/-- Up to its binding a load logs no error. -/
theorem notices_fill {W : World} {core : OdbkCore} {hLua : Handle} {p : Process}
    {r : Process × Bool} (h : odbkLoadLuaInternal W core hLua p = .ok r) :
    ∃ q, r = odbkLuaFinishLoad q ∧ Logged Notice p q := by
  unfold odbkLoadLuaInternal at h
  split at h
  case isTrue =>
    cases hl : loadFromProcess W core p with
    | error e =>
      rw [hl] at h
      cases h
    | ok q =>
      rw [hl] at h
      cases h
      exact ⟨q, rfl, notices_loadFromProcess hl⟩
  case isFalse =>
    cases h
    exact ⟨_, rfl, Logged.of_log_eq rfl⟩

/-- **Step lemma.** -/
theorem errors_load {W : World} {core : OdbkCore} {hLua : Handle} {p : Process}
    {r : Process × Bool} (hp : Configured p) (h : odbkLoadLuaInternal W core hLua p = .ok r) :
    r.1.errors = p.errors ++ (refusal (boundTable W hLua p.ctx.symbols)).toList := by
  have hsym := symbols_load hp h
  obtain ⟨q, rfl, hnotice⟩ := notices_fill h
  rw [(odbkLuaFinishLoad_ctx_frame q).2.2] at hsym
  rw [errors_odbkLuaFinishLoad, errors_of_notices hnotice, hsym]

theorem log_odbkLuaFinishLoad (p : Process) :
    Logged LogMessage.Terminated p (odbkLuaFinishLoad p).1 := by
  rw [odbkLuaFinishLoad_eq]
  cases detectVersion p.ctx.symbols with
  | none => exact Logged.of_log_eq rfl
  | some v =>
    cases hm : firstMissing p.ctx.symbols v with
    | none =>
      simp only [hm]
      exact Logged.of_log_eq rfl
    | some s =>
      simp only [hm]
      exact ⟨[⟨.error, warning1004 s.slot ++ "\r\n"⟩], rfl, fun m h => by
        rw [List.mem_singleton.mp h]
        exact ⟨_, rfl⟩⟩

/-- No run takes a line of the log back, and all lines of a run end alike. -/
theorem log_run {core : OdbkCore} {p q : Process} {l : List (World × Handle)}
    (run : BackendRun core p l q) : Logged LogMessage.Terminated p q := by
  refine run.induction (P := fun q => Logged LogMessage.Terminated p q) ?_ ?_
    (Logged.of_log_eq rfl)
  · intro e _ q r hq hl
    obtain ⟨x, rfl, hnotice⟩ := notices_fill hl
    exact hq.trans ((hnotice.mono fun _ => Notice.terminated).trans (log_odbkLuaFinishLoad x))
  · intro q hq
    rw [odbkInstallLuaHooks_eq]
    exact hq

/-- What a refusal says: there is one for the tables of a Lua VM that are not accepted, and
it names a function that the version requires, that the table does not have, and that no
other function of the table stands in for. -/
structure Truthful (T : Symbols) : Prop where
  refused : (refusal T).isSome = true ↔ (detectVersion T).isSome = true ∧ accepts T = false
  names : ∀ m, refusal T = some m → ∃ v s, detectVersion T = some v ∧ s ∈ bindings v.version ∧
    s.required = true ∧ getLuaFn T s.slot.name = none ∧ spared T s.slot = false ∧
    m = ⟨.error, warning1004 s.slot ++ "\r\n"⟩

theorem truthful (T : Symbols) : Truthful T where
  refused := by
    unfold refusal accepts
    cases detectVersion T with
    | none => simp
    | some v => cases firstMissing T v <;> simp
  names m h := by
    obtain ⟨v, hv, h⟩ := Option.bind_eq_some_iff.mp h
    obtain ⟨s, hm, rfl⟩ := Option.map_eq_some_iff.mp h
    have hsel := List.mem_of_find?_eq_some hm
    have hb : s ∈ bindings v.version := (List.mem_filter.mp hsel).1
    have hmiss := List.find?_some hm
    have hreq : s.required = true := by
      simp only [missing, Bool.and_eq_true] at hmiss
      exact hmiss.1
    refine ⟨v, s, hv, hb, hreq, ?_, (mem_selected_iff hb hreq).mp hsel, rfl⟩
    simpa [missing, hreq, names_of_required v.version s hb hreq, firstOf] using hmiss

theorem errors_run {core : OdbkCore} {l : List (World × Handle)} {p q : Process}
    (hp : Configured p) (h : loadAll core l p = .ok q) :
    q.errors = p.errors ++ (tablesOf l p.ctx.symbols).filterMap refusal := by
  induction l generalizing p with
  | nil =>
    cases h
    simp [tablesOf]
  | cons e l ih =>
    obtain ⟨W, hLua⟩ := e
    rw [loadAll] at h
    cases hl : odbkLoadLuaInternal W core hLua p with
    | error e =>
      rw [hl] at h
      cases h
    | ok r =>
      rw [hl] at h
      rw [ih (configured_load hp hl) h, errors_load hp hl, symbols_load hp hl, tablesOf,
        List.filterMap_cons]
      cases refusal (boundTable W hLua p.ctx.symbols) <;> simp

/-- **Errors.** What a history of loads logs as errors is one line for each table of a Lua
VM that was refused, in order, and each names a required function that its table lacks. -/
theorem errors_loadAll {core : OdbkCore} {dbghelp : DbgFn → Bool} {l : List (World × Handle)}
    {p : Process} (h : loadAll core l (Process.fresh dbghelp) = .ok p) :
    p.errors = (tablesOf l .empty).filterMap refusal ∧ ∀ T ∈ tablesOf l .empty, Truthful T :=
  ⟨errors_run (configured_fresh dbghelp) h, fun T _ => truthful T⟩

/-- The refused module of the two is reported. -/
theorem errors_loadAll_truncated :
    ∃ p, loadAll ⟨0, 0⟩ truncatedHistory (Process.fresh fun _ => true) = .ok p ∧
      p.errors = [⟨.error, warning1004 .luaClose ++ "\r\n"⟩] := by
  obtain ⟨p, hp⟩ := loadAll_ok_of_modules modules_truncatedHistory (Process.fresh fun _ => true)
  have haccepted : refusal (stockSymbols 4096 lua51Fns) = none := by
    rw [← Option.not_isSome_iff_eq_none, (truthful _).refused, accepts_lua51]
    exact fun h => Bool.noConfusion h.2
  have hrefused : refusal (stockSymbols 1048576 truncatedFns) =
      some ⟨.error, warning1004 .luaClose ++ "\r\n"⟩ := by
    have hm : firstMissing (stockSymbols 1048576 truncatedFns)
        ⟨520, -1001000, 2, some luaHookTailCall⟩ = some (getFunction .luaClose) := by
      decide +kernel
    rw [refusal, detectVersion_truncated, Option.bind_some, hm]
    rfl
  refine ⟨p, hp, ?_⟩
  rw [(errors_loadAll hp).1, tablesOf_truncatedHistory, List.filterMap_cons_none haccepted,
    List.filterMap_cons_some hrefused, List.filterMap_nil]

/-! ## What an accepted load leaves set -/

/-- Every function that the version requires is bound, or the function that stands in for
it is. -/
def ApiComplete (p : Process) : Prop :=
  ∀ s ∈ bindings p.ctx.version, s.required = true →
    (p.ptr s.slot).isSome = true ∨ ∃ g, alternative s.slot = some g ∧ (p.ptr g).isSome = true

theorem apiComplete_of_bound {T : Symbols} {v : LuaVersion} {p q : Process}
    (hv : detectVersion T = some v) (ha : accepts T = true) (hver : q.ctx.version = v.version)
    (hset : ∀ f, (q.ptr f).isSome = (rebound T p f).isSome) : ApiComplete q := by
  obtain ⟨w, hw, hm⟩ := (accepts_iff T).mp ha
  rw [hv, Option.some.injEq] at hw
  subst hw
  rw [firstMissing, List.find?_eq_none] at hm
  intro s hs hreq
  rw [hver] at hs
  by_cases hsp : spared T s.slot = true
  · right
    obtain ⟨hne, _, _⟩ := required_step v.version s hs hreq
    unfold spared at hsp
    simp only [hne, decide_false, Bool.false_or, Option.any_eq_true] at hsp
    obtain ⟨g, hg, hgs⟩ := hsp
    obtain ⟨hsg, hog⟩ := offer_alternative hg T
    refine ⟨g, hg, ?_⟩
    rw [hset, rebound, hsg, if_neg Bool.false_ne_true, hog, hgs]
  · left
    have hsp : spared T s.slot = false := by simpa using hsp
    have hnot := hm s ((mem_selected_iff hs hreq).mpr hsp)
    rw [missing_iff hs hreq, ← ne_eq, Option.ne_none_iff_isSome] at hnot
    rw [hset, rebound, hsp, if_neg Bool.false_ne_true, hnot]

/-- **A complete API.** In any process that loads and installs led to, an accepted load,
and the installation of the hooks over it, leave no function null that the version
requires, unless the one that stands in for it is set. -/
theorem api_complete {core : OdbkCore} {dbghelp : DbgFn → Bool} {l : List (World × Handle)}
    {p q : Process} {W : World} {hLua : Handle}
    (run : BackendRun core (Process.fresh dbghelp) l p)
    (h : odbkLoadLuaInternal W core hLua p = .ok (q, true)) :
    ApiComplete q ∧ ApiComplete (odbkInstallLuaHooks q) := by
  have hp := managed_run run (managed_fresh dbghelp)
  have ha := load_snd hp.configured h
  obtain ⟨v, hv, hver, hq⟩ := accepted_load hp.configured h
  have hptr : ∀ f, q.ptr f = rebound (boundTable W hLua p.ctx.symbols) p f := by
    intro f
    exact congrFun (congrArg Patched.ptr hq) f
  have hctx : (odbkInstallLuaHooks q).ctx = q.ctx := by rw [odbkInstallLuaHooks_eq]
  constructor
  · exact apiComplete_of_bound hv ha.symm hver fun f => by rw [hptr]
  · refine apiComplete_of_bound (p := p) hv ha.symm (hctx ▸ hver) fun f => ?_
    rw [ptr_isSome_install, hptr]

theorem api_complete_lua51 :
    ∃ q, odbkLoadLuaInternal (World.exporting (stockTable 4096 lua51Fns)) ⟨0, 0⟩ 1
        (Process.fresh fun _ => true) = .ok (q, true) ∧
      ApiComplete q ∧ ApiComplete (odbkInstallLuaHooks q) := by
  have hl := load_exporting 4096 lua51Fns ⟨0, 0⟩ (Process.fresh fun _ => true)
  rw [accepts_lua51] at hl
  exact ⟨_, hl, api_complete (.nil _) hl⟩

end Odbk
