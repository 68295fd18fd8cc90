import Odbk.Load

/-!
# What a load inherits from earlier loads

A load is compared with the same load in a new process. The symbols map, the
pointers and `hook_tail_call` are what one load leaves to the next. Proved here:

* `configured_loadAll`: no sequence of loads sets the restriction set;
* `load_binds`: a load binds one table, made of the module's exports and, for a
  null handle, of the symbols left over;
* `sameBound_iff_noStale`: when two accepted tables give one bound state;
* `load_history_free_iff`: after any sequence of loads, exactly when the next one
  does what it would do in a new process.
-/

namespace Odbk

open BindScript

/-- Loads one after the other, each in the world of its time. -/
def loadAll (core : OdbkCore) : List (World × Handle) → Process → Except Fault Process
  | [], p => .ok p
  | (W, hLua) :: l, p =>
    match odbkLoadLuaInternal W core hLua p with
    | .error e => .error e
    | .ok (q, _) => loadAll core l q

theorem loadAll_induction {core : OdbkCore} {P : Process → Prop}
    (hstep : ∀ W hLua p r, P p → odbkLoadLuaInternal W core hLua p = .ok r → P r.1)
    (l : List (World × Handle)) {p q : Process} (hp : P p) (h : loadAll core l p = .ok q) :
    P q := by
  induction l generalizing p with
  | nil =>
    cases h
    exact hp
  | cons e l ih =>
    obtain ⟨W, hLua⟩ := e
    rw [loadAll] at h
    cases hl : odbkLoadLuaInternal W core hLua p with
    | error e =>
      rw [hl] at h
      cases h
    | ok r =>
      rw [hl] at h
      exact ih (hstep W hLua p r hp hl) h

theorem configured_loadAll {core : OdbkCore} {l : List (World × Handle)} {p q : Process}
    (hp : Configured p) (h : loadAll core l p = .ok q) : Configured q :=
  loadAll_induction (fun _ _ _ _ hp hl => configured_load hp hl) l hp h

theorem dbghelp_load {W : World} {core : OdbkCore} {hLua : Handle} {p : Process}
    {r : Process × Bool} (h : odbkLoadLuaInternal W core hLua p = .ok r) :
    r.1.dbghelp = p.dbghelp := by
  obtain ⟨q, rfl, hf⟩ := odbkLoadLuaInternal_ok h
  rw [dbghelp_odbkLuaFinishLoad, hf.dbghelp]

theorem dbghelp_loadAll {core : OdbkCore} {l : List (World × Handle)} {p q : Process}
    (h : loadAll core l p = .ok q) : q.dbghelp = p.dbghelp :=
  loadAll_induction (P := fun q => q.dbghelp = p.dbghelp)
    (fun _ _ _ _ hp hl => (dbghelp_load hl).trans hp) l rfl h

theorem loadAll_module (W : World) (core : OdbkCore) {hLua : Handle} (hn : hLua ≠ nullptr)
    (p : Process) :
    ∃ q, loadAll core [(W, hLua)] p = .ok q ∧ q.ctx.symbols = moduleTable W hLua := by
  have hs := (odbkLuaFinishLoad_ctx_frame (p.withSymbols (moduleTable W hLua))).2.2
  rw [loadAll, odbkLoadLuaInternal_module W core hn]
  generalize odbkLuaFinishLoad _ = r at hs
  exact ⟨r.1, rfl, hs⟩

/-- Loads of given modules return. -/
theorem loadAll_ok_of_modules {core : OdbkCore} {l : List (World × Handle)}
    (hl : ∀ e ∈ l, e.2 ≠ nullptr) (p : Process) : ∃ q, loadAll core l p = .ok q := by
  induction l generalizing p with
  | nil => exact ⟨p, rfl⟩
  | cons e l ih =>
    obtain ⟨W, hLua⟩ := e
    rw [loadAll, odbkLoadLuaInternal_module W core (hl _ List.mem_cons_self)]
    exact ih (fun e he => hl e (List.mem_cons_of_mem _ he)) _

/-! ## The table that a load binds -/

/-- The exports a handle stands for. -/
def exportsOf (W : World) (hLua : Handle) : List (String × Addr) :=
  if hLua = nullptr then processExports W else W.exports hLua

/-- The exports added to the symbols left over, or to none for a given module. -/
def boundTable (W : World) (hLua : Handle) (leftover : Symbols) : Symbols :=
  (if hLua = nullptr then leftover else .empty).emplaceAll (exportsOf W hLua)

theorem isEmpty_boundTable_nullptr (W : World) (leftover : Symbols) :
    (boundTable W nullptr leftover).isEmpty =
      (leftover.isEmpty && (boundTable W nullptr .empty).isEmpty) := by
  simp [boundTable, EmplaceMap.isEmpty_emplaceAll]

/-- **The load as a binding of one table.** -/
theorem load_binds {W : World} {core : OdbkCore} {hLua : Handle} {p : Process}
    {r : Process × Bool} (hp : Configured p) (h : odbkLoadLuaInternal W core hLua p = .ok r) :
    ∃ q, r = odbkLuaFinishLoad q ∧ q.ctx.symbols = boundTable W hLua p.ctx.symbols ∧
      q.ptr = p.ptr ∧ q.ctx.version = p.ctx.version ∧
      q.ctx.hookTailCall = p.ctx.hookTailCall := by
  by_cases hn : hLua = nullptr
  · subst hn
    obtain ⟨log, rfl⟩ := odbkLoadLuaInternal_process hp h
    exact ⟨_, rfl, by simp [merged, boundTable, exportsOf], rfl, rfl, rfl⟩
  · rw [odbkLoadLuaInternal_module W core hn, Except.ok.injEq] at h
    subst h
    refine ⟨_, rfl, ?_, rfl, rfl, rfl⟩
    simp [Process.withSymbols, moduleTable, odbkGetExports, boundTable, exportsOf, hn]

theorem load_snd {W : World} {core : OdbkCore} {hLua : Handle} {p q : Process} {b : Bool}
    (hp : Configured p) (h : odbkLoadLuaInternal W core hLua p = .ok (q, b)) :
    b = accepts (boundTable W hLua p.ctx.symbols) := by
  obtain ⟨x, hx, hs, _, _⟩ := load_binds hp h
  rw [← hs, ← odbkLuaFinishLoad_snd, ← hx]

/-- The bound state after a load whose table is accepted. -/
theorem load_bound {W : World} {core : OdbkCore} {hLua : Handle} {p q : Process} {b : Bool}
    (hp : Configured p) (h : odbkLoadLuaInternal W core hLua p = .ok (q, b)) {T : Symbols}
    (hT : boundTable W hLua p.ctx.symbols = T) {v : LuaVersion} (hv : detectVersion T = some v)
    (ha : accepts T = true) :
    (∀ f, q.ptr f = if spared T f then p.ptr f else offer T f) ∧
      q.ctx.version = v.version ∧ q.ctx.registryIndex = v.registryIndex ∧
      q.ctx.globalsIndex = v.globalsIndex ∧
      q.ctx.hookTailCall = v.hookTailCall.getD p.ctx.hookTailCall := by
  obtain ⟨x, hx, hs, hptr, _, hhook⟩ := load_binds hp h
  rw [hT] at hs
  subst hs
  have hq : q = (odbkLuaFinishLoad x).1 := by rw [← hx]
  rw [hq, ctx_odbkLuaFinishLoad, hv, ← hptr, ← hhook]
  exact ⟨ptr_of_accepts x ha, rfl, rfl, rfl, rfl⟩

/-- When a load returns: it scans the modules only if its table is empty. -/
theorem load_returns_iff (W : World) (core : OdbkCore) (hLua : Handle) {p : Process}
    (hp : Configured p) :
    (∃ r, odbkLoadLuaInternal W core hLua p = .ok r) ↔
      (hLua = nullptr → (boundTable W hLua p.ctx.symbols).isEmpty = true →
        ScanReturns W core p.dbghelp) := by
  by_cases hn : hLua = nullptr
  · subst hn
    rw [odbkLoadLuaInternal_process_returns_iff hp]
    simp [merged, boundTable, exportsOf]
  · simp [odbkLoadLuaInternal_module W core hn, hn]

/-! ## Stale state -/

/-- Some step of `odbk_lua_finish_load` assigns `__f`. -/
def Assignable (f : Fn) : Prop := ∃ version, ∃ s ∈ bindings version, s.slot = f

theorem assignable_iff (f : Fn) : Assignable f ↔ stepKeys f ≠ [] := by
  have hk : ∀ version, (∃ s ∈ bindings version, s.slot = f) ↔ stepKeys f ≠ [] := by
    intro version
    rw [← keys_bindings version f, Ne, List.map_eq_nil_iff, List.filter_eq_nil_iff]
    simp
  constructor
  · rintro ⟨version, h⟩
    exact (hk version).mp h
  · intro h
    exact ⟨510, (hk 510).mpr h⟩

/-- The bound state: the assignable pointers and the version fields. -/
structure SameBound (p q : Process) : Prop where
  ptr : ∀ f, Assignable f → p.ptr f = q.ptr f
  version : p.ctx.version = q.ctx.version
  registryIndex : p.ctx.registryIndex = q.ctx.registryIndex
  globalsIndex : p.ctx.globalsIndex = q.ctx.globalsIndex
  hookTailCall : p.ctx.hookTailCall = q.ctx.hookTailCall

/-- Nothing of process `p` shows when table `T` is bound instead of `T₀`: the
tables have one version and one entry for every pointer they bind, and what the
binding skips has no value in `p`. -/
structure NoStale (T T₀ : Symbols) (p : Process) : Prop where
  version : detectVersion T = detectVersion T₀
  offered : ∀ f, spared T₀ f = false → offer T f = offer T₀ f
  skipped : ∀ f, Assignable f → spared T₀ f = true → p.ptr f = none
  hookTailCall : ∀ v, detectVersion T₀ = some v → v.hookTailCall = none →
    p.ctx.hookTailCall = 0

/-- The version number tells the version apart. -/
theorem luaVersion_ext {T T' : Symbols} {v v' : LuaVersion} (h : detectVersion T = some v)
    (h' : detectVersion T' = some v') (hv : v.version = v'.version) : v = v' := by
  have hall : ∀ {T : Symbols} {v : LuaVersion}, detectVersion T = some v →
      v = ⟨500, -10000, -10001, none⟩ ∨ v = ⟨530, -1001000, 2, some luaHookTailCall⟩ ∨
        v = ⟨520, -1001000, 2, some luaHookTailCall⟩ ∨
        v = ⟨510, -10000, -10002, some luaHookTailRet⟩ := by
    intro T v h
    unfold detectVersion at h
    split at h
    · simp_all
    · split at h
      · simp_all
      · split at h
        · simp_all
        · split at h <;> simp_all
  rcases hall h with rfl | rfl | rfl | rfl <;> rcases hall h' with rfl | rfl | rfl | rfl <;>
    first | rfl | exact absurd hv (by decide)

/-- An alternative is bound by its own name and never skipped. -/
theorem offer_alternative {f g : Fn} (h : alternative f = some g) (T : Symbols) :
    spared T g = false ∧ offer T g = getLuaFn T g.name := by
  cases f <;> simp [alternative] at h <;> subst h <;>
    exact ⟨rfl, offer_of_bindNames rfl T⟩

theorem spared_congr {T T₀ : Symbols} (h : ∀ g, spared T₀ g = false → offer T g = offer T₀ g)
    (f : Fn) : spared T f = spared T₀ f := by
  unfold spared
  cases ha : alternative f with
  | none => rfl
  | some g =>
    have hg := h g (offer_alternative ha T₀).1
    rw [(offer_alternative ha T).2, (offer_alternative ha T₀).2] at hg
    rw [Option.any_some, Option.any_some, hg]

theorem assignable_of_not_spared {T : Symbols} {f : Fn} (h : spared T f = false) :
    Assignable f := by
  rw [assignable_iff]
  cases f <;> first | (simp [spared] at h; done) | simp [stepKeys]

/-- A required step: its one name, its guard and what it offers. -/
theorem required_step (version : Int) : ∀ s ∈ bindings version, s.required = true →
    s.slot ≠ .luaRawseti ∧ s.guard = alternative s.slot ∧ bindNames s.slot = s.names :=
  bindings_cases (P := fun l => ∀ s ∈ l, s.required = true →
    s.slot ≠ .luaRawseti ∧ s.guard = alternative s.slot ∧ bindNames s.slot = s.names)
    (by decide +kernel) (by decide +kernel) version

theorem mem_selected_iff {T : Symbols} {v : LuaVersion} {s : BindStep Fn String}
    (hs : s ∈ bindings v.version) (hr : s.required = true) :
    s ∈ selected T v ↔ spared T s.slot = false := by
  obtain ⟨hne, hg, _⟩ := required_step v.version s hs hr
  rw [selected, active, List.mem_filter, and_iff_right hs, hg]
  unfold spared
  cases alternative s.slot with
  | none => simp [hne]
  | some g => simp [hne, guardNames, firstOf]

theorem missing_iff {T : Symbols} {v : LuaVersion} {s : BindStep Fn String}
    (hs : s ∈ bindings v.version) (hr : s.required = true) :
    missing (getLuaFn T) s = true ↔ offer T s.slot = none := by
  simp [missing, hr, offer, (required_step v.version s hs hr).2.2]

/-- Tables with the same entries are accepted together. -/
theorem accepts_of_noStale {T T₀ : Symbols} {p : Process} (h : NoStale T T₀ p)
    (ha : accepts T₀ = true) : accepts T = true := by
  obtain ⟨v, hv, hm⟩ := (accepts_iff T₀).mp ha
  refine (accepts_iff T).mpr ⟨v, h.version.trans hv, ?_⟩
  rw [firstMissing, List.find?_eq_none] at hm ⊢
  intro s hs hmiss
  have hs' : s ∈ bindings v.version := (List.mem_filter.mp hs).1
  have hr : s.required = true := by
    simp only [missing, Bool.and_eq_true] at hmiss
    exact hmiss.1
  have hsp : spared T₀ s.slot = false := by
    rw [← spared_congr h.offered]
    exact (mem_selected_iff hs' hr).mp hs
  refine hm s ((mem_selected_iff hs' hr).mpr hsp) ?_
  rw [missing_iff hs' hr] at hmiss ⊢
  rw [← h.offered s.slot hsp, hmiss]

/-! ## Two loads compared -/

/-- The outcomes of two loads agree: neither returns, or both do with one result
and, where it is true, one bound state. -/
def SameOutcome : Except Fault (Process × Bool) → Except Fault (Process × Bool) → Prop
  | .ok (p, b), .ok (q, c) => b = c ∧ (b = true → SameBound p q)
  | .error _, .error _ => True
  | _, _ => False

/-- A load has the outcome it would have in a new process. -/
def HistoryFree (W : World) (core : OdbkCore) (hLua : Handle) (p : Process) : Prop :=
  SameOutcome (odbkLoadLuaInternal W core hLua p)
    (odbkLoadLuaInternal W core hLua (Process.fresh p.dbghelp))

/-- The state before a load does not reach into it: it keeps no symbols that make
the load skip a scan that would not return or accept what it would reject, and
no stale state where the load accepts. -/
structure Unaffected (W : World) (core : OdbkCore) (hLua : Handle) (p : Process) : Prop where
  scan : hLua = nullptr → (boundTable W hLua .empty).isEmpty = true →
    p.ctx.symbols.isEmpty = false → ScanReturns W core p.dbghelp
  rejected : accepts (boundTable W hLua .empty) = false →
    accepts (boundTable W hLua p.ctx.symbols) = false
  accepted : accepts (boundTable W hLua .empty) = true →
    NoStale (boundTable W hLua p.ctx.symbols) (boundTable W hLua .empty) p

theorem sameOutcome_of_ok {x y : Except Fault (Process × Bool)} {p q : Process} {b c : Bool}
    (hx : x = .ok (p, b)) (hy : y = .ok (q, c)) :
    SameOutcome x y ↔ b = c ∧ (b = true → SameBound p q) := by
  rw [hx, hy]
  exact Iff.rfl

theorem sameOutcome_returns {x y : Except Fault (Process × Bool)} (h : SameOutcome x y) :
    (∃ r, x = .ok r) ↔ ∃ r, y = .ok r := by
  cases x with
  | error e =>
    cases y with
    | error e' => simp
    | ok r => exact absurd h (by simp [SameOutcome])
  | ok r =>
    cases y with
    | error e => exact absurd h (by simp [SameOutcome])
    | ok r' => simp

/-- Equal pointers after two loads: both tables skip the same fall-backs, because the
alternatives are bound alike. -/
theorem spared_eq_of_pointers {T T₀ : Symbols} {ptr : Fn → Option (Code Addr)}
    (heq : ∀ f, Assignable f → (if spared T f then ptr f else offer T f) =
      if spared T₀ f then none else offer T₀ f) (f : Fn) : spared T f = spared T₀ f := by
  unfold spared
  cases ha : alternative f with
  | none => rfl
  | some g =>
    obtain ⟨hs, ho⟩ := offer_alternative ha T
    obtain ⟨hs₀, ho₀⟩ := offer_alternative ha T₀
    have hg := heq g (assignable_of_not_spared hs₀)
    rw [hs, hs₀, ho, ho₀, if_neg Bool.false_ne_true, if_neg Bool.false_ne_true] at hg
    rw [Option.any_some, Option.any_some, hg]

/-- Of two accepted tables, one bound in process `p` and one in a new process. -/
theorem sameBound_iff_noStale {T T₀ : Symbols} {p q q₀ : Process} {v v₀ : LuaVersion}
    (hv : detectVersion T = some v) (hv₀ : detectVersion T₀ = some v₀)
    (hq : (∀ f, q.ptr f = if spared T f then p.ptr f else offer T f) ∧
      q.ctx.version = v.version ∧ q.ctx.registryIndex = v.registryIndex ∧
      q.ctx.globalsIndex = v.globalsIndex ∧
      q.ctx.hookTailCall = v.hookTailCall.getD p.ctx.hookTailCall)
    (hq₀ : (∀ f, q₀.ptr f = if spared T₀ f then none else offer T₀ f) ∧
      q₀.ctx.version = v₀.version ∧ q₀.ctx.registryIndex = v₀.registryIndex ∧
      q₀.ctx.globalsIndex = v₀.globalsIndex ∧
      q₀.ctx.hookTailCall = v₀.hookTailCall.getD 0) :
    SameBound q q₀ ↔ NoStale T T₀ p := by
  obtain ⟨hptr, hver, hreg, hglob, hhook⟩ := hq
  obtain ⟨hptr₀, hver₀, hreg₀, hglob₀, hhook₀⟩ := hq₀
  constructor
  · intro h
    have hvv : v = v₀ := luaVersion_ext hv hv₀ (by rw [← hver, ← hver₀, h.version])
    have heq : ∀ f, Assignable f →
        (if spared T f then p.ptr f else offer T f) =
          if spared T₀ f then none else offer T₀ f := by
      intro f hf
      rw [← hptr f, ← hptr₀ f, h.ptr f hf]
    have hsp := spared_eq_of_pointers heq
    refine ⟨by rw [hv, hv₀, hvv], ?_, ?_, ?_⟩
    · intro f hf
      have h' := heq f (assignable_of_not_spared hf)
      rwa [hsp f, hf, if_neg Bool.false_ne_true, if_neg Bool.false_ne_true] at h'
    · intro f hf hs
      have h' := heq f hf
      rwa [hsp f, hs, if_pos rfl, if_pos rfl] at h'
    · intro w hw hnone
      rw [hv₀, Option.some.injEq] at hw
      subst hw
      have h' := h.hookTailCall
      rw [hhook, hhook₀, hvv, hnone] at h'
      exact h'
  · intro h
    have hvv : v = v₀ := by
      have := h.version
      rwa [hv, hv₀, Option.some.injEq] at this
    refine ⟨?_, by rw [hver, hver₀, hvv], by rw [hreg, hreg₀, hvv],
      by rw [hglob, hglob₀, hvv], ?_⟩
    · intro f hf
      rw [hptr f, hptr₀ f, spared_congr h.offered f]
      cases hs : spared T₀ f with
      | true => rw [if_pos rfl, if_pos rfl, h.skipped f hf hs]
      | false => rw [if_neg Bool.false_ne_true, if_neg Bool.false_ne_true, h.offered f hs]
    · rw [hhook, hhook₀, hvv]
      cases hw : v₀.hookTailCall with
      | some w => rfl
      | none => exact h.hookTailCall v₀ hv₀ hw

/-- A load returns as it does in a new process, but for scans it skips. -/
theorem returns_agree_iff (W : World) (core : OdbkCore) (hLua : Handle) {p : Process}
    (hp : Configured p) :
    ((∃ r, odbkLoadLuaInternal W core hLua p = .ok r) ↔
        ∃ r, odbkLoadLuaInternal W core hLua (Process.fresh p.dbghelp) = .ok r) ↔
      (hLua = nullptr → (boundTable W hLua .empty).isEmpty = true →
        p.ctx.symbols.isEmpty = false → ScanReturns W core p.dbghelp) := by
  rw [load_returns_iff W core hLua hp, load_returns_iff W core hLua (configured_fresh p.dbghelp)]
  have hs : (Process.fresh p.dbghelp).ctx.symbols = .empty := rfl
  have hd : (Process.fresh p.dbghelp).dbghelp = p.dbghelp := rfl
  rw [hs, hd]
  by_cases hn : hLua = nullptr
  · subst hn
    rw [isEmpty_boundTable_nullptr]
    cases p.ctx.symbols.isEmpty <;> cases (boundTable W nullptr .empty).isEmpty <;> simp
  · simp [hn]

/-- Where both loads return, their outcomes agree when the state is not stale. -/
theorem sameOutcome_iff {W : World} {core : OdbkCore} {hLua : Handle} {p : Process}
    (hp : Configured p) {r r₀ : Process × Bool} (hr : odbkLoadLuaInternal W core hLua p = .ok r)
    (hr₀ : odbkLoadLuaInternal W core hLua (Process.fresh p.dbghelp) = .ok r₀) :
    HistoryFree W core hLua p ↔
      (accepts (boundTable W hLua .empty) = false →
        accepts (boundTable W hLua p.ctx.symbols) = false) ∧
      (accepts (boundTable W hLua .empty) = true →
        NoStale (boundTable W hLua p.ctx.symbols) (boundTable W hLua .empty) p) := by
  obtain ⟨q, b⟩ := r
  obtain ⟨q₀, c⟩ := r₀
  have hf := configured_fresh p.dbghelp
  rw [HistoryFree, sameOutcome_of_ok hr hr₀, load_snd hp hr, load_snd hf hr₀,
    show (Process.fresh p.dbghelp).ctx.symbols = .empty from rfl]
  cases ha₀ : accepts (boundTable W hLua .empty) with
  | false => cases accepts (boundTable W hLua p.ctx.symbols) <;> simp
  | true =>
    have hiff : accepts (boundTable W hLua p.ctx.symbols) = true →
        (SameBound q q₀ ↔
          NoStale (boundTable W hLua p.ctx.symbols) (boundTable W hLua .empty) p) := by
      intro ha
      obtain ⟨v, hv, _⟩ := (accepts_iff _).mp ha
      obtain ⟨v₀, hv₀, _⟩ := (accepts_iff _).mp ha₀
      exact sameBound_iff_noStale hv hv₀ (load_bound hp hr rfl hv ha)
        (load_bound hf hr₀ rfl hv₀ ha₀)
    constructor
    · rintro ⟨ha, hsame⟩
      exact ⟨fun h => absurd h (by simp), fun _ => (hiff ha).mp (hsame ha)⟩
    · rintro ⟨_, hstale⟩
      have ha := accepts_of_noStale (hstale rfl) ha₀
      exact ⟨ha, fun _ => (hiff ha).mpr (hstale rfl)⟩

/-- **One load.** In any state that loads can lead to, a load has the outcome it
has in a new process exactly when the state does not reach into it. -/
theorem historyFree_iff (W : World) (core : OdbkCore) (hLua : Handle) {p : Process}
    (hp : Configured p) : HistoryFree W core hLua p ↔ Unaffected W core hLua p := by
  have hagree := returns_agree_iff W core hLua hp
  constructor
  · intro h
    have hscan := hagree.mp (sameOutcome_returns h)
    by_cases hret : ∃ r, odbkLoadLuaInternal W core hLua p = .ok r
    · obtain ⟨r, hr⟩ := hret
      obtain ⟨r₀, hr₀⟩ := (sameOutcome_returns h).mp ⟨r, hr⟩
      obtain ⟨hrej, hacc⟩ := (sameOutcome_iff hp hr hr₀).mp h
      exact ⟨hscan, hrej, hacc⟩
    · -- neither load returns, so neither found a symbol
      rw [load_returns_iff W core hLua hp] at hret
      push Not at hret
      obtain ⟨rfl, he, _⟩ := hret
      have he' := he
      rw [isEmpty_boundTable_nullptr, Bool.and_eq_true] at he'
      have hf₀ := accepts_of_isEmpty he'.2
      refine ⟨hscan, fun _ => accepts_of_isEmpty he, fun h => ?_⟩
      rw [hf₀] at h
      cases h
  · rintro ⟨hscan, hrej, hacc⟩
    have hboth := hagree.mpr hscan
    cases hr : odbkLoadLuaInternal W core hLua p with
    | ok r =>
      obtain ⟨r₀, hr₀⟩ := hboth.mp ⟨r, hr⟩
      exact (sameOutcome_iff hp hr hr₀).mpr ⟨hrej, hacc⟩
    | error e =>
      cases hr₀ : odbkLoadLuaInternal W core hLua (Process.fresh p.dbghelp) with
      | ok r₀ =>
        obtain ⟨r, hr'⟩ := hboth.mpr ⟨r₀, hr₀⟩
        rw [hr] at hr'
        cases hr'
      | error e₀ =>
        rw [HistoryFree, hr, hr₀]
        trivial

/-- **Any history.** After any sequence of loads, the next one has the outcome it
has in a new process exactly when the state they left does not reach into it. -/
theorem load_history_free_iff (core : OdbkCore) (dbghelp : DbgFn → Bool)
    (history : List (World × Handle)) (W : World) (hLua : Handle) {p : Process}
    (hp : loadAll core history (Process.fresh dbghelp) = .ok p) :
    SameOutcome (odbkLoadLuaInternal W core hLua p)
        (odbkLoadLuaInternal W core hLua (Process.fresh dbghelp)) ↔
      Unaffected W core hLua p := by
  have hd : p.dbghelp = dbghelp := dbghelp_loadAll hp
  rw [← historyFree_iff W core hLua (configured_loadAll (configured_fresh dbghelp) hp),
    HistoryFree, hd]

/-! ## A stale load -/

/-- Two copies of Lua 5.1: module `1`, and module `2` named `lua51.dll`. -/
def twoLuaWorld : World where
  modules := [1, 2]
  getModuleHandle name := if name = "lua51.dll" then 2 else nullptr
  exports h :=
    if h = 1 then stockTable 4096 lua51Fns
    else if h = 2 then stockTable 1048576 lua51Fns
    else []
  imports _ := []
  snapshot := some [1, 2]
  moduleName _ := ""
  moduleFileName _ := ""
  symLoadModule64 _ _ := 0
  symGetModuleInfo64 _ _ := none
  pdbFileExists _ := false
  locateSymFile _ _ := none
  luaSymbols _ _ := []
  getModuleHandle_mem name h := by
    by_cases hn : name = "lua51.dll"
    · simp [hn]
    · simp [hn] at h
  snapshot_mem := by simp

/-- The first load, from module `1`, leaves that module's symbols. -/
theorem loadAll_first :
    ∃ p, loadAll ⟨0, 0⟩ [(twoLuaWorld, 1)] (Process.fresh fun _ => true) = .ok p ∧
      p.ctx.symbols = stockSymbols 4096 lua51Fns := by
  have h1 : twoLuaWorld.exports 1 = stockTable 4096 lua51Fns := by
    simp [twoLuaWorld]
  have hT : moduleTable twoLuaWorld 1 = stockSymbols 4096 lua51Fns := by
    rw [moduleTable, odbkGetExports, h1, stockSymbols]
  obtain ⟨p, hp, hs⟩ := loadAll_module twoLuaWorld ⟨0, 0⟩ (show (1 : Handle) ≠ nullptr by decide)
    (Process.fresh fun _ => true)
  exact ⟨p, hp, hs.trans hT⟩

theorem processExports_twoLuaWorld :
    processExports twoLuaWorld = stockTable 1048576 lua51Fns := by
  have hf : twoLuaWorld.firstLoaded builtinModules = some 2 := by decide
  have h2 : twoLuaWorld.exports 2 = stockTable 1048576 lua51Fns := by
    simp [twoLuaWorld]
  rw [processExports, hf]
  exact h2

theorem load_history_free_iff_first :
    ∃ p, loadAll ⟨0, 0⟩ [(twoLuaWorld, 1)] (Process.fresh fun _ => true) = .ok p ∧
      (SameOutcome (odbkLoadLuaInternal twoLuaWorld ⟨0, 0⟩ nullptr p)
          (odbkLoadLuaInternal twoLuaWorld ⟨0, 0⟩ nullptr (Process.fresh fun _ => true)) ↔
        Unaffected twoLuaWorld ⟨0, 0⟩ nullptr p) := by
  obtain ⟨p, hp, _⟩ := loadAll_first
  exact ⟨p, hp, load_history_free_iff ⟨0, 0⟩ _ _ twoLuaWorld nullptr hp⟩

/-- After a load from module `1`, a load with a null handle binds module `1` again and
not the module that a new process would bind. -/
theorem stale_after_first :
    ∃ p, loadAll ⟨0, 0⟩ [(twoLuaWorld, 1)] (Process.fresh fun _ => true) = .ok p ∧
      ¬ SameOutcome (odbkLoadLuaInternal twoLuaWorld ⟨0, 0⟩ nullptr p)
        (odbkLoadLuaInternal twoLuaWorld ⟨0, 0⟩ nullptr (Process.fresh fun _ => true)) := by
  obtain ⟨p, hl, hs⟩ := loadAll_first
  refine ⟨p, hl, fun h => ?_⟩
  have hp := configured_loadAll (configured_fresh fun _ => true) hl
  have hd : p.dbghelp = fun _ => true := dbghelp_loadAll hl
  rw [← hd] at h
  have hu := (historyFree_iff twoLuaWorld ⟨0, 0⟩ nullptr hp).mp h
  have hx := processExports_twoLuaWorld
  have ho := (hu.accepted (by
    rw [boundTable, exportsOf, if_pos rfl, hx]
    exact accepts_lua51 1048576)).offered .luaNewthread rfl
  have hoffer : ∀ T : Symbols, offer T .luaNewthread = getLuaFn T (Fn.name .luaNewthread) :=
    offer_of_bindNames rfl
  have hm : Fn.luaNewthread ∈ lua51Fns := by decide
  have hfind : ∀ base : Addr, (stockSymbols base lua51Fns).find? (Fn.name .luaNewthread) =
      some (Fn.stockAddr base .luaNewthread) := by
    intro base
    rw [find?_stockSymbols, if_pos hm]
  -- the left-over address wins over the one exported
  have hold : getLuaFn (boundTable twoLuaWorld nullptr p.ctx.symbols)
      (Fn.name .luaNewthread) = some (.image (Fn.stockAddr 4096 .luaNewthread)) := by
    rw [boundTable, exportsOf, if_pos rfl, hs, getLuaFn_emplaceAll (hfind 4096),
      getLuaFn_stockSymbols, if_pos hm]
  have hnew : getLuaFn (boundTable twoLuaWorld nullptr .empty) (Fn.name .luaNewthread) =
      some (.image (Fn.stockAddr 1048576 .luaNewthread)) := by
    rw [boundTable, exportsOf, if_pos rfl, if_pos rfl, hx]
    exact (getLuaFn_stockSymbols 1048576 lua51Fns .luaNewthread).trans (if_pos hm)
  rw [hoffer, hoffer, hold, hnew] at ho
  revert ho
  decide

end Odbk
