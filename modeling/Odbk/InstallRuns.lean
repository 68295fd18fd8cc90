import Odbk.Install

/-!
# Installs after installs

Repeated installs share the API pointers and the hooks. Proved here:

* `managed_of_reached`: what every sequence of loads and installs keeps;
* `failed_install_hooks_iff`, `nothingToHook_fresh_iff`: when an install whose load
  failed makes no hook, in any process and in a new one;
* `undisturbed_iff`, `install_run_iff`: in a run of installs, exactly when every
  hooked function runs its detour once and then its own code.
-/

namespace Odbk

open BindScript HookRegistry

/-! ## Installs whose load fails -/

/-- The processes that loads and installs, of any result, lead to. -/
inductive Reached (core : OdbkCore) (dbghelp : DbgFn → Bool) : Process → Prop
  | fresh : Reached core dbghelp (Process.fresh dbghelp)
  | load {W : World} {hLua : Handle} {p : Process} {r : Process × Bool} :
      Reached core dbghelp p → odbkLoadLuaInternal W core hLua p = .ok r →
      Reached core dbghelp r.1
  | install {W : World} {hModule : Handle} {p q : Process} :
      Reached core dbghelp p → odbkInstall W core hModule p = .ok q → Reached core dbghelp q

/-- The pointer a load leaves, accepted or not: what the table gives if a step run
for the pointer looked it up, else what was there. -/
def leftPtr (T : Symbols) (p : Process) (f : Fn) : Option (Code Addr) :=
  match detectVersion T with
  | none => p.ptr f
  | some v =>
    ((executed T v).filter fun s => s.slot = f).getLast?.elim (p.ptr f) fun s =>
      firstOf (getLuaFn T) s.names

/-- The version a load leaves. -/
def leftVersion (T : Symbols) (p : Process) : Int :=
  match detectVersion T with
  | none => p.ctx.version
  | some v => v.version

/-- A load leaves a pointer alone, or with what the table gives for a step run. -/
theorem leftPtr_cases {T : Symbols} {v : LuaVersion} (hv : detectVersion T = some v) (p : Process)
    (f : Fn) :
    (leftPtr T p f = p.ptr f ∧ ∀ s ∈ executed T v, s.slot ≠ f) ∨
      ∃ s ∈ executed T v, s.slot = f ∧ leftPtr T p f = firstOf (getLuaFn T) s.names := by
  simp only [leftPtr, hv]
  cases hl : ((executed T v).filter fun s => s.slot = f).getLast? with
  | none =>
    rw [List.getLast?_eq_none_iff, List.filter_eq_nil_iff] at hl
    exact Or.inl ⟨rfl, fun s hs he => hl s hs (decide_eq_true he)⟩
  | some s =>
    obtain ⟨hs, he⟩ := List.mem_filter.mp (List.mem_of_getLast? hl)
    exact Or.inr ⟨s, hs, of_decide_eq_true he, rfl⟩

/-- **Any load**: the pointers, the version and the hooks it leaves. -/
theorem load_left {W : World} {core : OdbkCore} {hLua : Handle} {p : Process}
    {r : Process × Bool} (hp : Configured p) (h : odbkLoadLuaInternal W core hLua p = .ok r) :
    r.1.toPatched = ⟨leftPtr (boundTable W hLua p.ctx.symbols) p, p.registry⟩ ∧
      r.1.ctx.version = leftVersion (boundTable W hLua p.ctx.symbols) p := by
  have hreg := registry_load h
  obtain ⟨q, rfl, hs, hptr, hver, _⟩ := load_binds hp h
  have hl : (odbkLuaFinishLoad q).1.ptr = leftPtr (boundTable W hLua p.ctx.symbols) p := by
    funext f
    rw [ptr_odbkLuaFinishLoad, leftPtr, ← hs, ← hptr]
    cases detectVersion q.ctx.symbols with
    | none => rfl
    | some v => exact foldl_assign _ _ _ _
  constructor
  · rw [← hl, ← hreg]
  · rw [ctx_odbkLuaFinishLoad, leftVersion, ← hs]
    cases detectVersion q.ctx.symbols with
    | none => exact hver
    | some v => rfl

theorem sound_left {T : Symbols} {p : Process} (hs : Patched.Sound Detour.fn p.toPatched) :
    Patched.Sound Detour.fn ⟨leftPtr T p, p.registry⟩ := by
  refine Patched.sound_rebind hs fun g => ?_
  cases hv : detectVersion T with
  | none =>
    left
    simp only [leftPtr, hv]
  | some v =>
    rcases leftPtr_cases hv p g with ⟨he, _⟩ | ⟨s, _, _, he⟩
    · exact Or.inl he
    · refine Or.inr fun k hk => ?_
      have hk : firstOf (getLuaFn T) s.names = some (.trampoline k) := by
        rw [← he]
        exact hk
      obtain ⟨a, ha⟩ := image_of_firstOf hk
      cases ha

theorem managed_load {W : World} {core : OdbkCore} {hLua : Handle} {p : Process}
    {r : Process × Bool} (hp : Managed p) (h : odbkLoadLuaInternal W core hLua p = .ok r) :
    Managed r.1 where
  configured := configured_load hp.configured h
  sound := by
    rw [(load_left hp.configured h).1]
    exact sound_left hp.sound
  enabled c := by
    rw [registry_load h]
    exact hp.enabled c

theorem managed_install {p : Process} (hp : Managed p) : Managed (odbkInstallLuaHooks p) where
  configured := by
    have hctx : (odbkInstallLuaHooks p).ctx = p.ctx := by rw [odbkInstallLuaHooks_eq]
    exact ⟨hctx ▸ hp.configured.restricts, hctx ▸ hp.configured.specified⟩
  sound := sound_install hp.sound
  enabled := allEnabled_install p

theorem odbkInstall_of_load {W : World} {core : OdbkCore} {hModule : Handle} {p : Process}
    {r : Process × Bool} (h : odbkLoadLuaInternal W core hModule p = .ok r) :
    odbkInstall W core hModule p = .ok (odbkInstallLuaHooks r.1) := by
  rw [odbkInstall, h]

theorem odbkInstall_ok {W : World} {core : OdbkCore} {hModule : Handle} {p p' : Process}
    (h : odbkInstall W core hModule p = .ok p') :
    ∃ r, odbkLoadLuaInternal W core hModule p = .ok r ∧ p' = odbkInstallLuaHooks r.1 := by
  unfold odbkInstall at h
  cases hl : odbkLoadLuaInternal W core hModule p with
  | error e =>
    rw [hl] at h
    cases h
  | ok r =>
    rw [hl] at h
    cases h
    exact ⟨r, rfl, rfl⟩

theorem managed_of_reached {core : OdbkCore} {dbghelp : DbgFn → Bool} {p : Process}
    (h : Reached core dbghelp p) : Managed p := by
  induction h with
  | fresh => exact managed_fresh dbghelp
  | load _ hl ih => exact managed_load ih hl
  | install _ hi ih =>
    obtain ⟨r, hl, rfl⟩ := odbkInstall_ok hi
    exact managed_install (managed_load ih hl)

/-- Every function with a detour is left with a null pointer or one that has a hook. -/
def NothingToHook (T : Symbols) (p : Process) : Prop :=
  ∀ e ∈ hookSites (leftVersion T p), ∀ c, leftPtr T p e.1 = some c → c ∈ p.registry.targets

/-- An install hooks nothing exactly when its load leaves nothing to hook. -/
theorem install_targets_iff {W : World} {core : OdbkCore} {hModule : Handle} {p p' : Process}
    (hp : Configured p) (h : odbkInstall W core hModule p = .ok p') :
    (∀ c, c ∈ p'.registry.targets ↔ c ∈ p.registry.targets) ↔
      NothingToHook (boundTable W hModule p.ctx.symbols) p := by
  obtain ⟨r, hl, rfl⟩ := odbkInstall_ok h
  obtain ⟨hleft, hver⟩ := load_left hp hl
  have hmem : ∀ c, c ∈ (odbkInstallLuaHooks r.1).registry.targets ↔
      c ∈ (r.1.toPatched.patchAll (hookSites r.1.ctx.version)).registry.targets := by
    intro c
    rw [odbkInstallLuaHooks_eq]
    exact Iff.of_eq (congrArg (c ∈ ·) (targets_enableAll _))
  simp only [hmem]
  rw [hleft, hver]
  exact Patched.patchAll_targets_iff ⟨leftPtr _ p, p.registry⟩ _

/-- **Failed installs.** If the load of an install fails, the install hooks nothing
exactly when the load leaves nothing to hook. -/
theorem failed_install_hooks_iff {core : OdbkCore} {dbghelp : DbgFn → Bool} {p p' : Process}
    (hp : Reached core dbghelp p) (W : World) (hModule : Handle)
    (h : odbkInstall W core hModule p = .ok p') :
    ((∃ q, odbkLoadLuaInternal W core hModule p = .ok (q, false)) →
        ∀ c, c ∈ p'.registry.targets ↔ c ∈ p.registry.targets) ↔
      accepts (boundTable W hModule p.ctx.symbols) = true ∨
        NothingToHook (boundTable W hModule p.ctx.symbols) p := by
  have hc := (managed_of_reached hp).configured
  obtain ⟨⟨q, b⟩, hl, _⟩ := odbkInstall_ok h
  have hb := load_snd hc hl
  rw [install_targets_iff hc h]
  cases ha : accepts (boundTable W hModule p.ctx.symbols) with
  | true =>
    refine iff_of_true (fun hf => ?_) (Or.inl rfl)
    obtain ⟨q', hq'⟩ := hf
    rw [hl, hb, ha] at hq'
    cases hq'
  | false =>
    rw [hb, ha] at hl
    constructor
    · intro himp
      exact Or.inr (himp ⟨q, hl⟩)
    · rintro (hf | hn) _
      · cases hf
      · exact hn

/-- A step that has run leaves its pointer with what the table gives for it, if all
steps for the pointer look up the same names. -/
theorem leftPtr_of_mem {T : Symbols} {v : LuaVersion} (hv : detectVersion T = some v)
    {s : BindStep Fn String} (hs : s ∈ executed T v)
    (hk : ∀ t ∈ bindings v.version, t.slot = s.slot → t.names = s.names) (p : Process) :
    leftPtr T p s.slot = firstOf (getLuaFn T) s.names := by
  rcases leftPtr_cases hv p s.slot with ⟨_, hnone⟩ | ⟨t, ht, hslot, he⟩
  · exact absurd rfl (hnone s hs)
  · have hmem : t ∈ bindings v.version := (List.mem_filter.mp (mem_of_mem_reached ht)).1
    rw [he, hk t hmem hslot]

/-- The two steps that every run begins with. -/
theorem bindings_head (version : Int) :
    ∃ rest, bindings version =
      getFunctionOptional .luaOpen :: getFunctionUnless .luaOpen .luaNewstate :: rest ∧
      ∀ t ∈ bindings version, t.slot = .luaOpen ∨ t.slot = .luaNewstate →
        t.names = [t.slot.name] := by
  refine ⟨_, rfl, ?_⟩
  exact bindings_cases (P := fun l => ∀ t ∈ l, t.slot = .luaOpen ∨ t.slot = .luaNewstate →
    t.names = [t.slot.name]) (by decide +kernel) (by decide +kernel) version

/-- Whatever else a table lacks, its `lua_open` is bound. -/
theorem leftPtr_luaOpen {T : Symbols} {v : LuaVersion} (hv : detectVersion T = some v)
    (p : Process) : leftPtr T p .luaOpen = getLuaFn T "lua_open" := by
  obtain ⟨rest, hb, hnames⟩ := bindings_head v.version
  have hs : getFunctionOptional .luaOpen ∈ executed T v := by
    rw [executed, selected, hb, active, List.filter_cons_of_pos rfl]
    exact head_mem_reached _ _ _
  have hleft := leftPtr_of_mem hv hs (fun t ht he => by
    rw [hnames t ht (Or.inl he), he]
    rfl) p
  exact hleft.trans (by simp [getFunctionOptional, firstOf, Fn.name])

/-- Without `lua_open` the second step runs. -/
theorem executed_without_open (T : Symbols) (v : LuaVersion) (ho : getLuaFn T "lua_open" = none) :
    ∃ rest, executed T v = getFunctionOptional .luaOpen ::
      reached (getLuaFn T) (getFunctionUnless .luaOpen .luaNewstate :: rest) := by
  obtain ⟨rest, hb, _⟩ := bindings_head v.version
  have hsel : selected T v = getFunctionOptional .luaOpen ::
      getFunctionUnless .luaOpen .luaNewstate :: active (getLuaFn T) guardNames rest := by
    rw [selected, hb, active, List.filter_cons_of_pos, List.filter_cons_of_pos]
    · rfl
    · simp [getFunctionUnless, guardNames, firstOf, Fn.name, ho]
    · rfl
  have hpresent : missing (getLuaFn T) (getFunctionOptional .luaOpen) = false := rfl
  exact ⟨_, by rw [executed, hsel, reached_cons_of_present hpresent]⟩

/-- Without `lua_open` the `lua_newstate` of a table is bound, whatever else it lacks. -/
theorem leftPtr_luaNewstate {T : Symbols} {v : LuaVersion} (hv : detectVersion T = some v)
    (ho : getLuaFn T "lua_open" = none) (p : Process) :
    leftPtr T p .luaNewstate = getLuaFn T "lua_newstate" := by
  obtain ⟨_, _, hnames⟩ := bindings_head v.version
  obtain ⟨rest, hex⟩ := executed_without_open T v ho
  have hs : getFunctionUnless .luaOpen .luaNewstate ∈ executed T v := by
    rw [hex]
    exact List.mem_cons_of_mem _ (head_mem_reached _ _ _)
  have hleft := leftPtr_of_mem hv hs (fun t ht he => by
    rw [hnames t ht (Or.inr he), he]
    rfl) p
  exact hleft.trans (by simp [getFunctionUnless, firstOf, Fn.name])

/-- Without either function the load ends at once, and no pointer is set by it. -/
theorem leftPtr_without_state {T : Symbols} {v : LuaVersion} (hv : detectVersion T = some v)
    (ho : getLuaFn T "lua_open" = none) (hn : getLuaFn T "lua_newstate" = none) (p : Process)
    (f : Fn) : leftPtr T p f = p.ptr f ∨ leftPtr T p f = none := by
  obtain ⟨rest, hex⟩ := executed_without_open T v ho
  have hm : missing (getLuaFn T) (getFunctionUnless .luaOpen .luaNewstate) = true := by
    simp [missing, getFunctionUnless, firstOf, Fn.name, hn]
  rw [reached_cons_of_missing hm] at hex
  rcases leftPtr_cases hv p f with ⟨he, _⟩ | ⟨s, hs, _, he⟩
  · exact Or.inl he
  · right
    rw [hex] at hs
    rcases List.mem_pair.mp hs with rfl | rfl
    · simp [he, getFunctionOptional, firstOf, Fn.name, ho]
    · simp [he, getFunctionUnless, firstOf, Fn.name, hn]

/-- In a new process nothing is hooked yet, so a pointer left set is hooked. -/
theorem not_nothingToHook_fresh {dbghelp : DbgFn → Bool} {T : Symbols} {f : Fn} {d : Detour}
    {c : Code Addr} (hm : (f, d) ∈ hookSitesFront)
    (hc : leftPtr T (Process.fresh dbghelp) f = some c) :
    ¬ NothingToHook T (Process.fresh dbghelp) := by
  intro h
  have hsite : (f, d) ∈ hookSites (leftVersion T (Process.fresh dbghelp)) := by
    simp [hookSites, hookSitesOf, hm]
  cases h (f, d) hsite c hc

/-- In a new process an install hooks nothing exactly when the table is not that of a
Lua VM, or lacks both functions that create a state. -/
theorem nothingToHook_fresh_iff (dbghelp : DbgFn → Bool) (T : Symbols) :
    NothingToHook T (Process.fresh dbghelp) ↔
      detectVersion T = none ∨
        (getLuaFn T "lua_open" = none ∧ getLuaFn T "lua_newstate" = none) := by
  cases hv : detectVersion T with
  | none =>
    refine iff_of_true (fun e _ c hc => ?_) (Or.inl rfl)
    simp only [leftPtr, hv] at hc
    cases hc
  | some v =>
    constructor
    · intro h
      have ho : getLuaFn T "lua_open" = none := by
        by_contra hne
        obtain ⟨c, hc⟩ := Option.ne_none_iff_exists'.mp hne
        exact not_nothingToHook_fresh (d := .luaOpenHook) (by decide)
          ((leftPtr_luaOpen hv _).trans hc) h
      have hn : getLuaFn T "lua_newstate" = none := by
        by_contra hne
        obtain ⟨c, hc⟩ := Option.ne_none_iff_exists'.mp hne
        exact not_nothingToHook_fresh (d := .luaNewstateHook) (by decide)
          ((leftPtr_luaNewstate hv ho _).trans hc) h
      exact Or.inr ⟨ho, hn⟩
    · rintro (h | ⟨ho, hn⟩)
      · cases h
      · intro e _ c hc
        -- every pointer of a new process is null before the load
        rcases leftPtr_without_state hv ho hn (Process.fresh dbghelp) e.1 with he | he
        · rw [he] at hc
          cases hc
        · rw [he] at hc
          cases hc

/-- A Lua module that lacks all but two functions. -/
def brokenWorld : World := World.exporting (stockTable 4096 [.luaGettop, .luaNewstate])

/-- The load fails, and `lua_newstate` is hooked all the same. -/
theorem broken_install_hooks :
    ∃ p', odbkInstall brokenWorld ⟨0, 0⟩ 1 (Process.fresh fun _ => true) = .ok p' ∧
      (∃ q, odbkLoadLuaInternal brokenWorld ⟨0, 0⟩ 1 (Process.fresh fun _ => true) =
        .ok (q, false)) ∧
      ¬ ∀ c, c ∈ p'.registry.targets ↔ c ∈ (Process.fresh fun _ => true).registry.targets := by
  have hacc : accepts (stockSymbols 4096 [.luaGettop, .luaNewstate]) = false := by decide +kernel
  have hl := load_exporting 4096 [.luaGettop, .luaNewstate] ⟨0, 0⟩ (Process.fresh fun _ => true)
  rw [hacc] at hl
  have hi := odbkInstall_of_load hl
  refine ⟨_, hi, ⟨_, hl⟩, fun h => ?_⟩
  have hn := (install_targets_iff (configured_fresh fun _ => true) hi).mp h
  have hm : ∀ version, (.luaNewstate, .luaNewstateHook) ∈ hookSites version := by
    intro version
    simp [hookSites, hookSitesOf, hookSitesFront]
  have hp : leftPtr (boundTable brokenWorld 1 (Process.fresh fun _ => true).ctx.symbols)
      (Process.fresh fun _ => true) .luaNewstate =
        some (.image (Fn.stockAddr 4096 .luaNewstate)) := by decide +kernel
  exact absurd (hn _ (hm _) _ hp) (by simp [Process.fresh, HookRegistry.empty, targets])

theorem failed_install_hooks_iff_broken :
    ∃ p', odbkInstall brokenWorld ⟨0, 0⟩ 1 (Process.fresh fun _ => true) = .ok p' ∧
      (((∃ q, odbkLoadLuaInternal brokenWorld ⟨0, 0⟩ 1 (Process.fresh fun _ => true) =
          .ok (q, false)) →
          ∀ c, c ∈ p'.registry.targets ↔ c ∈ (Process.fresh fun _ => true).registry.targets) ↔
        accepts (boundTable brokenWorld 1 (Process.fresh fun _ => true).ctx.symbols) = true ∨
          NothingToHook (boundTable brokenWorld 1 (Process.fresh fun _ => true).ctx.symbols)
            (Process.fresh fun _ => true)) := by
  have hi := odbkInstall_of_load (load_exporting 4096 [.luaGettop, .luaNewstate] ⟨0, 0⟩
    (Process.fresh fun _ => true))
  exact ⟨_, hi, failed_install_hooks_iff .fresh brokenWorld 1 hi⟩

/-! ## Runs of installs -/

/-- One install of a run. -/
structure InstallStep where
  world : World
  hModule : Handle
  before : Process
  after : Process

/-- The load of the install succeeds. -/
def InstallStep.Accepted (core : OdbkCore) (e : InstallStep) : Prop :=
  ∃ q, odbkLoadLuaInternal e.world core e.hModule e.before = .ok (q, true) ∧
    e.after = odbkInstallLuaHooks q

/-- The table the install binds. -/
def InstallStep.table (e : InstallStep) : Symbols :=
  boundTable e.world e.hModule e.before.ctx.symbols

/-- Accepted installs one after the other, from a given process. -/
inductive InstallRun (core : OdbkCore) : Process → List InstallStep → Prop
  | nil (p : Process) : InstallRun core p []
  | cons {e : InstallStep} {l : List InstallStep} : e.Accepted core →
      InstallRun core e.after l → InstallRun core e.before (e :: l)

theorem InstallStep.Accepted.install {core : OdbkCore} {e : InstallStep} (h : e.Accepted core) :
    odbkInstall e.world core e.hModule e.before = .ok e.after := by
  obtain ⟨q, hl, he⟩ := h
  rw [odbkInstall_of_load hl, he]

/-- Every function hooked at its own address runs its detour once and then its
original code. -/
def RunsOriginals (p : Process) : Prop :=
  ∀ a d, p.registry.detourOf (.image a) = some d → RunsOnceThen p (.image a) d a

/-- The function that a detour prefers to the one it stands in for. -/
def Detour.forwardsTo : Detour → Option Fn
  | .luaLLoadbufferHook => some .luaLLoadbufferx
  | .luaLLoadfileHook => some .luaLLoadfilex
  | _ => none

/-- Binding table `T` and hooking it disturbs no hooked function: the pointer behind
each hook made before is spared, and no detour hooked now prefers another
function that the table offers. -/
structure Undisturbed (T : Symbols) (p : Process) : Prop where
  spares : ∀ a d, p.registry.detourOf (.image a) = some d → spared T d.fn = true
  direct : ∀ v a f d x, detectVersion T = some v → p.registry.detourOf (.image a) = none →
    (afterLoad T p).siteAt (hookSites v.version) a = some (f, d) →
    d.forwardsTo = some x → offer T x = none

theorem callee_of_bound {p : Process} {d : Detour} (h : (p.ptr d.fn).isSome = true)
    (hf : ∀ x, d.forwardsTo = some x → (p.ptr x).isSome = false) : d.callee p = some d.fn := by
  cases d with
  | luaLLoadbufferxHook => exact if_pos h
  | luaLLoadfilexHook => exact if_pos h
  | luaLLoadbufferHook =>
    have hx := hf .luaLLoadbufferx rfl
    exact (if_neg (by simp [hx])).trans (if_pos h)
  | luaLLoadfileHook =>
    have hx := hf .luaLLoadfilex rfl
    exact (if_neg (by simp [hx])).trans (if_pos h)
  | _ => rfl

/-- The detours that choose between functions stand in for functions that every
accepted table binds anew, and call only such functions. -/
theorem callee_not_spared {p : Process} {d : Detour} {f : Fn} {T : Symbols}
    (h : d.callee p = some f) (hd : spared T d.fn = false) : spared T f = false := by
  have hb : ∀ {g g' : Fn}, firstBound p g g' = some f → spared T g = false →
      spared T g' = false → spared T f = false := by
    intro g g' hfb hg hg'
    rcases (firstBound_isSome hfb).2 with rfl | rfl
    · exact hg
    · exact hg'
  cases d with
  | luaLLoadbufferxHook => exact hb h rfl rfl
  | luaLLoadfilexHook => exact hb h rfl rfl
  | luaLLoadbufferHook => exact hb h rfl rfl
  | luaLLoadfileHook => exact hb h rfl rfl
  | _ =>
    cases h
    exact hd

theorem forwardsTo_of_spared {T : Symbols} {d : Detour} (h : spared T d.fn = true) :
    d.forwardsTo = none := by
  cases d <;> first | rfl | cases h

theorem forwardsTo_not_spared {T : Symbols} {d : Detour} {x : Fn} (h : d.forwardsTo = some x) :
    spared T x = false := by
  cases d <;> cases h <;> rfl

theorem find?_before {α : Type} {P : α → Bool} {pre rest : List α} {e e' : α} (he : e ∈ pre)
    (he' : e' ∉ pre) (h : (pre ++ rest).find? P = some e') : P e = false := by
  rw [List.find?_append] at h
  cases hp : pre.find? P with
  | none => simpa using List.find?_eq_none.mp hp e he
  | some e'' =>
    rw [hp, Option.some_or, Option.some.injEq] at h
    subst h
    exact absurd (List.mem_of_find?_eq_some hp) he'

/-- The function that a detour prefers is hooked before the one it stands in for. -/
theorem preferred_site_first {version : Int} {P : Fn × Detour → Bool} {f : Fn} {d : Detour} {x : Fn}
    (h : (hookSites version).find? P = some (f, d)) (hx : d.forwardsTo = some x) :
    ∃ d', P (x, d') = false ∧ d'.fn = x := by
  have hsplit : ∀ n, hookSites version =
      hookSitesFront.take n ++ (hookSitesFront.drop n ++ ((hookSites version).drop 16)) := by
    intro n
    rw [← List.append_assoc, List.take_append_drop]
    rfl
  have hfn : d.fn = f := fn_of_mem_hookSites (f, d) (List.mem_of_find?_eq_some h)
  cases d with
  | luaLLoadbufferHook =>
    cases hx
    rw [hsplit 13, ← hfn] at h
    exact ⟨.luaLLoadbufferxHook, find?_before (by decide) (by decide) h, rfl⟩
  | luaLLoadfileHook =>
    cases hx
    rw [hsplit 15, ← hfn] at h
    exact ⟨.luaLLoadfilexHook, find?_before (by decide) (by decide) h, rfl⟩
  | _ => cases hx

/-! ## Undisturbed hooks -/

/-- Every hooked address is what the pointer behind its detour leads to, and its
detour calls that pointer. -/
structure Linked (p : Process) : Prop where
  faithful : Patched.Faithful Detour.fn p.toPatched
  calls : ∀ a d, p.registry.detourOf (.image a) = some d → d.callee p = some d.fn

theorem linked_fresh (dbghelp : DbgFn → Bool) : Linked (Process.fresh dbghelp) :=
  ⟨fun _ _ h => (nomatch h), fun _ _ h => (nomatch h)⟩

theorem runsOriginals_of_linked {p : Process} (hall : AllEnabled p) (h : Linked p) :
    RunsOriginals p := fun a d hd =>
  (once_iff hall hd a).mpr ⟨d.fn, h.calls a d hd, h.faithful a d hd⟩

/-- An install that disturbs nothing keeps the hooks linked. -/
theorem linked_install {T : Symbols} {v : LuaVersion} {p p' : Process} (hl : Linked p)
    (hv : detectVersion T = some v) (hi : Installed T v p p') (hu : Undisturbed T p) :
    Linked p' := by
  have hfaith : Patched.Faithful Detour.fn p'.toPatched := by
    refine hi.faithful fun a d hd => ?_
    have hd' : p.registry.detourOf (.image a) = some d := hd
    have hl' := hl.faithful a d hd'
    have hr : rebound T p d.fn = p.ptr d.fn := by rw [rebound, hu.spares a d hd', if_pos rfl]
    rw [Patched.leadsTo] at hl' ⊢
    rw [show (afterLoad T p).ptr d.fn = p.ptr d.fn from hr]
    exact hl'
  refine ⟨hfaith, fun a d hd => ?_⟩
  have hbound : (p'.ptr d.fn).isSome = true := by
    have := hfaith a d hd
    rw [Patched.leadsTo, Option.bind_eq_some_iff] at this
    obtain ⟨c, hc, _⟩ := this
    rw [hc, Option.isSome_some]
  refine callee_of_bound hbound fun x hx => ?_
  rw [hi.detour a] at hd
  cases hp : p.registry.detourOf (.image a) with
  | some d₀ =>
    rw [hp, Option.some_or, Option.some.injEq] at hd
    subst hd
    rw [forwardsTo_of_spared (hu.spares a d₀ hp)] at hx
    cases hx
  | none =>
    rw [hp, Option.none_or, Option.map_eq_some_iff] at hd
    obtain ⟨⟨f, d'⟩, hs, rfl⟩ := hd
    rw [hi.isSome x, rebound, forwardsTo_not_spared hx, if_neg Bool.false_ne_true,
      hu.direct v a f d' x hv hp hs hx, Option.isSome_none]

/-- What a hooked function's detour leads to was not bound anew. -/
theorem spared_of_runsOriginals {T : Symbols} {v : LuaVersion} {p p' : Process}
    (hi : Installed T v p p') (hr : RunsOriginals p') {a : Addr} {d : Detour}
    (hd : p.registry.detourOf (.image a) = some d) : spared T d.fn = true := by
  have hd' : p'.registry.detourOf (.image a) = some d := by rw [hi.detour a, hd, Option.some_or]
  obtain ⟨f, hf, hlead⟩ := (once_iff hi.managed.enabled hd' a).mp (hr a d hd')
  have hlead := hi.leadsTo f a hlead
  by_contra hns
  have hsf := callee_not_spared hf (by simpa using hns)
  have hmem : .image a ∈ (afterLoad T p).registry.targets := mem_targets_of_detourOf hd
  refine Patched.not_leadsTo_of_hooked hmem ?_ hlead
  intro k hk
  have hoff : offer T f = some (.trampoline k) := by
    simpa [afterLoad, rebound, hsf] using hk
  obtain ⟨b, hb⟩ := image_of_firstOf hoff
  cases hb

/-- A detour hooked now has no function to prefer. -/
theorem direct_of_runsOriginals {T : Symbols} {v : LuaVersion} {p p' : Process}
    (hi : Installed T v p p') (hr : RunsOriginals p') {a : Addr} {f : Fn} {d : Detour}
    (hn : p.registry.detourOf (.image a) = none)
    (hs : (afterLoad T p).siteAt (hookSites v.version) a = some (f, d)) {x : Fn}
    (hx : d.forwardsTo = some x) : offer T x = none := by
  have hsx := forwardsTo_not_spared (T := T) hx
  have hd' : p'.registry.detourOf (.image a) = some d := by
    rw [hi.detour a, hn, hs, Option.none_or, Option.map_some]
  obtain ⟨g, hg, hlead⟩ := (once_iff hi.managed.enabled hd' a).mp (hr a d hd')
  cases ho : offer T x with
  | none => rfl
  | some c =>
    obtain ⟨b, rfl⟩ := image_of_firstOf ho
    have hptr : rebound T p x = some (.image b) := by
      rw [rebound, hsx, if_neg Bool.false_ne_true, ho]
    have hgx : g = x := by
      have hsome : (p'.ptr x).isSome = true := by rw [hi.isSome x, hptr, Option.isSome_some]
      cases d <;> cases hx <;>
        · rw [Detour.callee, firstBound, if_pos hsome, Option.some.injEq] at hg
          exact hg.symm
    subst hgx
    -- the pointer called still leads to its own code, so that code is at `a`
    have hlead := hi.leadsTo g a hlead
    rw [Patched.leadsTo, show (afterLoad T p).ptr g = some (.image b) from hptr, Option.bind_some,
      leads_eq_some] at hlead
    have hba : b = a := by simpa [origin] using hlead.2
    obtain ⟨d', hpre, _⟩ := preferred_site_first hs hx
    have : decide ((afterLoad T p).ptr g = some (.image a)) = false := hpre
    rw [show (afterLoad T p).ptr g = some (.image b) from hptr, hba] at this
    simp at this

/-- **One install**: hooks stay linked exactly when the install disturbs nothing. -/
theorem undisturbed_iff {T : Symbols} {v : LuaVersion} {p p' : Process} (hl : Linked p)
    (hv : detectVersion T = some v) (hi : Installed T v p p') :
    RunsOriginals p' ↔ Undisturbed T p := by
  constructor
  · intro hr
    refine ⟨fun a d hd => spared_of_runsOriginals hi hr hd, fun w a f d x hw hn hs hx => ?_⟩
    rw [hv, Option.some.injEq] at hw
    subst hw
    exact direct_of_runsOriginals hi hr hn hs hx
  · intro hu
    exact runsOriginals_of_linked hi.managed.enabled (linked_install hl hv hi hu)

/-- **Any run of installs.** Every hooked function runs its detour once and then its
original code, in every state the run reaches, exactly when no install of the
run disturbs the hooks. -/
theorem install_run_iff (core : OdbkCore) (dbghelp : DbgFn → Bool) {steps : List InstallStep}
    (run : InstallRun core (Process.fresh dbghelp) steps) :
    (∀ e ∈ steps, RunsOriginals e.after) ↔ ∀ e ∈ steps, Undisturbed e.table e.before := by
  have key : ∀ {p : Process} {steps : List InstallStep}, InstallRun core p steps →
      Managed p → Linked p →
      ((∀ e ∈ steps, RunsOriginals e.after) ↔ ∀ e ∈ steps, Undisturbed e.table e.before) := by
    intro p steps run
    induction run with
    | nil p =>
      intro _ _
      simp
    | cons hacc _ ih =>
      rename_i e l _
      intro hm hl
      obtain ⟨q, hload, hafter⟩ := hacc
      obtain ⟨v, hv, hi⟩ := install_spec hm hload
      rw [← hafter] at hi
      have hone := undisturbed_iff hl hv hi
      simp only [List.forall_mem_cons]
      rw [hone]
      constructor
      · rintro ⟨hu, hrest⟩
        exact ⟨hu, (ih hi.managed (linked_install hl hv hi hu)).mp hrest⟩
      · rintro ⟨hu, hrest⟩
        exact ⟨hu, (ih hi.managed (linked_install hl hv hi hu)).mpr hrest⟩
  exact key run (managed_fresh dbghelp) (linked_fresh dbghelp)

/-! ## A second install -/

/-- A hooked function that a later install binds to its own address: its detour
calls itself without end. -/
theorem rebound_hook_loops {T : Symbols} {v : LuaVersion} {p p' : Process}
    (hi : Installed T v p p') {a : Addr} {d : Detour}
    (hd : p.registry.detourOf (.image a) = some d)
    (hr : rebound T p d.fn = some (.image a)) (hc : d.callee p' = some d.fn) (fuel : Nat)
    (args : List Val) : runCall p' fuel (.image a) args = List.replicate fuel (.detour d) := by
  have hptr := hi.kept d.fn _ hr (mem_targets_of_detourOf hd)
  have henter : p'.registry.enter (.image a) = some d := by
    rw [hi.managed.enabled, hi.detour a, hd, Option.some_or]
  induction fuel generalizing args with
  | zero => rfl
  | succ fuel ih =>
    have hcallee := callee_eq p' d args
    rw [hc, Option.map_eq_some_iff] at hcallee
    obtain ⟨⟨f, args'⟩, hb, rfl⟩ := hcallee
    rw [runCall_hooked henter hb hptr, ih args', List.replicate_succ]

/-- The same module installed twice. -/
theorem install_twice (base : Addr) (fns : List Fn) {v : LuaVersion}
    (ha : accepts (stockSymbols base fns) = true)
    (hv : detectVersion (stockSymbols base fns) = some v) (core : OdbkCore)
    (dbghelp : DbgFn → Bool) :
    ∃ p₁ p₂,
      InstallRun core (Process.fresh dbghelp)
        [⟨World.exporting (stockTable base fns), 1, Process.fresh dbghelp, p₁⟩,
          ⟨World.exporting (stockTable base fns), 1, p₁, p₂⟩] ∧
      Installed (stockSymbols base fns) v (Process.fresh dbghelp) p₁ ∧
      Installed (stockSymbols base fns) v p₁ p₂ := by
  have hone : ∀ p, Managed p → ∃ p',
      InstallStep.Accepted core ⟨World.exporting (stockTable base fns), 1, p, p'⟩ ∧
      Installed (stockSymbols base fns) v p p' := by
    intro p hp
    have hl := load_exporting base fns core p
    rw [ha] at hl
    obtain ⟨w, hw, hi⟩ := install_spec hp hl
    have hT : boundTable (World.exporting (stockTable base fns)) 1 p.ctx.symbols =
      stockSymbols base fns := rfl
    rw [hT] at hw hi
    rw [hv, Option.some.injEq] at hw
    subst hw
    exact ⟨_, ⟨_, hl, rfl⟩, hi⟩
  obtain ⟨p₁, hacc₁, hi₁⟩ := hone _ (managed_fresh dbghelp)
  obtain ⟨p₂, hacc₂, hi₂⟩ := hone p₁ hi₁.managed
  exact ⟨p₁, p₂, .cons hacc₁ (.cons hacc₂ (.nil p₂)), hi₁, hi₂⟩

/-- After Lua 5.1 is installed twice, a call of `luaopen_base` runs its detour over
and over and never its own code. -/
theorem second_install_loops :
    ∃ p₁ p₂ a,
      InstallRun ⟨0, 0⟩ (Process.fresh fun _ => true)
        [⟨World.exporting (stockTable 4096 lua51Fns), 1, Process.fresh fun _ => true, p₁⟩,
          ⟨World.exporting (stockTable 4096 lua51Fns), 1, p₁, p₂⟩] ∧
      p₂.registry.detourOf (.image a) = some .luaopenBaseHook ∧
      (∀ fuel args, runCall p₂ fuel (.image a) args =
        List.replicate fuel (.detour .luaopenBaseHook)) ∧
      ¬ RunsOriginals p₂ := by
  obtain ⟨p₁, p₂, hrun, hi₁, hi₂⟩ := install_twice 4096 lua51Fns (accepts_lua51 4096)
    (detectVersion_lua51 4096) ⟨0, 0⟩ fun _ => true
  have hoff : ∀ p, rebound (stockSymbols 4096 lua51Fns) p .luaopenBase =
      some (.image (Fn.stockAddr 4096 .luaopenBase)) := by
    intro p
    have hm : Fn.luaopenBase ∈ lua51Fns := by decide
    have hs : spared (stockSymbols 4096 lua51Fns) .luaopenBase = false := rfl
    simp only [rebound, hs, offer, bindNames, firstOf, List.findSome?_cons,
      getLuaFn_stockSymbols, if_pos hm, Bool.false_eq_true, if_false]
  have hd₁ := hooked_fresh hi₁ (distinct_stockSymbols 4096 lua51Fns)
    (show (.luaopenBase, .luaopenBaseHook) ∈ hookSites 510 by decide) (hoff _)
  have hd₂ : p₂.registry.detourOf (.image (Fn.stockAddr 4096 .luaopenBase)) =
      some .luaopenBaseHook := by rw [hi₂.detour, hd₁, Option.some_or]
  have hloop := rebound_hook_loops hi₂ hd₁ (hoff p₁) rfl
  refine ⟨p₁, p₂, _, hrun, hd₂, hloop, fun hr => ?_⟩
  obtain ⟨args, h⟩ := hr _ _ hd₂ []
  have h0 := h 0
  rw [hloop] at h0
  simp at h0

theorem install_run_iff_twice :
    ∃ p₁ p₂, ∃ steps : List InstallStep, steps =
        [⟨World.exporting (stockTable 4096 lua51Fns), 1, Process.fresh fun _ => true, p₁⟩,
          ⟨World.exporting (stockTable 4096 lua51Fns), 1, p₁, p₂⟩] ∧
      ((∀ e ∈ steps, RunsOriginals e.after) ↔ ∀ e ∈ steps, Undisturbed e.table e.before) := by
  obtain ⟨p₁, p₂, hrun, _⟩ := install_twice 4096 lua51Fns (accepts_lua51 4096)
    (detectVersion_lua51 4096) ⟨0, 0⟩ fun _ => true
  exact ⟨p₁, p₂, _, rfl, install_run_iff ⟨0, 0⟩ (fun _ => true) hrun⟩

end Odbk
