import Odbk.Entry
import Odbk.Provenance

/-!
# Installs over installs

An install over a process that has hooks rebinds the pointers their detours call.
Proved here:

* `nullFree_iff`: no call ever goes through a null pointer exactly when the pointers that
  the detours in use call are set;
* `install_run_nullFree_iff`: in a run of installs, exactly when that stays so;
* `trapped_run`: calls that never reach the code of an image;
* `reinstall_settles`: from the second install of one module on nothing changes any more,
  and no hooked function reaches its own code.
-/

namespace Odbk

open BindScript HookRegistry

/-! ## Calls through null pointers -/

/-- The detours that test the pointers they may call; the others call theirs at once. -/
def Detour.tests : Detour → Bool
  | .luaLLoadbufferxHook => true
  | .luaLLoadbufferHook => true
  | .luaLLoadfilexHook => true
  | .luaLLoadfileHook => true
  | _ => false

theorem callee_of_not_tests {d : Detour} (h : d.tests = false) (p : Process) :
    d.callee p = some d.fn := by
  cases d <;> first | rfl | cases h

theorem isSome_of_tests {p : Process} {d : Detour} (h : d.tests = true) {f : Fn}
    (hf : d.callee p = some f) : (p.ptr f).isSome = true := by
  cases d with
  | luaLLoadbufferxHook => exact (firstBound_isSome hf).1
  | luaLLoadbufferHook => exact (firstBound_isSome hf).1
  | luaLLoadfilexHook => exact (firstBound_isSome hf).1
  | luaLLoadfileHook => exact (firstBound_isSome hf).1
  | _ => cases h

/-- No call of any code, with any arguments, goes through a null pointer. -/
def NullFree (p : Process) : Prop :=
  ∀ c fuel args f, .nullCall f ∉ runCall p fuel c args

/-- **Null calls.** There are none exactly when every detour in use that calls its
pointer at once finds it set. -/
theorem nullFree_iff {p : Process} (hall : AllEnabled p) :
    NullFree p ↔
      ∀ c d, p.registry.detourOf c = some d → d.tests = false → (p.ptr d.fn).isSome = true := by
  constructor
  · intro hfree c d hd htests
    have hcallee := callee_eq p d []
    rw [callee_of_not_tests htests p, Option.map_eq_some_iff] at hcallee
    obtain ⟨⟨f, args'⟩, hb, hf⟩ := hcallee
    have hf : f = d.fn := hf
    subst hf
    cases hp : p.ptr d.fn with
    | some c' => rfl
    | none =>
      refine absurd ?_ (hfree c 1 [] d.fn)
      have henter : p.registry.enter c = some d := (hall c).trans hd
      simp [runCall, henter, hb, hp]
  · intro hset c fuel args f hmem
    induction fuel generalizing c args with
    | zero => cases hmem
    | succ fuel ih =>
      rw [runCall] at hmem
      split at hmem
      · split at hmem
        · cases List.mem_singleton.mp hmem
        · cases hmem
      case h_2 d henter =>
        have hd : p.registry.detourOf c = some d := (hall c).symm.trans henter
        rcases List.mem_cons.mp hmem with hmem | hmem
        · cases hmem
        · split at hmem
          · cases hmem
          case h_2 g args' hb =>
            have hcallee : d.callee p = some g := by rw [← callee_eq p d args, hb, Option.map_some]
            split at hmem
            case h_1 hnone =>
              -- the pointer called is null, so the detour does not test it
              cases ht : d.tests with
              | true =>
                have := isSome_of_tests ht hcallee
                rw [hnone] at this
                cases this
              | false =>
                have := hset c d hd ht
                rw [callee_of_not_tests ht, Option.some.injEq] at hcallee
                rw [hcallee, hnone] at this
                cases this
            case h_2 c' _ => exact ih c' args' hmem

/-- Binding table `T` leaves the pointers set that the detours in use call at once. -/
def Serves (T : Symbols) (p : Process) : Prop :=
  ∀ c d, p.registry.detourOf c = some d → d.tests = false → (rebound T p d.fn).isSome = true

/-- **One install.** -/
theorem install_nullFree_iff {T : Symbols} {p q : Process} (hq : q.toPatched = afterLoad T p) :
    NullFree (odbkInstallLuaHooks q) ↔ Serves T p := by
  have hptr : ∀ f, ((odbkInstallLuaHooks q).ptr f).isSome = (rebound T p f).isSome := by
    intro f
    rw [ptr_isSome_install, hq]
    rfl
  have hreg : (odbkInstallLuaHooks q).registry.detourOf =
      ((afterLoad T p).patchAll (hookSites q.ctx.version)).registry.detourOf := by
    funext c
    rw [odbkInstallLuaHooks_eq, hq]
    exact detourOf_enableAll _ c
  rw [nullFree_iff (allEnabled_install q), hreg]
  simp only [hptr]
  constructor
  · intro h c d hd htests
    apply h c d _ htests
    exact Patched.detourOf_patchAll_mono (s := afterLoad T p) _ hd
  · intro h c d hd htests
    rcases Patched.detourOf_patchAll_cases fn_of_mem_hookSites hd with hd | hset
    · exact h c d hd htests
    · exact hset

theorem InstallRun.of_mem {core : OdbkCore} {p : Process} {steps : List InstallStep}
    (run : InstallRun core p steps) (hp : Managed p) :
    ∀ e ∈ steps, Managed e.before ∧ e.Accepted core := by
  induction run with
  | nil p =>
    intro e he
    cases he
  | @cons e l hacc _ ih =>
    have hafter : Managed e.after := managed_of_install hp hacc.install
    intro e' he'
    rcases List.mem_cons.mp he' with rfl | he'
    · exact ⟨hp, hacc⟩
    · exact ih hafter e' he'

/-- **Null calls in a run of installs.** No state the run reaches has a call through a
null pointer exactly when every install leaves the pointers of the detours in use set. -/
theorem install_run_nullFree_iff (core : OdbkCore) (dbghelp : DbgFn → Bool)
    {steps : List InstallStep} (run : InstallRun core (Process.fresh dbghelp) steps) :
    (∀ e ∈ steps, NullFree e.after) ↔ ∀ e ∈ steps, Serves e.table e.before := by
  have hone : ∀ e ∈ steps, (NullFree e.after ↔ Serves e.table e.before) := by
    intro e he
    obtain ⟨hp, q, hload, hafter⟩ := run.of_mem (managed_fresh dbghelp) e he
    obtain ⟨_, _, _, hq⟩ := accepted_load hp.configured hload
    rw [hafter]
    exact install_nullFree_iff hq
  exact forall₂_congr hone

/-- Two stock tables installed one after the other. -/
theorem run_two (core : OdbkCore) (dbghelp : DbgFn → Bool) (base₁ base₂ : Addr)
    (fns₁ fns₂ : List Fn) (ha₁ : accepts (stockSymbols base₁ fns₁) = true)
    (ha₂ : accepts (stockSymbols base₂ fns₂) = true) :
    ∃ p₂, InstallRun core (Process.fresh dbghelp)
      [⟨World.exporting (stockTable base₁ fns₁), 1, Process.fresh dbghelp,
          freshInstall dbghelp (stockSymbols base₁ fns₁)⟩,
        ⟨World.exporting (stockTable base₂ fns₂), 1,
          freshInstall dbghelp (stockSymbols base₁ fns₁), p₂⟩] := by
  have hl₁ := load_exporting base₁ fns₁ core (Process.fresh dbghelp)
  have hl₂ := load_exporting base₂ fns₂ core (freshInstall dbghelp (stockSymbols base₁ fns₁))
  rw [ha₁] at hl₁
  rw [ha₂] at hl₂
  have h₁ : InstallStep.Accepted core ⟨World.exporting (stockTable base₁ fns₁), 1,
      Process.fresh dbghelp, freshInstall dbghelp (stockSymbols base₁ fns₁)⟩ := ⟨_, hl₁, rfl⟩
  have h₂ : InstallStep.Accepted core ⟨World.exporting (stockTable base₂ fns₂), 1,
      freshInstall dbghelp (stockSymbols base₁ fns₁), odbkInstallLuaHooks (odbkLuaFinishLoad
        ((freshInstall dbghelp (stockSymbols base₁ fns₁)).withSymbols
          (stockSymbols base₂ fns₂))).1⟩ := ⟨_, hl₂, rfl⟩
  exact ⟨_, .cons h₁ (.cons h₂ (.nil _))⟩

/-- Lua 5.2, which has no `luaI_openlib`, is installed after Lua 5.1: a call of the
`luaI_openlib` of Lua 5.1 goes through a null pointer. -/
theorem install_run_nullFree_iff_two :
    ∃ steps : List InstallStep, InstallRun ⟨0, 0⟩ (Process.fresh fun _ => true) steps ∧
      steps.length = 2 ∧ ¬ ∀ e ∈ steps, NullFree e.after := by
  obtain ⟨p₂, run⟩ := run_two ⟨0, 0⟩ (fun _ => true) 4096 1048576 lua51Fns lua52Fns
    (accepts_lua51 4096) (accepts_lua52 1048576)
  refine ⟨_, run, rfl, ?_⟩
  rw [install_run_nullFree_iff _ _ run]
  intro hserves
  have hd := (hooked_lua51 (f := .luaIOpenlib) (d := .luaIOpenlibHook) rfl (by decide +kernel)
    (by decide)).1
  have hset := hserves _ (List.mem_cons_of_mem _ List.mem_cons_self) _ _ hd rfl
  have hoff : offer (stockSymbols 1048576 lua52Fns) .luaIOpenlib = none := by decide +kernel
  have hnull : ∀ p, rebound (stockSymbols 1048576 lua52Fns) p .luaIOpenlib = none := fun _ => hoff
  exact absurd (hset.symm.trans (congrArg Option.isSome (hnull _))) (by decide)

/-! ## Calls that never arrive -/

/-- Entering code of the set runs a detour whose pointer holds code of the set. -/
def Trapped (p : Process) (H : Code Addr → Prop) : Prop :=
  ∀ c, H c → ∃ d f c', p.registry.enter c = some d ∧ d.callee p = some f ∧
    p.ptr f = some c' ∧ H c'

/-- **Trapped calls** run detours only, as many as there is room for. -/
theorem trapped_run {p : Process} {H : Code Addr → Prop} (h : Trapped p H) {c : Code Addr}
    (hc : H c) (fuel : Nat) (args : List Val) :
    ∃ ds : List Detour, ds.length = fuel ∧ runCall p fuel c args = ds.map .detour := by
  induction fuel generalizing c args with
  | zero => exact ⟨[], rfl, rfl⟩
  | succ fuel ih =>
    obtain ⟨d, f, c', henter, hcallee, hp, hc'⟩ := h c hc
    have hbody := callee_eq p d args
    rw [hcallee, Option.map_eq_some_iff] at hbody
    obtain ⟨⟨f', args'⟩, hb, rfl⟩ := hbody
    obtain ⟨ds, hlen, hrun⟩ := ih hc' args'
    refine ⟨d :: ds, by rw [List.length_cons, hlen], ?_⟩
    rw [runCall_hooked henter hb hp, hrun, List.map_cons]

/-- A detour whose own pointer is set calls through a pointer that is set: its own, or
that of a function that every version hooks. -/
theorem callee_of_set {p : Process} {d : Detour} (h : (p.ptr d.fn).isSome = true) :
    ∃ f, d.callee p = some f ∧ (p.ptr f).isSome = true ∧
      (f = d.fn ∨ ∃ d', (f, d') ∈ hookSitesFront) := by
  have hfirst : ∀ x g : Fn, (p.ptr g).isSome = true → ∃ f, firstBound p x g = some f ∧
      (p.ptr f).isSome = true ∧ (f = x ∨ f = g) := by
    intro x g hg
    unfold firstBound
    by_cases hx : (p.ptr x).isSome = true
    · exact ⟨x, if_pos hx, hx, Or.inl rfl⟩
    · exact ⟨g, by rw [if_neg hx, if_pos hg], hg, Or.inr rfl⟩
  cases d with
  | luaLLoadbufferxHook => exact ⟨_, if_pos h, h, Or.inl rfl⟩
  | luaLLoadfilexHook => exact ⟨_, if_pos h, h, Or.inl rfl⟩
  | luaLLoadbufferHook =>
    obtain ⟨f, hf, hset, rfl | rfl⟩ := hfirst .luaLLoadbufferx .luaLLoadbuffer h
    · exact ⟨_, hf, hset, Or.inr ⟨.luaLLoadbufferxHook, by decide⟩⟩
    · exact ⟨_, hf, hset, Or.inl rfl⟩
  | luaLLoadfileHook =>
    obtain ⟨f, hf, hset, rfl | rfl⟩ := hfirst .luaLLoadfilex .luaLLoadfile h
    · exact ⟨_, hf, hset, Or.inr ⟨.luaLLoadfilexHook, by decide⟩⟩
    · exact ⟨_, hf, hset, Or.inl rfl⟩
  | _ => exact ⟨_, rfl, h, Or.inl rfl⟩

/-! ## One module over and over -/

/-- The hooks `r` are over the functions of table `T`, and what binding the table skips
is null. -/
structure Settled (T : Symbols) (v : LuaVersion) (r : HookRegistry Addr Detour)
    (p : Process) : Prop where
  managed : Managed p
  registry : p.registry = r
  enabled : r.enableAll = r
  skipped : ∀ f, spared T f = true → p.ptr f = none
  hooked : ∀ e ∈ hookSites v.version, ∀ c, rebound T p e.1 = some c → c ∈ r.targets

theorem rebound_of_skipped {T : Symbols} {p : Process}
    (h : ∀ f, spared T f = true → p.ptr f = none) (dbghelp : DbgFn → Bool) (f : Fn) :
    rebound T p f = rebound T (Process.fresh dbghelp) f := by
  unfold rebound
  by_cases hs : spared T f = true
  · rw [if_pos hs, if_pos hs, h f hs]
    rfl
  · rw [if_neg hs, if_neg hs]

/-- The first install settles the process. -/
theorem settled_first {T : Symbols} {v : LuaVersion} {dbghelp : DbgFn → Bool} {q : Process}
    (hc : Configured q) (hver : q.ctx.version = v.version)
    (hq : q.toPatched = afterLoad T (Process.fresh dbghelp)) :
    Settled T v (odbkInstallLuaHooks q).registry (odbkInstallLuaHooks q) := by
  have hi := installed_of_load (managed_fresh dbghelp) hc hver hq
  have hskip : ∀ f, spared T f = true → (odbkInstallLuaHooks q).ptr f = none := by
    intro f hs
    have hset := hi.isSome f
    rw [rebound, if_pos hs, show (Process.fresh dbghelp).ptr f = none from rfl] at hset
    simpa using hset
  refine ⟨hi.managed, rfl, ?_, hskip, fun e he c hbound => ?_⟩
  · rw [odbkInstallLuaHooks_eq]
    exact enableAll_enableAll _
  · rw [rebound_of_skipped hskip dbghelp] at hbound
    obtain ⟨a, rfl⟩ := image_of_firstOf (offer_of_rebound_fresh hbound)
    rw [odbkInstallLuaHooks_eq, hq]
    have hm := Patched.mem_targets_patchAll (s := afterLoad T (Process.fresh dbghelp)) he hbound
    rw [hver]
    exact (targets_enableAll _).symm ▸ hm

/-- **Step lemma.** One more install of the table hooks nothing and leaves every pointer
as the table has it. -/
theorem settled_step {T : Symbols} {v : LuaVersion} {r : HookRegistry Addr Detour} {p q : Process}
    (hs : Settled T v r p) (hc : Configured q) (hver : q.ctx.version = v.version)
    (hq : q.toPatched = afterLoad T p) :
    Settled T v r (odbkInstallLuaHooks q) ∧
      ∀ dbghelp f, (odbkInstallLuaHooks q).ptr f = rebound T (Process.fresh dbghelp) f := by
  have hi := installed_of_load hs.managed hc hver hq
  have hidle : (afterLoad T p).patchAll (hookSites v.version) = afterLoad T p := by
    apply Patched.patchAll_idle
    intro e he c hbound
    exact hs.registry ▸ hs.hooked e he c hbound
  have heq : (odbkInstallLuaHooks q).toPatched = (afterLoad T p).enable := by
    rw [odbkInstallLuaHooks_eq, hver, hq, hidle]
  have hptr : ∀ f, (odbkInstallLuaHooks q).ptr f = rebound T p f := by
    intro f
    rw [heq]
    rfl
  have hfresh : ∀ dbghelp f, (odbkInstallLuaHooks q).ptr f =
      rebound T (Process.fresh dbghelp) f :=
    fun dbghelp f => (hptr f).trans (rebound_of_skipped hs.skipped dbghelp f)
  have hreg : (odbkInstallLuaHooks q).registry = r := by
    rw [heq, ← hs.enabled, ← hs.registry]
    rfl
  have hskip : ∀ f, spared T f = true → (odbkInstallLuaHooks q).ptr f = none := by
    intro f hsp
    rw [hptr, rebound, if_pos hsp, hs.skipped f hsp]
  refine ⟨⟨hi.managed, hreg, hs.enabled, hskip, fun e he c hbound => ?_⟩, hfresh⟩
  apply hs.hooked e he c
  rwa [rebound_of_skipped hs.skipped fun _ => true, ← rebound_of_skipped hskip]

/-- A load of a module that is not null, accepted by its table. -/
theorem accepted_module {W : World} (core : OdbkCore) {hLua : Handle} (hn : hLua ≠ nullptr)
    (ha : accepts (moduleTable W hLua) = true) {p : Process} (hp : Configured p) :
    ∃ q v, odbkLoadLuaInternal W core hLua p = .ok (q, true) ∧
      detectVersion (moduleTable W hLua) = some v ∧ Configured q ∧
      q.ctx.version = v.version ∧ q.toPatched = afterLoad (moduleTable W hLua) p := by
  have hT : boundTable W hLua p.ctx.symbols = moduleTable W hLua := by
    simp [boundTable, exportsOf, moduleTable, odbkGetExports, hn]
  have hl := odbkLoadLuaInternal_module W core hn p
  have hsnd := odbkLuaFinishLoad_snd (p.withSymbols (moduleTable W hLua))
  generalize odbkLuaFinishLoad (p.withSymbols (moduleTable W hLua)) = r at hl hsnd
  obtain ⟨q, b⟩ := r
  have hb : b = true := hsnd.trans ha
  subst hb
  obtain ⟨v, hv, hver, hq⟩ := accepted_load hp hl
  rw [hT] at hv hq
  exact ⟨q, v, hl, hv, configured_load hp hl, hver, hq⟩

/-- The calls that a settled process traps: those of its hooked functions. -/
theorem trapped_settled {T : Symbols} {v : LuaVersion} {dbghelp : DbgFn → Bool} {p₁ p : Process}
    (hi : Installed T v (Process.fresh dbghelp) p₁) (hs : Settled T v p₁.registry p)
    (hptr : ∀ f, p.ptr f = rebound T (Process.fresh dbghelp) f) :
    Trapped p fun c => ∃ a d, c = .image a ∧ p₁.registry.detourOf (.image a) = some d := by
  rintro c ⟨a, d, rfl, hd⟩
  obtain ⟨_, hown⟩ := hooked_fresh_cases hi hd
  have henter : p.registry.enter (.image a) = some d := by
    rw [hs.managed.enabled, hs.registry, hd]
  obtain ⟨f, hf, hset, hcase⟩ := callee_of_set (p := p) (d := d) (by
    rw [hptr, hown, Option.isSome_some])
  rcases hcase with rfl | ⟨d', hsite⟩
  · exact ⟨d, d.fn, _, henter, hf, (hptr d.fn).trans hown, a, d, rfl, hd⟩
  · -- the function called instead is hooked at the address its pointer holds
    obtain ⟨c', hc'⟩ := Option.isSome_iff_exists.mp hset
    have hbound := (hptr f).symm.trans hc'
    obtain ⟨b, rfl⟩ := image_of_firstOf (offer_of_rebound_fresh hbound)
    have hmem : .image b ∈ p₁.registry.targets := by
      apply hs.hooked (f, d')
      · simp [hookSites, hookSitesOf, hsite]
      · rwa [rebound_of_skipped hs.skipped dbghelp]
    obtain ⟨d'', hd''⟩ := Option.isSome_iff_exists.mp ((detourOf_isSome_iff _ _).mpr hmem)
    exact ⟨d, f, .image b, henter, hf, hc', b, d'', rfl, hd''⟩

/-- Installs of modules with one table, after the first. -/
theorem settled_installAll (core : OdbkCore) (dbghelp : DbgFn → Bool) {T : Symbols}
    {v : LuaVersion} {r : HookRegistry Addr Detour} (ha : accepts T = true)
    (hv : detectVersion T = some v) {steps : List (World × Handle)}
    (hsame : ∀ e ∈ steps, e.2 ≠ nullptr ∧ moduleTable e.1 e.2 = T) {p : Process}
    (hs : Settled T v r p) :
    ∃ p', installAll core steps p = .ok p' ∧ Settled T v r p' ∧
      (steps ≠ [] → ∀ f, p'.ptr f = rebound T (Process.fresh dbghelp) f) := by
  induction steps generalizing p with
  | nil => exact ⟨p, rfl, hs, fun h => absurd rfl h⟩
  | cons e steps ih =>
    obtain ⟨hn, hT⟩ := hsame e List.mem_cons_self
    obtain ⟨q, w, hl, hw, hc, hver, hq⟩ :=
      accepted_module core hn (hT ▸ ha) hs.managed.configured
    rw [hT] at hw hq
    rw [hv, Option.some.injEq] at hw
    subst hw
    obtain ⟨hs', hptr⟩ := settled_step hs hc hver hq
    obtain ⟨p', hp', hsettled, hrest⟩ :=
      ih (fun e' he' => hsame e' (List.mem_cons_of_mem _ he')) hs'
    refine ⟨p', ?_, hsettled, fun _ => ?_⟩
    · rw [installAll, List.foldlM_cons, odbkInstall_of_load hl]
      exact hp'
    · by_cases hne : steps = []
      · subst hne
        cases hp'
        exact hptr dbghelp
      · exact hrest hne

/-- **Reinstalling.** After an accepted install in a new process, installs of modules with
the same exports hook nothing more. From the first of them on every pointer is what the
table offers, and a call of a hooked function runs detours without end. -/
theorem reinstall_settles {core : OdbkCore} {dbghelp : DbgFn → Bool} {W : World} {hLua : Handle}
    (hn : hLua ≠ nullptr) (ha : accepts (moduleTable W hLua) = true) {p₁ : Process}
    (h₁ : odbkInstall W core hLua (Process.fresh dbghelp) = .ok p₁)
    {steps : List (World × Handle)} (hne : steps ≠ [])
    (hsame : ∀ e ∈ steps, e.2 ≠ nullptr ∧ moduleTable e.1 e.2 = moduleTable W hLua) :
    ∃ p, installAll core steps p₁ = .ok p ∧ p.registry = p₁.registry ∧
      (∀ f, p.ptr f =
        if spared (moduleTable W hLua) f then none else offer (moduleTable W hLua) f) ∧
      ∀ a d, p₁.registry.detourOf (.image a) = some d → ∀ fuel args,
        ∃ ds : List Detour, ds.length = fuel ∧
          runCall p fuel (.image a) args = ds.map .detour := by
  obtain ⟨q, v, hl, hv, hc, hver, hq⟩ :=
    accepted_module core hn ha (configured_fresh dbghelp)
  rw [odbkInstall_of_load hl, Except.ok.injEq] at h₁
  subst h₁
  have hi := installed_of_load (managed_fresh dbghelp) hc hver hq
  obtain ⟨p, hp, hs, hptr⟩ := settled_installAll core dbghelp ha hv hsame
    (settled_first hc hver hq)
  have hptr := hptr hne
  refine ⟨p, hp, hs.registry, hptr, fun a d hd fuel args => ?_⟩
  exact trapped_run (trapped_settled hi hs hptr) ⟨a, d, rfl, hd⟩ fuel args

theorem reinstall_settles_lua51 :
    ∃ p₁ p, odbkInstall (World.exporting (stockTable 4096 lua51Fns)) ⟨0, 0⟩ 1
        (Process.fresh fun _ => true) = .ok p₁ ∧
      installAll ⟨0, 0⟩ [(World.exporting (stockTable 4096 lua51Fns), 1)] p₁ = .ok p ∧
      p.registry = p₁.registry := by
  have hone : (1 : Handle) ≠ nullptr := by decide
  have ha : accepts (moduleTable (World.exporting (stockTable 4096 lua51Fns)) 1) = true :=
    accepts_lua51 4096
  have h₁ := odbkInstall_of_load (load_exporting 4096 lua51Fns ⟨0, 0⟩ (Process.fresh fun _ => true))
  obtain ⟨p, hp, hreg, _⟩ := reinstall_settles hone ha h₁ (List.cons_ne_nil
    (World.exporting (stockTable 4096 lua51Fns), 1) []) (by
      intro e he
      rw [List.mem_singleton.mp he]
      exact ⟨hone, rfl⟩)
  exact ⟨_, p, h₁, hp, hreg⟩

end Odbk
