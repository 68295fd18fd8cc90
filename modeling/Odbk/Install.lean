import Odbk.Detours
import Odbk.LoadHistory

/-!
# Installing the hooks: `odbk_install`

An install loads the VM and then patches every API pointer that has a detour,
whatever the load returned. Proved here:

* `odbkInstallLuaHooks_eq`: the installer is one run of patches over `hookSites`;
* `accepted_load`: what an accepted load leaves to the installer;
* `installed_of_load`, `install_spec`: what an install over an accepted load leaves;
* `hooked_fresh`, `hooked_fresh_cases`, `leadsTo_fresh`: which addresses one install
  in a new process hooks, with which detours, and where the pointers lead.
-/

namespace Odbk

open BindScript HookRegistry

/-! ## The code -/

/-- `odbk_hook(&__f, f_hook)`; the status of `MH_CreateHook` is dropped. -/
def odbkHook (f : Fn) (pDetour : Detour) (p : Process) : Process :=
  match p.ptr f with
  | none => p
  | some pTarget =>
    match p.registry.createHook pTarget pDetour with
    | none => p
    | some (registry, pOriginal) =>
      { p with ptr := Function.update p.ptr f (some pOriginal), registry := registry }

/-- The functions hooked whatever the version, up to `luaL_loadfile`, in order. -/
def hookSitesFront : List (Fn × Detour) :=
  [ (.luaOpen, .luaOpenHook), -- lua 5.0.x only
    (.luaNewstate, .luaNewstateHook),
    (.luaLNewstate, .luaLNewstateHook),
    (.luaopenBase, .luaopenBaseHook),
    (.luaClose, .luaCloseHook),
    (.luaNewthread, .luaNewthreadHook),
    (.luaPcall, .luaPcallHook),
    (.luaPcallk, .luaPcallkHook),
    (.luaCall, .luaCallHook),
    (.luaCallk, .luaCallkHook),
    (.luaLNewmetatable, .luaLNewmetatableHook),
    (.luaSethook, .luaSethookHook),
    (.luaLLoadbufferx, .luaLLoadbufferxHook), -- Lua 5.2.x
    (.luaLLoadbuffer, .luaLLoadbufferHook), -- Lua 5.1.x
    (.luaLLoadfilex, .luaLLoadfilexHook),
    (.luaLLoadfile, .luaLLoadfileHook) ]

/-- The rest: `lua_load` by its mode parameter, `luaI_openlib` where it exists. -/
def hookSitesOf (loadMode openlib : Bool) : List (Fn × Detour) :=
  hookSitesFront ++
    (if loadMode then [(.luaLoad, .luaLoadHook)] else [(.luaLoad, .luaLoad510Hook)]) ++
    [(.luaLNewstate, .luaLNewstateHook), (.luaLOpenlibs, .luaLOpenlibsHook)] ++
    (if openlib then [(.luaIOpenlib, .luaIOpenlibHook)] else [])

/-- The functions that `odbk_install_lua_hooks` hooks, in order. -/
def hookSites (luaVersion : Int) : List (Fn × Detour) :=
  hookSitesOf (luaVersion > 510) (luaVersion < 530)

/-- `odbk_install_lua_hooks` -/
def odbkInstallLuaHooks (p : Process) : Process :=
  let p := (hookSites p.ctx.version).foldl (fun p e => odbkHook e.1 e.2 p) p
  -- MH_EnableHook(NULL)
  { p with registry := p.registry.enableAll }

/-- `odbk_install` -/
def odbkInstall (W : World) (core : OdbkCore) (hModule : Handle) (p : Process) :
    Except Fault Process :=
  match odbkLoadLuaInternal W core hModule p with
  | .error e => .error e
  | .ok (p, _) => .ok (odbkInstallLuaHooks p)

/-! ## Patches -/

theorem odbkHook_eq (f : Fn) (d : Detour) (p : Process) :
    odbkHook f d p = { p with toPatched := p.toPatched.patch f d } := by
  unfold odbkHook Patched.patch
  cases hp : p.ptr f with
  | none => rfl
  | some t =>
    cases hc : p.registry.createHook t d with
    | none => simp only [hc]
    | some r => simp only [hc]

theorem foldl_odbkHook (sites : List (Fn × Detour)) (p : Process) :
    sites.foldl (fun p e => odbkHook e.1 e.2 p) p =
      { p with toPatched := p.toPatched.patchAll sites } := by
  induction sites generalizing p with
  | nil => rfl
  | cons e sites ih =>
    rw [List.foldl_cons, ih, odbkHook_eq]
    rfl

/-- **The installer as a run of patches.** -/
theorem odbkInstallLuaHooks_eq (p : Process) :
    odbkInstallLuaHooks p =
      { p with toPatched := (p.toPatched.patchAll (hookSites p.ctx.version)).enable } := by
  rw [odbkInstallLuaHooks, foldl_odbkHook]
  rfl

/-- Each detour is hooked over the function it stands in for. -/
theorem fn_of_mem_hookSites {version : Int} : ∀ e ∈ hookSites version, e.2.fn = e.1 := by
  have h : ∀ b c : Bool, ∀ e ∈ hookSitesOf b c, e.2.fn = e.1 := by decide
  exact h _ _

theorem allEnabled_install (p : Process) : AllEnabled (odbkInstallLuaHooks p) := by
  intro c
  rw [odbkInstallLuaHooks_eq]
  exact (enter_enableAll _ c).trans (detourOf_enableAll _ c).symm

theorem detourOf_install (p : Process) (a : Addr) :
    (odbkInstallLuaHooks p).registry.detourOf (.image a) =
      (p.registry.detourOf (.image a)).or
        ((p.toPatched.siteAt (hookSites p.ctx.version) a).map Prod.snd) := by
  rw [odbkInstallLuaHooks_eq]
  exact (detourOf_enableAll _ _).trans (Patched.detourOf_patchAll _ _ a)

theorem leadsTo_install (p : Process) (f : Fn) :
    (odbkInstallLuaHooks p).leadsTo f =
      (p.toPatched.patchAll (hookSites p.ctx.version)).leadsTo f := by
  rw [odbkInstallLuaHooks_eq, Patched.leadsTo_enable]

theorem ptr_isSome_install (p : Process) (f : Fn) :
    ((odbkInstallLuaHooks p).ptr f).isSome = (p.ptr f).isSome := by
  rw [odbkInstallLuaHooks_eq]
  exact Patched.ptr_isSome_patchAll p.toPatched _ f

theorem sound_install {p : Process} (hp : Patched.Sound Detour.fn p.toPatched) :
    Patched.Sound Detour.fn (odbkInstallLuaHooks p).toPatched := by
  rw [odbkInstallLuaHooks_eq]
  exact Patched.sound_enable (Patched.sound_patchAll hp fn_of_mem_hookSites)

theorem faithful_install {p : Process} (hs : Patched.Sound Detour.fn p.toPatched)
    (hf : Patched.Faithful Detour.fn p.toPatched) :
    Patched.Faithful Detour.fn (odbkInstallLuaHooks p).toPatched := by
  rw [odbkInstallLuaHooks_eq]
  exact Patched.faithful_enable (Patched.faithful_patchAll hs hf fn_of_mem_hookSites)

/-! ## Loads before hooks -/

/-- The pointers left by binding an accepted table. -/
def rebound (T : Symbols) (p : Process) (f : Fn) : Option (Code Addr) :=
  if spared T f then p.ptr f else offer T f

/-- The process as an accepted load leaves it to the installer. -/
def afterLoad (T : Symbols) (p : Process) : Patched Fn Addr Detour := ⟨rebound T p, p.registry⟩

theorem registry_load {W : World} {core : OdbkCore} {hLua : Handle} {p : Process}
    {r : Process × Bool} (h : odbkLoadLuaInternal W core hLua p = .ok r) :
    r.1.registry = p.registry := by
  obtain ⟨q, rfl, hf⟩ := odbkLoadLuaInternal_ok h
  rw [registry_odbkLuaFinishLoad, hf.registry]

/-- **An accepted load**: its table, its version and the pointers it leaves. -/
theorem accepted_load {W : World} {core : OdbkCore} {hLua : Handle} {p q : Process}
    (hp : Configured p) (h : odbkLoadLuaInternal W core hLua p = .ok (q, true)) :
    ∃ v, detectVersion (boundTable W hLua p.ctx.symbols) = some v ∧
      q.ctx.version = v.version ∧
      q.toPatched = afterLoad (boundTable W hLua p.ctx.symbols) p := by
  have ha := load_snd hp h
  obtain ⟨v, hv, _⟩ := (accepts_iff _).mp ha.symm
  obtain ⟨hptr, hver, _⟩ := load_bound hp h rfl hv ha.symm
  refine ⟨v, hv, hver, ?_⟩
  have hr := registry_load h
  obtain ⟨⟨ptr, registry⟩, ctx, dbghelp, log⟩ := q
  simp only at hptr hr
  simp only [afterLoad, Patched.mk.injEq]
  exact ⟨funext hptr, hr⟩

theorem sound_afterLoad {T : Symbols} {p : Process}
    (hs : Patched.Sound Detour.fn p.toPatched) : Patched.Sound Detour.fn (afterLoad T p) := by
  refine Patched.sound_rebind hs fun g => ?_
  unfold rebound
  cases spared T g with
  | true => exact Or.inl rfl
  | false =>
    refine Or.inr fun k hk => ?_
    obtain ⟨a, ha⟩ := image_of_firstOf (show offer T g = _ by simpa using hk)
    cases ha

/-! ## What an install leaves -/

/-- What every run of loads and installs keeps. -/
structure Managed (p : Process) : Prop where
  configured : Configured p
  sound : Patched.Sound Detour.fn p.toPatched
  enabled : AllEnabled p

theorem managed_fresh (dbghelp : DbgFn → Bool) : Managed (Process.fresh dbghelp) where
  configured := configured_fresh dbghelp
  sound := ⟨fun _ _ h => (nomatch h), fun _ _ h => (nomatch h), fun _ h => (nomatch h)⟩
  enabled _ := rfl

/-- The state that installing the hooks over an accepted load leaves. -/
structure Installed (T : Symbols) (v : LuaVersion) (p p' : Process) : Prop where
  version : p'.ctx.version = v.version
  detour : ∀ a, p'.registry.detourOf (.image a) =
    (p.registry.detourOf (.image a)).or
      (((afterLoad T p).siteAt (hookSites v.version) a).map Prod.snd)
  isSome : ∀ f, (p'.ptr f).isSome = (rebound T p f).isSome
  kept : ∀ f c, rebound T p f = some c → c ∈ p.registry.targets → p'.ptr f = some c
  leadsTo : ∀ f a, p'.leadsTo f = some a → (afterLoad T p).leadsTo f = some a
  managed : Managed p'
  faithful : Patched.Faithful Detour.fn (afterLoad T p) →
    Patched.Faithful Detour.fn p'.toPatched

/-- **Step lemma.** -/
theorem installed_of_load {T : Symbols} {v : LuaVersion} {p q : Process} (hp : Managed p)
    (hc : Configured q) (hver : q.ctx.version = v.version) (hq : q.toPatched = afterLoad T p) :
    Installed T v p (odbkInstallLuaHooks q) := by
  have hsq : Patched.Sound Detour.fn q.toPatched := hq ▸ sound_afterLoad hp.sound
  have hctx : (odbkInstallLuaHooks q).ctx = q.ctx := by rw [odbkInstallLuaHooks_eq]
  refine ⟨?_, ?_, ?_, ?_, ?_, ?_, ?_⟩
  · rw [hctx, hver]
  · intro a
    rw [detourOf_install, hver, hq]
    rfl
  · intro f
    rw [ptr_isSome_install, hq]
    rfl
  · intro f c hf hc
    rw [odbkInstallLuaHooks_eq, hq]
    exact Patched.ptr_patchAll_of_mem_targets (s := afterLoad T p) hf hc _
  · intro f a hl
    rw [leadsTo_install] at hl
    rw [← hq]
    exact Patched.leadsTo_of_patchAll hsq fn_of_mem_hookSites hl
  · exact ⟨⟨hctx ▸ hc.restricts, hctx ▸ hc.specified⟩, sound_install hsq, allEnabled_install q⟩
  · intro hf
    exact faithful_install hsq (hq ▸ hf)

theorem install_spec {W : World} {core : OdbkCore} {hLua : Handle} {p q : Process}
    (hp : Managed p) (h : odbkLoadLuaInternal W core hLua p = .ok (q, true)) :
    ∃ v, detectVersion (boundTable W hLua p.ctx.symbols) = some v ∧
      Installed (boundTable W hLua p.ctx.symbols) v p (odbkInstallLuaHooks q) := by
  obtain ⟨v, hv, hver, hq⟩ := accepted_load hp.configured h
  exact ⟨v, hv, installed_of_load hp (configured_load hp.configured h) hver hq⟩

/-! ## One install in a new process -/

/-- The process after a new process binds a table and installs the hooks. -/
def freshInstall (dbghelp : DbgFn → Bool) (T : Symbols) : Process :=
  odbkInstallLuaHooks (freshLoad dbghelp T)

theorem toPatched_freshLoad (dbghelp : DbgFn → Bool) {T : Symbols} (ha : accepts T = true) :
    (freshLoad dbghelp T).toPatched = afterLoad T (Process.fresh dbghelp) := by
  have hptr : (freshLoad dbghelp T).ptr = rebound T (Process.fresh dbghelp) :=
    funext (ptr_freshLoad dbghelp ha)
  have hreg : (freshLoad dbghelp T).registry = (Process.fresh dbghelp).registry :=
    registry_odbkLuaFinishLoad _
  rw [afterLoad, ← hptr, ← hreg]

theorem installed_fresh (dbghelp : DbgFn → Bool) {T : Symbols} {v : LuaVersion}
    (ha : accepts T = true) (hv : detectVersion T = some v) :
    Installed T v (Process.fresh dbghelp) (freshInstall dbghelp T) := by
  obtain ⟨hr, hs, _⟩ := odbkLuaFinishLoad_ctx_frame ((Process.fresh dbghelp).withSymbols T)
  exact installed_of_load (managed_fresh dbghelp) ⟨hr, Or.inl hs⟩
    (version_freshLoad dbghelp hv) (toPatched_freshLoad dbghelp ha)

/-- No two hooked functions are bound by one name. -/
theorem bindNames_hookSites {version : Int} : ∀ e ∈ hookSites version, ∀ e' ∈ hookSites version,
    ∀ n ∈ bindNames e.1, n ∈ bindNames e'.1 → e = e' := by
  have h : ∀ b c : Bool, ∀ e ∈ hookSitesOf b c, ∀ e' ∈ hookSitesOf b c,
      ∀ n ∈ bindNames e.1, n ∈ bindNames e'.1 → e = e' := by
    decide +kernel
  exact h _ _

/-- A pointer that is set in a new process holds what the table offers. -/
theorem offer_of_rebound_fresh {T : Symbols} {dbghelp : DbgFn → Bool} {f : Fn} {c : Code Addr}
    (h : rebound T (Process.fresh dbghelp) f = some c) : offer T f = some c := by
  unfold rebound at h
  split at h
  · cases h
  · exact h

/-- With distinct addresses, each function is hooked with its own detour. -/
theorem hooked_fresh {T : Symbols} {v : LuaVersion} {dbghelp : DbgFn → Bool} {p' : Process}
    (hi : Installed T v (Process.fresh dbghelp) p') (hd : DistinctAddresses T) {f : Fn}
    {d : Detour} (hm : (f, d) ∈ hookSites v.version) {a : Addr}
    (hp : rebound T (Process.fresh dbghelp) f = some (.image a)) :
    p'.registry.detourOf (.image a) = some d := by
  obtain ⟨n, hn, hna⟩ := find_of_offer (offer_of_rebound_fresh hp)
  have hs : (afterLoad T (Process.fresh dbghelp)).siteAt (hookSites v.version) a = some (f, d) := by
    refine Patched.siteAt_eq_some hm hp fun e' he' hp' => ?_
    obtain ⟨n', hn', hna'⟩ := find_of_offer (offer_of_rebound_fresh hp')
    rw [hd n n' a hna hna'] at hn
    exact bindNames_hookSites e' he' (f, d) hm n' hn' hn
  rw [hi.detour a, hs]
  rfl

theorem rebound_fresh_of_offer {T : Symbols} (dbghelp : DbgFn → Bool) {f : Fn} {a : Addr}
    (hs : spared T f = false) (ho : offer T f = some (.image a)) :
    rebound T (Process.fresh dbghelp) f = some (.image a) := by
  rw [rebound, hs, if_neg Bool.false_ne_true, ho]

/-- The pointer of a hooked function leads to the address it was bound to. -/
theorem leadsTo_fresh {T : Symbols} {v : LuaVersion} {dbghelp : DbgFn → Bool} {p' : Process}
    (hi : Installed T v (Process.fresh dbghelp) p') (hd : DistinctAddresses T) {f : Fn}
    {d : Detour} (hm : (f, d) ∈ hookSites v.version) {a : Addr}
    (hp : rebound T (Process.fresh dbghelp) f = some (.image a)) : p'.leadsTo f = some a := by
  have hfaith : Patched.Faithful Detour.fn p'.toPatched :=
    hi.faithful fun _ _ h => (nomatch h)
  have hfn : d.fn = f := fn_of_mem_hookSites (f, d) hm
  rw [← hfn]
  exact hfaith a d (hooked_fresh hi hd hm hp)

/-- Only addresses of functions with a detour are hooked. -/
theorem hooked_fresh_cases {T : Symbols} {v : LuaVersion} {dbghelp : DbgFn → Bool} {p' : Process}
    (hi : Installed T v (Process.fresh dbghelp) p') {a : Addr} {d : Detour}
    (h : p'.registry.detourOf (.image a) = some d) :
    (d.fn, d) ∈ hookSites v.version ∧ rebound T (Process.fresh dbghelp) d.fn = some (.image a) := by
  rw [hi.detour a] at h
  have h : ((afterLoad T (Process.fresh dbghelp)).siteAt (hookSites v.version) a).map Prod.snd =
      some d := h
  obtain ⟨⟨f, d'⟩, hs, rfl⟩ := Option.map_eq_some_iff.mp h
  have hm := List.mem_of_find?_eq_some hs
  have hp : (afterLoad T (Process.fresh dbghelp)).ptr f = some (.image a) := by
    simpa using List.find?_some hs
  rw [show d'.fn = f from fn_of_mem_hookSites (f, d') hm]
  exact ⟨hm, hp⟩

end Odbk
