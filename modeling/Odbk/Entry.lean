import Odbk.InstallRuns

/-!
# Entry points: `DllMain`, `load_dbghelp` and runs of installs

The pointers of namespace `odbk` are null when the backend is attached, and only
`load_dbghelp` sets them. Proved here:

* `loadDbghelp_sets`: a call of `load_dbghelp` that returns true sets every pointer
  whose function the libraries export;
* `installAll_returns`: with the pointers set every run of installs returns;
* `initialised_before_use_iff`: in a process that was attached, when a run of installs
  calls through no null pointer.
-/

namespace Odbk

/-! ## The code -/

/-- What the loader of the operating system answers `load_dbghelp`. -/
structure DbghelpEnv where
  /-- `kernel32.dll` is loaded -/
  kernel32 : Bool
  /-- `ntdll.dll` is loaded -/
  ntdll : Bool
  /-- `LoadLibraryA` loads the file -/
  loadLibrary : String → Bool
  /-- `GetProcAddress` finds the function in its library -/
  procAddress : DbgFn → Bool

/-- The functions that come from `ntdll.dll`; the others are those of dbghelp. -/
def DbgFn.inNtdll : DbgFn → Bool
  | .ldrLockLoaderLock => true
  | .ldrUnlockLoaderLock => true
  | _ => false

/-- `load_dbghelp`, for the pointers that the module scan calls through. -/
def loadDbghelp (env : DbghelpEnv) (dbghelpPath : String) (p : Process) : Process × Bool :=
  if env.kernel32 = false then (p, false)
  else if env.ntdll = false then (p, false)
  else
    let p := { p with dbghelp := fun f => if f.inNtdll then env.procAddress f else p.dbghelp f }
    if env.loadLibrary dbghelpPath = false then (p, false)
    else
      ({ p with dbghelp := fun f => if f.inNtdll then p.dbghelp f else env.procAddress f }, true)

/-- The attributes that `odbk_core::init` sets and the loader reads. -/
def OdbkCore.init (hInst : Handle) (core : OdbkCore) : OdbkCore :=
  { core with appInst := hInst, appModule := nullptr }

/-- The backend: its core and the process it is loaded into. -/
structure Backend where
  core : OdbkCore
  process : Process

/-- The image as it is mapped, with every global zero. -/
def Backend.mapped : Backend := ⟨⟨nullptr, nullptr⟩, Process.fresh fun _ => false⟩

/-- `DllMain` on `DLL_PROCESS_ATTACH`. `MH_Initialize` leaves no hook, and nothing
here calls `load_dbghelp`. -/
def dllMainAttach (hInstance : Handle) (b : Backend) : Backend :=
  { b with core := b.core.init hInstance }

/-- The backend after the attach. -/
def attached (hInstance : Handle) : Backend := dllMainAttach hInstance .mapped

/-- Calls of `odbk_install` one after the other, each in the world of its time. -/
def installAll (core : OdbkCore) (steps : List (World × Handle)) (p : Process) :
    Except Fault Process :=
  steps.foldlM (fun p e => odbkInstall e.1 core e.2 p) p

/-! ## Had the library been loaded -/

theorem loadDbghelp_sets {env : DbghelpEnv} {path : String} {p q : Process}
    (h : loadDbghelp env path p = (q, true)) : q.dbghelp = env.procAddress := by
  unfold loadDbghelp at h
  split at h
  · cases h
  · split at h
    · cases h
    · simp only at h
      split at h
      · cases h
      · cases h
        funext f
        cases hf : f.inNtdll <;> simp [hf]

theorem dbghelp_install {W : World} {core : OdbkCore} {hModule : Handle} {p q : Process}
    (h : odbkInstall W core hModule p = .ok q) : q.dbghelp = p.dbghelp := by
  obtain ⟨r, hl, rfl⟩ := odbkInstall_ok h
  rw [odbkInstallLuaHooks_eq]
  exact dbghelp_load hl

theorem install_returns_iff (W : World) (core : OdbkCore) (hModule : Handle) {p : Process}
    (hp : Configured p) :
    (∃ q, odbkInstall W core hModule p = .ok q) ↔
      (hModule = nullptr → (boundTable W nullptr p.ctx.symbols).isEmpty = true →
        ScanReturns W core p.dbghelp) := by
  have hl := load_returns_iff W core hModule hp
  constructor
  · rintro ⟨q, h⟩ rfl
    obtain ⟨r, hr, _⟩ := odbkInstall_ok h
    exact hl.mp ⟨r, hr⟩ rfl
  · intro h
    obtain ⟨r, hr⟩ := hl.mpr (by
      rintro rfl
      exact h rfl)
    exact ⟨_, odbkInstall_of_load hr⟩

/-- What an install keeps of the process it runs in. -/
theorem managed_of_install {W : World} {core : OdbkCore} {hModule : Handle} {p q : Process}
    (hp : Managed p) (h : odbkInstall W core hModule p = .ok q) : Managed q := by
  obtain ⟨r, hl, rfl⟩ := odbkInstall_ok h
  exact managed_install (managed_load hp hl)

/-- **Initialised.** With every pointer set, every run of installs returns. -/
theorem installAll_returns {core : OdbkCore} {p : Process} (hp : Managed p)
    (hd : ∀ f, p.dbghelp f = true) (steps : List (World × Handle)) :
    ∃ q, installAll core steps p = .ok q := by
  obtain ⟨q, hq, _⟩ := VisitedWalk.foldlM_ok (fun p (e : World × Handle) =>
      odbkInstall e.1 core e.2 p) (fun p => Managed p ∧ ∀ f, p.dbghelp f = true) steps (by
    rintro p ⟨W, hModule⟩ _ ⟨hp, hd⟩
    obtain ⟨q, hq⟩ := (install_returns_iff W core hModule hp.configured).mpr fun _ _ =>
      loadSymFromAppModules_ok W core (p := Process.fresh p.dbghelp) hd
    refine ⟨q, hq, managed_of_install hp hq, fun f => ?_⟩
    rw [dbghelp_install hq]
    exact hd f) p ⟨hp, hd⟩
  exact ⟨q, hq⟩

/-! ## It is not -/

/-- Without the pointers no scan returns. -/
theorem not_scanReturns {W : World} {core : OdbkCore} {dbghelp : DbgFn → Bool}
    (hd : dbghelp .ldrLockLoaderLock = false) : ¬ ScanReturns W core dbghelp := by
  rintro ⟨s, h⟩
  have hl := (loadSymFromAppModules_eq_ok.mp h).1
  rw [show (Process.fresh dbghelp).dbghelp = dbghelp from rfl, hd] at hl
  cases hl

/-- A load that does not return has called through a null pointer. -/
theorem load_nullCall {W : World} {core : OdbkCore} {hLua : Handle} {p : Process} {e : Fault}
    (hd : p.dbghelp .ldrLockLoaderLock = false)
    (h : odbkLoadLuaInternal W core hLua p = .error e) : e = .nullCall .ldrLockLoaderLock := by
  have hx : (tryExports W p.useBuiltin).dbghelp = p.dbghelp := by
    rw [tryExports_frame, useBuiltin_frame]
  unfold odbkLoadLuaInternal at h
  split at h
  · cases hl : loadFromProcess W core p with
    | ok q => simp [hl] at h
    | error e' =>
      rw [hl] at h
      cases h
      simp only [loadFromProcess, loadSymRestricts, ite_self, loadSymFromCache] at hl
      split at hl
      · have hlock : (Process.print .warn useSlibWarnMsg (tryExports W p.useBuiltin)).dbghelp
            .ldrLockLoaderLock = false := by
          rw [← hd, ← hx]
          rfl
        simp only [loadSymFromAppModules, callDbg, hlock, Bool.false_eq_true, if_false, bind,
          Except.bind] at hl
        cases hl
        rfl
      · cases hl
  · cases h

theorem install_nullCall {W : World} {core : OdbkCore} {hModule : Handle} {p : Process} {e : Fault}
    (hd : p.dbghelp .ldrLockLoaderLock = false)
    (h : odbkInstall W core hModule p = .error e) : e = .nullCall .ldrLockLoaderLock := by
  unfold odbkInstall at h
  cases hl : odbkLoadLuaInternal W core hModule p with
  | ok r => simp [hl] at h
  | error e' =>
    rw [hl] at h
    cases h
    exact load_nullCall hd hl

/-- Every call of a run finds symbols without a scan: it is given a module, or there
are symbols left over, or the process exports some. -/
def NeverScans (b : Backend) (steps : List (World × Handle)) : Prop :=
  ∀ pre W hModule post p, steps = pre ++ (W, hModule) :: post →
    installAll b.core pre b.process = .ok p → hModule = nullptr →
      (boundTable W nullptr p.ctx.symbols).isEmpty = false

/-- The backend after any run of installs has no pointer set. -/
theorem managed_installAll {hInst : Handle} {steps : List (World × Handle)} {p : Process}
    (h : installAll (attached hInst).core steps (attached hInst).process = .ok p) :
    Managed p ∧ p.dbghelp = fun _ => false := by
  refine VisitedWalk.foldlM_induction _ (fun p => Managed p ∧ p.dbghelp = fun _ => false) steps
    ?_ ⟨managed_fresh _, rfl⟩ h
  rintro p q e _ ⟨hp, hd⟩ hi
  exact ⟨managed_of_install hp hi, (dbghelp_install hi).trans hd⟩

/-- **Initialised before use.** After the attach a run of installs calls through no
null pointer exactly when it never comes to a scan. -/
theorem initialised_before_use_iff (hInst : Handle) (steps : List (World × Handle)) :
    (∀ f, installAll (attached hInst).core steps (attached hInst).process ≠
        .error (.nullCall f)) ↔
      NeverScans (attached hInst) steps := by
  have hret : (∀ f, installAll (attached hInst).core steps (attached hInst).process ≠
        .error (.nullCall f)) ↔
      ∃ q, installAll (attached hInst).core steps (attached hInst).process = .ok q := by
    cases h : installAll (attached hInst).core steps (attached hInst).process with
    | ok q => simp
    | error e =>
      obtain ⟨pre, ⟨W, hModule⟩, _, p, _, hp, hb⟩ := VisitedWalk.foldlM_error _ _ h
      have he : e = .nullCall .ldrLockLoaderLock :=
        install_nullCall (by rw [(managed_installAll hp).2]) hb
      simp [he]
  rw [hret, installAll, VisitedWalk.foldlM_returns_iff]
  constructor
  · intro hall pre W hModule post p he hp hnull
    obtain ⟨hm, hd⟩ := managed_installAll hp
    have hr := (install_returns_iff W (attached hInst).core hModule hm.configured).mp
      (hall pre (W, hModule) post p he hp) hnull
    cases hempty : (boundTable W nullptr p.ctx.symbols).isEmpty with
    | false => rfl
    | true => exact absurd (hr hempty) (not_scanReturns (by rw [hd]))
  · rintro hn pre ⟨W, hModule⟩ post p he hp
    refine (install_returns_iff W (attached hInst).core hModule
      (managed_installAll hp).1.configured).mpr ?_
    intro hnull hempty
    rw [hn pre W hModule post p he hp hnull] at hempty
    cases hempty

/-- `odbk_install(nullptr)` in a process without a Lua module calls
`LdrLockLoaderLock` through a null pointer. -/
theorem first_install_null_call :
    ¬ ∀ f, installAll (attached 7).core [(World.quiet, nullptr)] (attached 7).process ≠
      .error (.nullCall f) :=
  fun h => h .ldrLockLoaderLock rfl

end Odbk
