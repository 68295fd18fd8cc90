import Odbk.InstallRuns
import Odbk.Lib.HookHistory

/-!
# Where the code that runs comes from

Loads and installs of any result follow each other, with null handles and without, over
tables that change. Proved here:

* `traced_load`, `traced_install`, `traced_run`: every symbol, API pointer and hook goes
  back to an export that some load of the run read, under a name of its function;
* `pointers_traced`, `calls_traced`: what the pointers lead to and what calls execute;
* `extends_run`, `hooks_for_life`: no hook is lost, moved or disabled again.
-/

namespace Odbk

open BindScript HookRegistry

/-! ## Runs of the backend -/

/-- Loads and installs one after the other, of any result, each in the world of its
time. The list holds the world and the handle of each. -/
inductive BackendRun (core : OdbkCore) : Process → List (World × Handle) → Process → Prop
  | nil (p : Process) : BackendRun core p [] p
  | load {W : World} {hLua : Handle} {p q : Process} {r : Process × Bool}
      {l : List (World × Handle)} : odbkLoadLuaInternal W core hLua p = .ok r →
      BackendRun core r.1 l q → BackendRun core p ((W, hLua) :: l) q
  | install {W : World} {hModule : Handle} {p p' q : Process} {l : List (World × Handle)} :
      odbkInstall W core hModule p = .ok p' →
      BackendRun core p' l q → BackendRun core p ((W, hModule) :: l) q

/-- **Run rule.** What every load keeps and every installation of the hooks keeps, a run
keeps. -/
theorem BackendRun.induction {core : OdbkCore} {P : Process → Prop} {l : List (World × Handle)}
    (hload : ∀ e ∈ l, ∀ p r, P p → odbkLoadLuaInternal e.1 core e.2 p = .ok r → P r.1)
    (hhooks : ∀ p, P p → P (odbkInstallLuaHooks p)) {p q : Process} (run : BackendRun core p l q)
    (hp : P p) : P q := by
  induction run with
  | nil p => exact hp
  | @load W hLua p q r l hl _ ih =>
    apply ih
    · exact fun e he => hload e (List.mem_cons_of_mem _ he)
    · exact hload (W, hLua) List.mem_cons_self p r hp hl
  | @install W hModule p p' q l hi _ ih =>
    obtain ⟨r, hl, rfl⟩ := odbkInstall_ok hi
    apply ih
    · exact fun e he => hload e (List.mem_cons_of_mem _ he)
    · exact hhooks _ (hload (W, hModule) List.mem_cons_self p r hp hl)

theorem managed_run {core : OdbkCore} {p q : Process} {l : List (World × Handle)}
    (run : BackendRun core p l q) (hp : Managed p) : Managed q :=
  run.induction (fun _ _ _ _ hp hl => managed_load hp hl) (fun _ hp => managed_install hp) hp

/-! ## Traces to exports -/

/-- The names that the steps for a pointer look up. -/
def lookedUp (f : Fn) : List String := (stepKeys f).flatMap Prod.fst

theorem mem_lookedUp {version : Int} {s : BindStep Fn String} (hs : s ∈ bindings version)
    {name : String} (hn : name ∈ s.names) : name ∈ lookedUp s.slot := by
  refine List.mem_flatMap.mpr ⟨(s.names, s.guard), ?_, hn⟩
  rw [← keys_bindings version s.slot]
  exact List.mem_map_of_mem (List.mem_filter.mpr ⟨hs, decide_eq_true rfl⟩)

/-- Some load of the run read the address as the first one exported under the name. -/
def Exported (l : List (World × Handle)) (name : String) (a : Addr) : Prop :=
  ∃ e ∈ l, (exportsOf e.1 e.2).lookup name = some a

/-- An address that is not null, exported under a name that the steps for `f` look up. -/
def ExportedFor (l : List (World × Handle)) (f : Fn) (a : Addr) : Prop :=
  a ≠ 0 ∧ ∃ name ∈ lookedUp f, Exported l name a

/-- Every symbol was exported, and every pointer and every hook leads back to an address
exported for its function. -/
structure Traced (l : List (World × Handle)) (p : Process) : Prop where
  symbols : ∀ name a, p.ctx.symbols.find? name = some a → Exported l name a
  backed : Patched.Backed (ExportedFor l) Detour.fn p.toPatched

/-- A hooked address of an image was exported. -/
theorem Traced.exported_of_hooked {l : List (World × Handle)} {p : Process} (h : Traced l p)
    {a : Addr} (hm : .image a ∈ p.registry.targets) : ∃ name, Exported l name a := by
  obtain ⟨d, hd⟩ := Option.isSome_iff_exists.mp ((detourOf_isSome_iff p.registry _).mpr hm)
  obtain ⟨b, hb, _, name, _, hexp⟩ := h.backed.hooked _ d hd
  have hba : a = b := by simpa [origin] using hb
  exact ⟨name, hba ▸ hexp⟩

/-- And so was one in a pointer. -/
theorem Traced.exported_of_ptr {l : List (World × Handle)} {p : Process} (h : Traced l p) {f : Fn}
    {a : Addr} (hp : p.ptr f = some (.image a)) : ∃ name, Exported l name a := by
  obtain ⟨b, hb, _, name, _, hexp⟩ := h.backed.slot _ _ hp
  have hba : a = b := by simpa [origin] using hb
  exact ⟨name, hba ▸ hexp⟩

theorem traced_fresh (l : List (World × Handle)) (dbghelp : DbgFn → Bool) :
    Traced l (Process.fresh dbghelp) :=
  ⟨fun _ _ h => (nomatch h), fun _ _ h => (nomatch h), fun _ _ h => (nomatch h)⟩

theorem exported_of_boundTable {l : List (World × Handle)} {e : World × Handle} (he : e ∈ l)
    {leftover : Symbols} (hs : ∀ name a, leftover.find? name = some a → Exported l name a)
    {name : String} {a : Addr} (h : (boundTable e.1 e.2 leftover).find? name = some a) :
    Exported l name a := by
  rw [boundTable, EmplaceMap.find?_emplaceAll, Option.or_eq_some_iff] at h
  rcases h with h | ⟨_, h⟩
  · split at h
    · exact hs name a h
    · cases h
  · exact ⟨e, he, h⟩

theorem symbols_load {W : World} {core : OdbkCore} {hLua : Handle} {p : Process}
    {r : Process × Bool} (hp : Configured p) (h : odbkLoadLuaInternal W core hLua p = .ok r) :
    r.1.ctx.symbols = boundTable W hLua p.ctx.symbols := by
  obtain ⟨q, rfl, hs, _⟩ := load_binds hp h
  exact (odbkLuaFinishLoad_ctx_frame q).2.2.trans hs

/-- A table gives addresses that are not null. -/
theorem ne_zero_of_getLuaFn {T : Symbols} {name : String} {a : Addr}
    (h : getLuaFn T name = some (.image a)) : a ≠ 0 := by
  unfold getLuaFn at h
  split at h
  · split at h
    · cases h
    case isFalse hne =>
      cases h
      exact hne
  · cases h

/-- What a step run looks up is in the table, under a name that the steps for the pointer
look up. -/
theorem find_of_executed {T : Symbols} {v : LuaVersion} {s : BindStep Fn String}
    (hs : s ∈ executed T v) {c : Code Addr} (h : firstOf (getLuaFn T) s.names = some c) :
    ∃ a, c = .image a ∧ a ≠ 0 ∧ ∃ name ∈ lookedUp s.slot, T.find? name = some a := by
  obtain ⟨a, rfl⟩ := image_of_firstOf h
  obtain ⟨name, hn, hg⟩ := List.exists_of_findSome?_eq_some h
  have hm : s ∈ bindings v.version := (List.mem_filter.mp (mem_of_mem_reached hs)).1
  exact ⟨a, rfl, ne_zero_of_getLuaFn hg, name, mem_lookedUp hm hn, find_of_getLuaFn hg⟩

/-- What a load leaves in a pointer was there before, or its table has it. -/
theorem leftPtr_exported {T : Symbols} {p : Process} {f : Fn} {c : Code Addr}
    (h : leftPtr T p f = some c) :
    p.ptr f = some c ∨
      ∃ a, c = .image a ∧ a ≠ 0 ∧ ∃ name ∈ lookedUp f, T.find? name = some a := by
  cases hv : detectVersion T with
  | none =>
    left
    simpa only [leftPtr, hv] using h
  | some v =>
    rcases leftPtr_cases hv p f with ⟨he, _⟩ | ⟨s, hs, rfl, he⟩
    · exact Or.inl (he ▸ h)
    · exact Or.inr (find_of_executed hs (he ▸ h))

/-- **Step lemma for loads**, accepted or not. -/
theorem traced_load {core : OdbkCore} {l : List (World × Handle)} {e : World × Handle}
    (he : e ∈ l) {p : Process} {r : Process × Bool} (hp : Configured p) (ht : Traced l p)
    (h : odbkLoadLuaInternal e.1 core e.2 p = .ok r) : Traced l r.1 := by
  have hsym : ∀ name a, (boundTable e.1 e.2 p.ctx.symbols).find? name = some a →
      Exported l name a := fun name a ha => exported_of_boundTable he ht.symbols ha
  constructor
  · intro name a ha
    rw [symbols_load hp h] at ha
    exact hsym name a ha
  · rw [(load_left hp h).1]
    apply Patched.backed_rebind ht.backed
    intro f c hc
    refine (leftPtr_exported hc).imp id ?_
    rintro ⟨a, rfl, hne, name, hn, ha⟩
    exact ⟨a, rfl, hne, name, hn, hsym name a ha⟩

theorem traced_install {l : List (World × Handle)} {p : Process} (ht : Traced l p) :
    Traced l (odbkInstallLuaHooks p) := by
  rw [odbkInstallLuaHooks_eq]
  exact ⟨ht.symbols, Patched.backed_enable (Patched.backed_patchAll ht.backed fn_of_mem_hookSites)⟩

/-- **Every run keeps the traces.** -/
theorem traced_run {core : OdbkCore} {dbghelp : DbgFn → Bool} {l : List (World × Handle)}
    {p : Process} (run : BackendRun core (Process.fresh dbghelp) l p) : Traced l p := by
  refine (run.induction (P := fun p => Managed p ∧ Traced l p) ?_ ?_
    ⟨managed_fresh dbghelp, traced_fresh l dbghelp⟩).2
  · rintro e he p r ⟨hp, ht⟩ hl
    exact ⟨managed_load hp hl, traced_load he hp.configured ht hl⟩
  · rintro p ⟨hp, ht⟩
    exact ⟨managed_install hp, traced_install ht⟩

/-- **Pointers and hooks.** After any run from a new process every API pointer that is
set, and every hook, leads back to an address that is not null and that a load of the
run read among the exports under a name of the function. -/
theorem pointers_traced {core : OdbkCore} {dbghelp : DbgFn → Bool} {l : List (World × Handle)}
    {p : Process} (run : BackendRun core (Process.fresh dbghelp) l p) :
    (∀ f c, p.ptr f = some c → ∃ a, p.registry.origin c = some a ∧ ExportedFor l f a) ∧
      ∀ c d, p.registry.detourOf c = some d →
        ∃ a, p.registry.origin c = some a ∧ ExportedFor l d.fn a :=
  ⟨(traced_run run).backed.slot, (traced_run run).backed.hooked⟩

theorem boundTable_stock (base : Addr) (fns : List Fn) :
    boundTable (World.exporting (stockTable base fns)) 1 .empty = stockSymbols base fns := rfl

/-- One install of a stock table in a new process. -/
theorem install_stock (base : Addr) (fns : List Fn) (core : OdbkCore) (dbghelp : DbgFn → Bool) :
    odbkInstall (World.exporting (stockTable base fns)) core 1 (Process.fresh dbghelp) =
      .ok (freshInstall dbghelp (stockSymbols base fns)) := by
  rw [odbkInstall_of_load (load_exporting base fns core (Process.fresh dbghelp)), freshInstall,
    freshLoad]

theorem run_stock (base : Addr) (fns : List Fn) (core : OdbkCore) (dbghelp : DbgFn → Bool) :
    BackendRun core (Process.fresh dbghelp) [(World.exporting (stockTable base fns), 1)]
      (freshInstall dbghelp (stockSymbols base fns)) :=
  .install (install_stock base fns core dbghelp) (.nil _)

theorem pointers_traced_lua51 :
    ∃ p, BackendRun ⟨0, 0⟩ (Process.fresh fun _ => true)
        [(World.exporting (stockTable 4096 lua51Fns), 1)] p ∧
      (∀ f c, p.ptr f = some c → ∃ a, p.registry.origin c = some a ∧
        ExportedFor [(World.exporting (stockTable 4096 lua51Fns), 1)] f a) ∧
      ∀ c d, p.registry.detourOf c = some d → ∃ a, p.registry.origin c = some a ∧
        ExportedFor [(World.exporting (stockTable 4096 lua51Fns), 1)] d.fn a := by
  have run := run_stock 4096 lua51Fns ⟨0, 0⟩ fun _ => true
  exact ⟨_, run, pointers_traced run⟩

/-! ## What calls execute -/

/-- All code a call executes is where its entry leads back to, or where some pointer
does. -/
theorem original_of_runCall {p : Process} {fuel : Nat} {c : Code Addr} {args args' : List Val}
    {a : Addr} (h : .original a args' ∈ runCall p fuel c args) :
    p.registry.origin c = some a ∨
      ∃ f c', p.ptr f = some c' ∧ p.registry.origin c' = some a := by
  induction fuel generalizing c args with
  | zero => cases h
  | succ fuel ih =>
    rw [runCall] at h
    split at h
    · split at h
      case h_1 b hb =>
        have he := List.mem_singleton.mp h
        cases he
        exact Or.inl hb
      case h_2 => cases h
    · rcases List.mem_cons.mp h with h | h
      · cases h
      · split at h
        · cases h
        case h_2 f args₁ _ =>
          split at h
          · cases (List.mem_singleton.mp h)
          case h_2 c' hc' =>
            right
            rcases ih h with ho | hrest
            · exact ⟨f, c', hc', ho⟩
            · exact hrest

/-- **Calls.** After any run from a new process, a call of a hooked function or through
an API pointer executes code only at addresses that are not null and that a load of the
run read among the exports under a name of some API function. -/
theorem calls_traced {core : OdbkCore} {dbghelp : DbgFn → Bool} {l : List (World × Handle)}
    {p : Process} (run : BackendRun core (Process.fresh dbghelp) l p) {c : Code Addr}
    (hc : (p.registry.detourOf c).isSome = true ∨ ∃ f, p.ptr f = some c) (fuel : Nat)
    (args args' : List Val) (a : Addr) (ha : .original a args' ∈ runCall p fuel c args) :
    ∃ f, ExportedFor l f a := by
  obtain ⟨hslot, hhooked⟩ := (traced_run run).backed
  rcases original_of_runCall ha with ho | ⟨f, c', hf, ho⟩
  · rcases hc with hd | ⟨f, hf⟩
    · obtain ⟨d, hd⟩ := Option.isSome_iff_exists.mp hd
      obtain ⟨b, hb, hexp⟩ := hhooked c d hd
      rw [ho, Option.some.injEq] at hb
      exact ⟨d.fn, hb ▸ hexp⟩
    · obtain ⟨b, hb, hexp⟩ := hslot f c hf
      rw [ho, Option.some.injEq] at hb
      exact ⟨f, hb ▸ hexp⟩
  · obtain ⟨b, hb, hexp⟩ := hslot f c' hf
    rw [ho, Option.some.injEq] at hb
    exact ⟨f, hb ▸ hexp⟩

/-- A function that a stock table offers at its own address has a hook there, and its
pointer leads back to it. -/
theorem hooked_stock {base : Addr} {fns : List Fn} {v : LuaVersion} {f : Fn} {d : Detour}
    (ha : accepts (stockSymbols base fns) = true)
    (hv : detectVersion (stockSymbols base fns) = some v)
    (hs : spared (stockSymbols base fns) f = false)
    (ho : offer (stockSymbols base fns) f = some (.image (f.stockAddr base)))
    (hsite : (f, d) ∈ hookSites v.version) :
    (freshInstall (fun _ => true) (stockSymbols base fns)).registry.detourOf
        (.image (f.stockAddr base)) = some d ∧
      (freshInstall (fun _ => true) (stockSymbols base fns)).leadsTo f =
        some (f.stockAddr base) := by
  have hi := installed_fresh (fun _ => true) ha hv
  have hd := distinct_stockSymbols base fns
  have hr := rebound_fresh_of_offer (fun _ => true) hs ho
  exact ⟨hooked_fresh hi hd hsite hr, leadsTo_fresh hi hd hsite hr⟩

theorem hooked_lua51 {f : Fn} {d : Detour} (hs : spared (stockSymbols 4096 lua51Fns) f = false)
    (ho : offer (stockSymbols 4096 lua51Fns) f = some (.image (f.stockAddr 4096)))
    (hsite : (f, d) ∈ hookSites 510) :
    (freshInstall (fun _ => true) (stockSymbols 4096 lua51Fns)).registry.detourOf
        (.image (f.stockAddr 4096)) = some d ∧
      (freshInstall (fun _ => true) (stockSymbols 4096 lua51Fns)).leadsTo f =
        some (f.stockAddr 4096) :=
  hooked_stock (accepts_lua51 4096) (detectVersion_lua51 4096) hs ho hsite

theorem calls_traced_lua51 :
    .original (Fn.stockAddr 4096 .luaClose) [.word 7] ∈
        runCall (freshInstall (fun _ => true) (stockSymbols 4096 lua51Fns)) 2
          (.image (Fn.stockAddr 4096 .luaClose)) [.word 7] ∧
      ∃ f, ExportedFor [(World.exporting (stockTable 4096 lua51Fns), 1)] f
        (Fn.stockAddr 4096 .luaClose) := by
  obtain ⟨hd, hl⟩ := hooked_lua51 (f := .luaClose) (d := .luaCloseHook) rfl
    (by decide +kernel) (by decide)
  have hrun := run_stock 4096 lua51Fns ⟨0, 0⟩ fun _ => true
  have hcall := runCall_once (managed_run hrun (managed_fresh _)).enabled hd
    (show Detour.body _ .luaCloseHook [.word 7] = some (.luaClose, [.word 7]) from rfl) hl 0
  have hmem : .original (Fn.stockAddr 4096 .luaClose) [.word 7] ∈
      runCall (freshInstall (fun _ => true) (stockSymbols 4096 lua51Fns)) 2
        (.image (Fn.stockAddr 4096 .luaClose)) [.word 7] := by
    rw [hcall]
    simp
  exact ⟨hmem, calls_traced (run_stock 4096 lua51Fns ⟨0, 0⟩ fun _ => true)
    (Or.inl (by rw [hd, Option.isSome_some])) _ _ _ _ hmem⟩

/-! ## Hooks are kept -/

theorem extends_load {W : World} {core : OdbkCore} {hLua : Handle} {p : Process}
    {r : Process × Bool} (h : odbkLoadLuaInternal W core hLua p = .ok r) :
    Extends p.registry r.1.registry := by
  rw [registry_load h]
  exact Extends.refl _

theorem extends_install (p : Process) : Extends p.registry (odbkInstallLuaHooks p).registry := by
  rw [odbkInstallLuaHooks_eq]
  exact (Patched.extends_patchAll p.toPatched _).trans (extends_enableAll _)

theorem extends_run {core : OdbkCore} {p q : Process} {l : List (World × Handle)}
    (run : BackendRun core p l q) : Extends p.registry q.registry :=
  run.induction (P := fun q => Extends p.registry q.registry)
    (fun _ _ _ _ h hl => h.trans (extends_load hl)) (fun q h => h.trans (extends_install q))
    (Extends.refl _)

/-- **Hooks are for life.** In any run that goes on from a process that a run led to,
every hook keeps its detour and is enabled, and every trampoline and every hooked target
keeps the code it leads back to. -/
theorem hooks_for_life {core : OdbkCore} {dbghelp : DbgFn → Bool} {l l' : List (World × Handle)}
    {p q : Process} (run : BackendRun core (Process.fresh dbghelp) l p)
    (later : BackendRun core p l' q) :
    (∀ c d, p.registry.detourOf c = some d →
        q.registry.enter c = some d ∧ q.registry.origin c = p.registry.origin c) ∧
      ∀ f c, p.ptr f = some c → q.registry.origin c = p.registry.origin c := by
  have hext := extends_run later
  have hq := managed_run later (managed_run run (managed_fresh dbghelp))
  obtain ⟨hslot, hhooked⟩ := (traced_run run).backed
  have hsame : ∀ {c a}, p.registry.origin c = some a →
      q.registry.origin c = p.registry.origin c := fun ha => (hext.origin _ _ ha).trans ha.symm
  constructor
  · intro c d hd
    obtain ⟨a, ha, _⟩ := hhooked c d hd
    exact ⟨(hq.enabled c).trans (hext.detourOf c d hd), hsame ha⟩
  · intro f c hc
    obtain ⟨a, ha, _⟩ := hslot f c hc
    exact hsame ha

/-- A stock table is installed in any process. -/
theorem install_exporting {base : Addr} {fns : List Fn} {v : LuaVersion}
    (hv : detectVersion (stockSymbols base fns) = some v) (core : OdbkCore) (p : Process) :
    ∃ q, odbkInstall (World.exporting (stockTable base fns)) core 1 p = .ok q ∧
      q.ctx.version = v.version := by
  have hctx := ctx_odbkLuaFinishLoad (p.withSymbols (stockSymbols base fns))
  rw [symbols_withSymbols, hv] at hctx
  refine ⟨_, odbkInstall_of_load (load_exporting base fns core p), ?_⟩
  rw [odbkInstallLuaHooks_eq]
  exact congrArg OdbkLuaContext.version hctx

/-- A stock Lua 5.2 is installed after a stock Lua 5.1. -/
theorem hooks_for_life_two :
    ∃ q, BackendRun ⟨0, 0⟩ (freshInstall (fun _ => true) (stockSymbols 4096 lua51Fns))
        [(World.exporting (stockTable 1048576 lua52Fns), 1)] q ∧
      q.ctx.version = 520 ∧
      q.registry.enter (.image (Fn.stockAddr 4096 .luaClose)) = some .luaCloseHook := by
  obtain ⟨q, hinstall, hversion⟩ := install_exporting (detectVersion_lua52 1048576) ⟨0, 0⟩
    (freshInstall (fun _ => true) (stockSymbols 4096 lua51Fns))
  have later := BackendRun.install hinstall (.nil _)
  have hd := (hooked_lua51 (f := .luaClose) (d := .luaCloseHook) rfl
    (by decide +kernel) (by decide)).1
  have hlife := hooks_for_life (run_stock 4096 lua51Fns ⟨0, 0⟩ fun _ => true) later
  exact ⟨q, later, hversion, (hlife.1 _ _ hd).1⟩

end Odbk
