import Odbk.LoadModel

/-!
# A further VM

After any run of loads and installs a load reads a table whose addresses no load has read
yet, and the hooks are installed. The API pointers are shared, so the hooks of the modules
before it call through the new pointers, whether or not the load was accepted. Proved here:

* `leadsTo_of_new`: a pointer bound to a new address leads there, hooked or not;
* `last_load_takes_calls`: what becomes of the calls of every hook whose pointer the load
  assigned.
-/

namespace Odbk

open BindScript HookRegistry

/-- No load of the run read an address of the table. -/
def NewAddresses (l : List (World × Handle)) (T : Symbols) : Prop :=
  ∀ n a, T.find? n = some a → ∀ name, ¬Exported l name a

/-- But for `lua_loadx`, no name is looked up for a function and for another one that is
hooked. -/
theorem lookedUp_alone (version : Int) {f : Fn} (hf : f ≠ .luaLoadx) :
    ∀ e ∈ hookSites version, ∀ n ∈ lookedUp f, n ∈ lookedUp e.1 → e.1 = f := by
  have h : ∀ b c : Bool, ∀ f ∈ Fn.all, f ≠ .luaLoadx → ∀ e ∈ hookSitesOf b c,
      ∀ n ∈ lookedUp f, n ∈ lookedUp e.1 → e.1 = f := by decide +kernel
  exact h _ _ f (Fn.mem_all f) hf

theorem callee_ne_luaLoadx {p : Process} {d : Detour} {f : Fn} (h : d.callee p = some f) :
    f ≠ .luaLoadx := by
  have hfirst : ∀ {g g' : Fn}, firstBound p g g' = some f → g ≠ .luaLoadx → g' ≠ .luaLoadx →
      f ≠ .luaLoadx := by
    intro g g' hb hg hg'
    rcases (firstBound_isSome hb).2 with rfl | rfl
    · exact hg
    · exact hg'
  cases d with
  | luaLLoadbufferxHook => exact hfirst h (by decide) (by decide)
  | luaLLoadbufferHook => exact hfirst h (by decide) (by decide)
  | luaLLoadfilexHook => exact hfirst h (by decide) (by decide)
  | luaLLoadfileHook => exact hfirst h (by decide) (by decide)
  | _ =>
    cases h
    decide

/-- **New addresses.** A pointer left with one leads there after the hooks are installed. -/
theorem leadsTo_of_new {l : List (World × Handle)} {T : Symbols} {p q : Process} (hp : Managed p)
    (ht : Traced l p) (hq : q.toPatched = ⟨leftPtr T p, p.registry⟩) (hd : DistinctAddresses T)
    (hnew : NewAddresses l T) {f : Fn} (hf : f ≠ .luaLoadx) {a : Addr} {n : String}
    (hptr : leftPtr T p f = some (.image a)) (hn : n ∈ lookedUp f) (hna : T.find? n = some a) :
    (odbkInstallLuaHooks q).leadsTo f = some a := by
  rw [leadsTo_install, hq]
  refine Patched.leadsTo_patchAll_alone (sound_left hp.sound) fn_of_mem_hookSites hptr ?_ ?_
  · -- a hook over the address would lead back to an export read before
    intro hmem
    obtain ⟨name, hexp⟩ := ht.exported_of_hooked hmem
    exact hnew n a hna name hexp
  · intro e he hbound
    rcases leftPtr_exported hbound with hkept | ⟨b, hb, _, n', hn', hnb⟩
    · -- and so would a pointer kept
      obtain ⟨name, hexp⟩ := ht.exported_of_ptr hkept
      exact absurd hexp (hnew n a hna name)
    · cases hb
      rw [hd n' n a hnb hna] at hn'
      exact lookedUp_alone q.ctx.version hf e he n hn hn'

/-- **The last load takes the calls.** Over any run from a new process a load reads a table
with distinct new addresses, accepted or not, and the hooks are installed. Let the detour
of any hook, of whichever module, call a function whose pointer the load assigned. Then
either each call of the hooked code runs the detour once and then the code that the table
has for the function, or each goes through a null pointer. -/
theorem last_load_takes_calls {core : OdbkCore} {dbghelp : DbgFn → Bool}
    {l : List (World × Handle)} {p : Process} {r : Process × Bool} {W : World} {hLua : Handle}
    {T : Symbols} (run : BackendRun core (Process.fresh dbghelp) l p)
    (hT : boundTable W hLua p.ctx.symbols = T)
    (h : odbkLoadLuaInternal W core hLua p = .ok r) (hd : DistinctAddresses T)
    (hnew : NewAddresses l T) {c : Code Addr} {d : Detour}
    (hhook : (odbkInstallLuaHooks r.1).registry.detourOf c = some d) {f : Fn}
    (hf : d.callee (odbkInstallLuaHooks r.1) = some f) {o : Option (Code Addr)}
    (ho : assigned T f = some o) :
    (∃ a, o = some (.image a) ∧ (∃ n, T.find? n = some a) ∧
        RunsOnceThen (odbkInstallLuaHooks r.1) c d a) ∨
      (o = none ∧ ∀ fuel args,
        runCall (odbkInstallLuaHooks r.1) (fuel + 1) c args = [.detour d, .nullCall f]) := by
  have hp := managed_run run (managed_fresh dbghelp)
  have hall := allEnabled_install r.1
  obtain ⟨hq, _⟩ := load_left hp.configured h
  rw [hT] at hq
  have hptr : leftPtr T p f = o := by rw [leftPtr_eq, ho, Option.getD_some]
  rcases find_of_assigned ho with rfl | ⟨a, rfl, n, hn, hna⟩
  · right
    refine ⟨rfl, fun fuel args => ?_⟩
    have hnull : (odbkInstallLuaHooks r.1).ptr f = none := by
      rw [← Option.isNone_iff_eq_none, ← Option.not_isSome, ptr_isSome_install, hq]
      change (!(leftPtr T p f).isSome) = true
      rw [hptr]
      rfl
    have hcallee := callee_eq (odbkInstallLuaHooks r.1) d args
    rw [hf, Option.map_eq_some_iff] at hcallee
    obtain ⟨⟨g, args'⟩, hb, rfl⟩ := hcallee
    have henter : (odbkInstallLuaHooks r.1).registry.enter c = some d := (hall c).trans hhook
    simp only [runCall, henter, hb, hnull]
  · left
    have hlead := leadsTo_of_new hp (traced_run run) hq hd hnew (callee_ne_luaLoadx hf) hptr hn hna
    exact ⟨a, rfl, ⟨n, hna⟩, (once_iff hall hhook a).mpr ⟨f, hf, hlead⟩⟩

/-- A stock table based over all addresses exported. -/
theorem newAddresses_stock {l : List (World × Handle)} {base : Addr} {fns : List Fn}
    (h : ∀ name a, Exported l name a → a < base) : NewAddresses l (stockSymbols base fns) := by
  intro n a hn name hexp
  rw [stockSymbols, EmplaceMap.find?_emplaceAll, EmplaceMap.find?_empty, Option.none_or] at hn
  obtain ⟨g, _, rfl⟩ := fn_of_lookup_stockTable hn
  exact Nat.not_lt.mpr (Nat.le_add_right _ _) (h name _ hexp)

theorem stock_lt {name : String} {a : Addr}
    (h : Exported [(World.exporting (stockTable 4096 lua51Fns), 1)] name a) : a < 1048576 := by
  obtain ⟨e, he, hlookup⟩ := h
  rw [List.mem_singleton.mp he] at hlookup
  have hlookup : (stockTable 4096 lua51Fns).lookup name = some a := hlookup
  obtain ⟨f, _, rfl⟩ := fn_of_lookup_stockTable hlookup
  have hlow : ∀ f ∈ Fn.all, f.stockAddr 4096 < 1048576 := by decide +kernel
  exact hlow f (Fn.mem_all f)

/-- A table that is refused, with two functions at addresses of their own. -/
def refusedTable : Symbols := stockSymbols 1048576 [.luaGettop, .luaNewstate]

/-- Lua 5.1 is installed, and then a module is refused: a call of the `lua_newstate` of Lua
5.1 runs that of the module. -/
theorem last_load_takes_calls_refused :
    ∃ q, odbkLoadLuaInternal (World.exporting (stockTable 1048576 [.luaGettop, .luaNewstate]))
        ⟨0, 0⟩ 1 (freshInstall (fun _ => true) (stockSymbols 4096 lua51Fns)) = .ok (q, false) ∧
      RunsOnceThen (odbkInstallLuaHooks q) (.image (Fn.stockAddr 4096 .luaNewstate))
        .luaNewstateHook (Fn.stockAddr 1048576 .luaNewstate) := by
  obtain ⟨q, hload⟩ : ∃ q, odbkLoadLuaInternal
      (World.exporting (stockTable 1048576 [.luaGettop, .luaNewstate])) ⟨0, 0⟩ 1
      (freshInstall (fun _ => true) (stockSymbols 4096 lua51Fns)) = .ok (q, false) := by
    have h := load_exporting 1048576 [.luaGettop, .luaNewstate] ⟨0, 0⟩
      (freshInstall (fun _ => true) (stockSymbols 4096 lua51Fns))
    have hacc : accepts (stockSymbols 1048576 [.luaGettop, .luaNewstate]) = false := by
      decide +kernel
    rw [hacc] at h
    exact ⟨_, h⟩
  have run := run_stock 4096 lua51Fns ⟨0, 0⟩ fun _ => true
  obtain ⟨hd, _⟩ := hooked_lua51 (f := .luaNewstate) (d := .luaNewstateHook) (by decide +kernel)
    (by decide +kernel) (by decide)
  have hkept := (extends_install q).detourOf _ _ ((extends_load hload).detourOf _ _ hd)
  have hT : boundTable (World.exporting (stockTable 1048576 [.luaGettop, .luaNewstate])) 1
      (freshInstall (fun _ => true) (stockSymbols 4096 lua51Fns)).ctx.symbols = refusedTable := rfl
  have ho : assigned refusedTable .luaNewstate =
      some (some (.image (Fn.stockAddr 1048576 .luaNewstate))) := by decide +kernel
  refine ⟨q, hload, ?_⟩
  rcases last_load_takes_calls (f := .luaNewstate) run hT hload (distinct_stockSymbols 1048576 _)
    (newAddresses_stock fun _ _ => stock_lt) hkept rfl ho with ⟨a, ha, _, hruns⟩ | ⟨hnone, _⟩
  · cases ha
    exact hruns
  · cases hnone

end Odbk
