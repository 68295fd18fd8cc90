import Odbk.Install

/-!
# The targets handed to `MH_CreateHook`

`odbk_hook` reads its target from the pointer that it overwrites. Proved here:

* `createHookCalls_eq`: the calls as those of a run of patches;
* `calls_once`: without `luaL_newstate` no pointer is read twice;
* `newstate_read_twice`: with it, its pointer is;
* `api_hooked_once_iff`: exactly when each function is hooked once, at its address.
-/

namespace Odbk

open HookRegistry

/-! ## The calls -/

/-- The calls of `MH_CreateHook` at a list of sites, in order: the function that is
hooked and the target. -/
def odbkHookCalls : List (Fn × Detour) → Process → List (Fn × Code Addr)
  | [], _ => []
  | (f, pDetour) :: sites, p =>
    (p.ptr f).toList.map (fun pTarget => (f, pTarget)) ++
      odbkHookCalls sites (odbkHook f pDetour p)

/-- The calls of `MH_CreateHook` by `odbk_install_lua_hooks`. -/
def createHookCalls (p : Process) : List (Fn × Code Addr) :=
  odbkHookCalls (hookSites p.ctx.version) p

/-- Every target is the address that the table has under a name of the function, and no
function and no target is handed over twice. -/
structure ApiHookedOnce (T : Symbols) (calls : List (Fn × Code Addr)) : Prop where
  found : ∀ c ∈ calls, ∃ name ∈ bindNames c.1, ∃ a, T.find? name = some a ∧ c.2 = .image a
  functions : (calls.map Prod.fst).Nodup
  targets : (calls.map Prod.snd).Nodup

theorem createHookCalls_eq (p : Process) :
    createHookCalls p = Patched.calls (hookSites p.ctx.version) p.toPatched := by
  have h : ∀ sites, ∀ p : Process, odbkHookCalls sites p = Patched.calls sites p.toPatched := by
    intro sites
    induction sites with
    | nil => exact fun _ => rfl
    | cons e sites ih =>
      intro p
      rw [odbkHookCalls, Patched.calls, ih, odbkHook_eq]
  exact h _ p

/-! ## Functions with two sites -/

/-- Only `luaL_newstate` has two sites. -/
theorem nodup_hookSites (version : Int) :
    (((hookSites version).map Prod.fst).filter fun f => f ≠ .luaLNewstate).Nodup := by
  have h : ∀ b c : Bool,
      (((hookSitesOf b c).map Prod.fst).filter fun f => f ≠ .luaLNewstate).Nodup := by decide
  exact h _ _

theorem newstate_twice (version : Int) :
    [Fn.luaLNewstate, .luaLNewstate].Sublist ((hookSites version).map Prod.fst) := by
  have h : ∀ b c : Bool,
      [Fn.luaLNewstate, .luaLNewstate].Sublist ((hookSitesOf b c).map Prod.fst) := by decide
  exact h _ _

section Calls

variable {s : Patched Fn Addr Detour} {version : Int}

/-- Without `luaL_newstate` no pointer is read twice. -/
theorem calls_once (h : s.ptr .luaLNewstate = none) :
    (((hookSites version).map Prod.fst).filter fun f => (s.ptr f).isSome).Nodup := by
  refine List.Sublist.nodup ?_ (nodup_hookSites version)
  refine List.monotone_filter_right _ fun f hf => ?_
  have hne : f ≠ .luaLNewstate := by
    rintro rfl
    rw [h] at hf
    cases hf
  exact decide_eq_true hne

/-- With `luaL_newstate` its pointer is read twice. -/
theorem newstate_read_twice {c : Code Addr} (h : s.ptr .luaLNewstate = some c) :
    ¬ ((Patched.calls (hookSites version) s).map Prod.fst).Nodup := by
  rw [Patched.map_fst_calls]
  intro hn
  have htwo := (newstate_twice version).filter fun f => (s.ptr f).isSome
  rw [List.filter_eq_self.mpr (by simp [h])] at htwo
  exact absurd (htwo.nodup hn) (by decide)

end Calls

/-! ## One install in a new process -/

section Fresh

variable {T : Symbols} {dbghelp : DbgFn → Bool} {version : Int}

/-- `luaL_newstate` is bound as the table has it. -/
theorem rebound_newstate (T : Symbols) (dbghelp : DbgFn → Bool) :
    rebound T (Process.fresh dbghelp) .luaLNewstate = getLuaFn T "luaL_newstate" := by
  have hs : spared T .luaLNewstate = false := rfl
  rw [rebound, hs, if_neg Bool.false_ne_true]
  exact offer_of_bindNames rfl T

/-- Without `luaL_newstate` every target is what its pointer was bound to. -/
theorem found_of_call (h : getLuaFn T "luaL_newstate" = none) {c : Fn × Code Addr}
    (hc : c ∈ Patched.calls (hookSites version) (afterLoad T (Process.fresh dbghelp))) :
    (∃ d, (c.1, d) ∈ hookSites version) ∧
      ∃ name ∈ bindNames c.1, ∃ a, T.find? name = some a ∧ c.2 = .image a := by
  rw [Patched.calls_eq_filterMap (calls_once ((rebound_newstate T dbghelp).trans h)),
    List.mem_filterMap] at hc
  obtain ⟨⟨f, d⟩, hm, hp⟩ := hc
  obtain ⟨t, ht, rfl⟩ := Option.map_eq_some_iff.mp hp
  have ho : offer T f = some t := offer_of_rebound_fresh ht
  obtain ⟨a, rfl⟩ := image_of_firstOf ho
  obtain ⟨name, hname, ha⟩ := find_of_offer ho
  exact ⟨⟨d, hm⟩, name, hname, a, ha, rfl⟩

/-- The calls over an accepted load in a new process. -/
theorem apiHookedOnce_iff (hd : DistinctAddresses T) :
    ApiHookedOnce T (Patched.calls (hookSites version) (afterLoad T (Process.fresh dbghelp))) ↔
      getLuaFn T "luaL_newstate" = none := by
  constructor
  · intro h
    cases hn : getLuaFn T "luaL_newstate" with
    | none => rfl
    | some c =>
      exact absurd h.functions (newstate_read_twice ((rebound_newstate T dbghelp).trans hn))
  · intro h
    have hfns : ((Patched.calls (hookSites version)
        (afterLoad T (Process.fresh dbghelp))).map Prod.fst).Nodup := by
      rw [Patched.map_fst_calls]
      exact calls_once ((rebound_newstate T dbghelp).trans h)
    refine ⟨fun c hc => (found_of_call h hc).2, hfns, ?_⟩
    refine List.Nodup.map_on (fun c hc c' hc' htarget => ?_) hfns.of_map
    obtain ⟨⟨d, hm⟩, name, hname, a, ha, himage⟩ := found_of_call h hc
    obtain ⟨⟨d', hm'⟩, name', hname', a', ha', himage'⟩ := found_of_call h hc'
    rw [himage, himage', Code.image.injEq] at htarget
    subst htarget
    -- one address has one name, which is that of one function
    rw [hd name name' a ha ha'] at hname
    have hsite := bindNames_hookSites _ hm _ hm' name' hname hname'
    rw [Prod.mk.injEq] at hsite
    exact Prod.ext hsite.1 (himage.trans himage'.symm)

end Fresh

/-- **Hooked once.** Over an accepted table, and in an install in a new process that
binds it, each API function is hooked once, and nothing else, exactly when the table has
no `luaL_newstate`. -/
theorem api_hooked_once_iff (dbghelp : DbgFn → Bool) {T : Symbols} (ha : accepts T = true)
    (hd : DistinctAddresses T) :
    (ApiHookedOnce T (createHookCalls (freshLoad dbghelp T)) ↔
        getLuaFn T "luaL_newstate" = none) ∧
      ∀ W core hModule q, boundTable W hModule .empty = T →
        odbkLoadLuaInternal W core hModule (Process.fresh dbghelp) = .ok (q, true) →
        (ApiHookedOnce T (createHookCalls q) ↔ getLuaFn T "luaL_newstate" = none) := by
  constructor
  · rw [createHookCalls_eq, toPatched_freshLoad dbghelp ha]
    exact apiHookedOnce_iff hd
  · intro W core hModule q hT hq
    obtain ⟨v, _, _, hload⟩ := accepted_load (configured_fresh dbghelp) hq
    have hload : q.toPatched = afterLoad T (Process.fresh dbghelp) := hT ▸ hload
    rw [createHookCalls_eq, hload]
    exact apiHookedOnce_iff hd

theorem load_exporting_fresh (base : Addr) (fns : List Fn) (core : OdbkCore)
    (dbghelp : DbgFn → Bool) :
    odbkLoadLuaInternal (World.exporting (stockTable base fns)) core 1 (Process.fresh dbghelp) =
      .ok (freshLoad dbghelp (stockSymbols base fns), accepts (stockSymbols base fns)) :=
  load_exporting base fns core (Process.fresh dbghelp)

/-- Lua 5.1 built without `luaL_newstate`: each function is hooked once. -/
theorem api_hooked_once_without_newstate :
    ∃ T q, boundTable (World.exporting (stockTable 4096 (lua51Fns.erase .luaLNewstate))) 1
        .empty = T ∧
      odbkLoadLuaInternal (World.exporting (stockTable 4096 (lua51Fns.erase .luaLNewstate)))
        ⟨0, 0⟩ 1 (Process.fresh fun _ => true) = .ok (q, true) ∧
      ApiHookedOnce T (createHookCalls (freshLoad (fun _ => true) T)) ∧
      ApiHookedOnce T (createHookCalls q) := by
  have ha : accepts (stockSymbols 4096 (lua51Fns.erase .luaLNewstate)) = true :=
    accepts_stockSymbols 4096 _ ⟨510, -10000, -10002, some luaHookTailRet⟩
      (by rw [detectVersion_stockSymbols]; decide) (by decide +kernel)
  have hn : getLuaFn (stockSymbols 4096 (lua51Fns.erase .luaLNewstate)) "luaL_newstate" = none :=
    (getLuaFn_stockSymbols 4096 _ .luaLNewstate).trans (if_neg (by decide))
  have hload := load_exporting_fresh 4096 (lua51Fns.erase .luaLNewstate) ⟨0, 0⟩ fun _ => true
  rw [ha] at hload
  have hT : boundTable (World.exporting (stockTable 4096 (lua51Fns.erase .luaLNewstate))) 1
      .empty = stockSymbols 4096 (lua51Fns.erase .luaLNewstate) := rfl
  obtain ⟨hfresh, hinstall⟩ := api_hooked_once_iff (fun _ => true) ha (distinct_stockSymbols _ _)
  exact ⟨_, _, hT, hload, hfresh.mpr hn, (hinstall _ _ _ _ hT hload).mpr hn⟩

/-- Stock Lua 5.1 has `luaL_newstate`, and its pointer is read twice. -/
theorem lua51_newstate_hooked_twice :
    ∃ q, odbkLoadLuaInternal (World.exporting (stockTable 4096 lua51Fns)) ⟨0, 0⟩ 1
        (Process.fresh fun _ => true) = .ok (q, true) ∧
      accepts (stockSymbols 4096 lua51Fns) = true ∧
      DistinctAddresses (stockSymbols 4096 lua51Fns) ∧
      ¬ ApiHookedOnce (stockSymbols 4096 lua51Fns) (createHookCalls q) := by
  have ha := accepts_lua51 4096
  have hd := distinct_stockSymbols 4096 lua51Fns
  have hn : getLuaFn (stockSymbols 4096 lua51Fns) "luaL_newstate" =
      some (.image (Fn.stockAddr 4096 .luaLNewstate)) :=
    (getLuaFn_stockSymbols 4096 lua51Fns .luaLNewstate).trans (if_pos (by decide))
  have hload := load_exporting_fresh 4096 lua51Fns ⟨0, 0⟩ fun _ => true
  rw [ha] at hload
  refine ⟨_, hload, ha, hd, ?_⟩
  rw [createHookCalls_eq, toPatched_freshLoad _ ha, apiHookedOnce_iff hd, hn]
  exact fun h => (nomatch h)

end Odbk
