import Odbk.Install

/-!
# Script loading through the hooks

Scripts enter a VM through `lua_load`, `lua_loadx`, `luaL_loadbuffer(x)` and
`luaL_loadfile(x)`. One table with distinct addresses is bound in a new process
and hooked. Proved here:

* `detour_of_hooked`: which name a hooked address goes by;
* `script_loading_hooked_iff`: when every entry point that should be is hooked;
* `script_loading_transparent_iff`: when every call of a hooked entry point runs the
  VM's loader once, with what the program supplied.
-/

namespace Odbk

open HookRegistry

/-! ## Names of hooked addresses -/

/-- The detour of a hooked address is one of a function bound by that name. -/
theorem detour_of_hooked {T : Symbols} {v : LuaVersion} {dbghelp : DbgFn → Bool} {p' : Process}
    (hi : Installed T v (Process.fresh dbghelp) p') (hd : DistinctAddresses T) {name : String}
    {a : Addr} (ha : getLuaFn T name = some (.image a))
    (hm : .image a ∈ p'.registry.targets) :
    ∃ d, p'.registry.detourOf (.image a) = some d ∧ (d.fn, d) ∈ hookSites v.version ∧
      name ∈ bindNames d.fn := by
  obtain ⟨d, hdet⟩ := Option.isSome_iff_exists.mp ((detourOf_isSome_iff _ _).mpr hm)
  obtain ⟨hsite, hp⟩ := hooked_fresh_cases hi hdet
  obtain ⟨n, hn, hna⟩ := find_of_offer (offer_of_rebound_fresh hp)
  rw [hd n name a hna (find_of_getLuaFn ha)] at hn
  exact ⟨d, hdet, hsite, hn⟩

/-! ## Which entry points are hooked -/

/-- The functions that load a buffer or a file. -/
def auxLoaders : List (Fn × Detour) :=
  [ (.luaLLoadbuffer, .luaLLoadbufferHook), (.luaLLoadbufferx, .luaLLoadbufferxHook),
    (.luaLLoadfile, .luaLLoadfileHook), (.luaLLoadfilex, .luaLLoadfilexHook) ]

/-- Each entry point is hooked where the table offers it; `lua_load` only where it
does not offer `lua_loadx`. -/
structure ScriptLoadingHooked (T : Symbols) (p : Process) : Prop where
  aux : ∀ e ∈ auxLoaders, ∀ a, getLuaFn T e.1.name = some (.image a) →
    p.registry.detourOf (.image a) = some e.2
  loadx : ∀ a, getLuaFn T "lua_loadx" = some (.image a) →
    ∃ d, p.registry.detourOf (.image a) = some d ∧ d.fn = .luaLoad
  load : getLuaFn T "lua_loadx" = none → ∀ a, getLuaFn T "lua_load" = some (.image a) →
    ∃ d, p.registry.detourOf (.image a) = some d ∧ d.fn = .luaLoad

/-- The pointer `__lua_load` that the entry points call for. -/
def LoadBound (T : Symbols) (p : Process) : Prop :=
  p.ptr .luaLoad = (getLuaFn T "lua_loadx").or (getLuaFn T "lua_load")

/-- The table offers `lua_loadx`, or `lua_load` neither. -/
def LoadxOrNoLoad (T : Symbols) : Prop :=
  (getLuaFn T "lua_loadx").isSome = true ∨ getLuaFn T "lua_load" = none

/-- The detour hooked over `__lua_load`. -/
def loadDetour (version : Int) : Detour := if version > 510 then .luaLoadHook else .luaLoad510Hook

theorem loadDetour_site (version : Int) : (.luaLoad, loadDetour version) ∈ hookSites version := by
  unfold loadDetour
  by_cases h : version > 510 <;> simp [hookSites, hookSitesOf, h]

theorem auxLoaders_sites (version : Int) : ∀ e ∈ auxLoaders, e ∈ hookSites version := by
  have h : ∀ b c : Bool, ∀ e ∈ auxLoaders, e ∈ hookSitesOf b c := by decide
  exact h _ _

theorem fn_loadDetour (version : Int) : (loadDetour version).fn = .luaLoad := by
  unfold loadDetour
  split <;> rfl

/-- Only `lua_load`, which no step binds for good, has the name `lua_load`. -/
theorem not_mem_bindNames_load (version : Int) :
    ∀ e ∈ hookSites version, "lua_load" ∉ bindNames e.1 := by
  have h : ∀ b c : Bool, ∀ e ∈ hookSitesOf b c, "lua_load" ∉ bindNames e.1 := by decide +kernel
  exact h _ _

theorem offer_aux (T : Symbols) : ∀ e ∈ auxLoaders,
    spared T e.1 = false ∧ offer T e.1 = getLuaFn T e.1.name := by
  intro e he
  simp only [auxLoaders, List.mem_cons, List.not_mem_nil, or_false] at he
  rcases he with rfl | rfl | rfl | rfl <;> exact ⟨rfl, offer_of_bindNames rfl T⟩

theorem offer_luaLoad (T : Symbols) :
    spared T .luaLoad = false ∧ offer T .luaLoad = getLuaFn T "lua_loadx" :=
  ⟨rfl, by simp [offer, bindNames, BindScript.firstOf]⟩

/-- Without `lua_loadx`, an offered `lua_load` is not hooked. -/
theorem loadxOrNoLoad_of_hooked {T : Symbols} {v : LuaVersion} {dbghelp : DbgFn → Bool}
    {p' : Process} (hi : Installed T v (Process.fresh dbghelp) p') (hd : DistinctAddresses T)
    (h : ScriptLoadingHooked T p') : LoadxOrNoLoad T := by
  unfold LoadxOrNoLoad
  cases hx : getLuaFn T "lua_loadx" with
  | some c => exact Or.inl rfl
  | none =>
    refine Or.inr ?_
    cases hl : getLuaFn T "lua_load" with
    | none => rfl
    | some c =>
      obtain ⟨a, rfl⟩ := image_of_getLuaFn hl
      obtain ⟨d, hdet, _⟩ := h.load hx a hl
      obtain ⟨_, _, hsite, hn⟩ := detour_of_hooked hi hd hl (mem_targets_of_detourOf hdet)
      exact absurd hn (not_mem_bindNames_load v.version _ hsite)

theorem hooked_of_loadxOrNoLoad {T : Symbols} {v : LuaVersion} {dbghelp : DbgFn → Bool}
    {p' : Process} (hi : Installed T v (Process.fresh dbghelp) p') (hd : DistinctAddresses T)
    (h : LoadxOrNoLoad T) : ScriptLoadingHooked T p' := by
  refine ⟨fun e he a hea => ?_, fun a hax => ?_, fun hx a hal => ?_⟩
  · obtain ⟨hs, ho⟩ := offer_aux T e he
    exact hooked_fresh hi hd (auxLoaders_sites v.version e he)
      (rebound_fresh_of_offer dbghelp hs (ho.trans hea))
  · obtain ⟨hs, ho⟩ := offer_luaLoad T
    exact ⟨_, hooked_fresh hi hd (loadDetour_site v.version)
      (rebound_fresh_of_offer dbghelp hs (ho.trans hax)), fn_loadDetour v.version⟩
  · rcases h with h | h
    · rw [hx] at h
      cases h
    · rw [h] at hal
      cases hal

theorem loadBound_iff (dbghelp : DbgFn → Bool) {T : Symbols} (ha : accepts T = true) :
    LoadBound T (freshLoad dbghelp T) ↔ LoadxOrNoLoad T := by
  unfold LoadBound LoadxOrNoLoad
  rw [ptr_freshLoad dbghelp ha, (offer_luaLoad T).1, if_neg Bool.false_ne_true,
    (offer_luaLoad T).2]
  cases getLuaFn T "lua_loadx" with
  | some c => simp
  | none => simp [eq_comm]

/-- **Coverage.** Script loading is hooked as it should be, and `__lua_load` bound so,
exactly when the table offers `lua_loadx` or offers no `lua_load`. -/
theorem script_loading_hooked_iff (dbghelp : DbgFn → Bool) {T : Symbols}
    (ha : accepts T = true) (hd : DistinctAddresses T) :
    (ScriptLoadingHooked T (freshInstall dbghelp T) ↔ LoadxOrNoLoad T) ∧
      (LoadBound T (freshLoad dbghelp T) ↔ LoadxOrNoLoad T) := by
  obtain ⟨v, hv, _⟩ := (accepts_iff T).mp ha
  have hi := installed_fresh dbghelp ha hv
  exact ⟨⟨loadxOrNoLoad_of_hooked hi hd, hooked_of_loadxOrNoLoad hi hd⟩, loadBound_iff dbghelp ha⟩

theorem script_loading_hooked_iff_lua51 :
    (ScriptLoadingHooked (stockSymbols 4096 lua51Fns)
        (freshInstall (fun _ => true) (stockSymbols 4096 lua51Fns)) ↔
      LoadxOrNoLoad (stockSymbols 4096 lua51Fns)) ∧
    (LoadBound (stockSymbols 4096 lua51Fns)
        (freshLoad (fun _ => true) (stockSymbols 4096 lua51Fns)) ↔
      LoadxOrNoLoad (stockSymbols 4096 lua51Fns)) :=
  script_loading_hooked_iff _ (accepts_lua51 4096) (distinct_stockSymbols 4096 lua51Fns)

/-- Lua 5.1 offers `lua_load`, which is neither bound nor hooked. -/
theorem lua51_load_not_hooked :
    accepts (stockSymbols 4096 lua51Fns) = true ∧
      DistinctAddresses (stockSymbols 4096 lua51Fns) ∧
      ¬ ScriptLoadingHooked (stockSymbols 4096 lua51Fns)
        (freshInstall (fun _ => true) (stockSymbols 4096 lua51Fns)) ∧
      ¬ LoadBound (stockSymbols 4096 lua51Fns)
        (freshLoad (fun _ => true) (stockSymbols 4096 lua51Fns)) := by
  have ha := accepts_lua51 4096
  have hd := distinct_stockSymbols 4096 lua51Fns
  have hno : ¬ LoadxOrNoLoad (stockSymbols 4096 lua51Fns) := by
    have hx := getLuaFn_stockSymbols 4096 lua51Fns .luaLoadx
    have hl := getLuaFn_stockSymbols 4096 lua51Fns .luaLoad
    rw [if_neg (by decide)] at hx
    rw [if_pos (by decide)] at hl
    rintro (h | h)
    · rw [show getLuaFn _ "lua_loadx" = _ from hx] at h
      cases h
    · rw [show getLuaFn _ "lua_load" = _ from hl] at h
      cases h
  have hi := installed_fresh (fun _ => true) ha (detectVersion_lua51 4096)
  exact ⟨ha, hd, fun h => hno (loadxOrNoLoad_of_hooked hi hd h),
    fun h => hno ((loadBound_iff _ ha).mp h)⟩

/-! ## What a loader is asked for -/

/-- What a loader reads a script from. -/
inductive LoaderKind where
  | reader | buffer | file
  deriving DecidableEq, Repr

/-- What a call asks of the VM's loader. -/
structure Request where
  kind : LoaderKind
  args : List Val
  mode : Val
  deriving DecidableEq, Repr

/-- The request that an API function makes of the arguments it gets. One that takes
no mode asks for none, and `lua_load` takes a mode from Lua 5.2 on. -/
def request (version : Int) (f : Fn) (args : List Val) : Option Request :=
  match f with
  | .luaLoad =>
    some ⟨.reader, params 4 args,
      if version ≤ 510 then .null else args.getD 4 .undefined⟩
  | .luaLoadx => some ⟨.reader, params 4 args, args.getD 4 .undefined⟩
  | .luaLLoadbuffer => some ⟨.buffer, params 4 args, .null⟩
  | .luaLLoadbufferx => some ⟨.buffer, params 4 args, args.getD 4 .undefined⟩
  | .luaLLoadfile => some ⟨.file, params 2 args, .null⟩
  | .luaLLoadfilex => some ⟨.file, params 2 args, args.getD 2 .undefined⟩
  | _ => none

/-- The entry points through which a program loads scripts. -/
def scriptLoaders : List Fn :=
  [.luaLoad, .luaLoadx, .luaLLoadbuffer, .luaLLoadbufferx, .luaLLoadfile, .luaLLoadfilex]

/-- A call of `f` at its address runs one detour and then one function of the table,
which is asked for what the program asked for and whose result is returned. -/
def CallTransparent (T : Symbols) (version : Int) (p : Process) (f : Fn) (a : Addr)
    (args : List Val) : Prop :=
  ∃ d g b args', CallsOnce p (.image a) args d b args' ∧
    getLuaFn T g.name = some (.image b) ∧ request version g args' = request version f args

/-- Every call of a hooked entry point is transparent. -/
def LoadersTransparent (T : Symbols) (version : Int) (p : Process) : Prop :=
  ∀ f ∈ scriptLoaders, ∀ a, getLuaFn T f.name = some (.image a) →
    .image a ∈ p.registry.targets → ∀ args, CallTransparent T version p f a args

/-- A loader that passes its own parameters and a mode asks for that mode. -/
theorem request_x (version : Int) (args : List Val) (mode : Val) :
    request version .luaLLoadbufferx (params 4 args ++ [mode]) =
        some ⟨.buffer, params 4 args, mode⟩ ∧
      request version .luaLLoadfilex (params 2 args ++ [mode]) =
        some ⟨.file, params 2 args, mode⟩ ∧
      request version .luaLoadx (params 4 args ++ [mode]) =
        some ⟨.reader, params 4 args, mode⟩ := ⟨rfl, rfl, rfl⟩

theorem request_plain (version : Int) (args : List Val) (mode : Val) :
    request version .luaLLoadbuffer ((params 4 args ++ [mode]).take 4) =
        some ⟨.buffer, params 4 args, .null⟩ ∧
      request version .luaLLoadfile ((params 2 args ++ [mode]).take 2) =
        some ⟨.file, params 2 args, .null⟩ := ⟨rfl, rfl⟩

/-! ## Transparency -/

/-- The pointer of a hooked function is set exactly when the table offers it. -/
theorem ptr_isSome_aux {T : Symbols} {v : LuaVersion} {dbghelp : DbgFn → Bool} {p' : Process}
    (hi : Installed T v (Process.fresh dbghelp) p') : ∀ e ∈ auxLoaders,
    (p'.ptr e.1).isSome = (getLuaFn T e.1.name).isSome := by
  intro e he
  obtain ⟨hs, ho⟩ := offer_aux T e he
  rw [hi.isSome e.1, rebound, hs, if_neg Bool.false_ne_true, ho]

/-- Where a call of the function in `e` ends, if the table offers that function. -/
theorem leadsTo_aux {T : Symbols} {v : LuaVersion} {dbghelp : DbgFn → Bool} {p' : Process}
    (hi : Installed T v (Process.fresh dbghelp) p') (hd : DistinctAddresses T) :
    ∀ e ∈ auxLoaders, (p'.ptr e.1).isSome = true →
      ∃ b, getLuaFn T e.1.name = some (.image b) ∧ p'.leadsTo e.1 = some b := by
  intro e he hsome
  obtain ⟨hs, ho⟩ := offer_aux T e he
  rw [ptr_isSome_aux hi e he] at hsome
  obtain ⟨c, hc⟩ := Option.isSome_iff_exists.mp hsome
  obtain ⟨b, rfl⟩ := image_of_getLuaFn hc
  exact ⟨b, hc, leadsTo_fresh hi hd (auxLoaders_sites v.version e he)
    (rebound_fresh_of_offer dbghelp hs (ho.trans hc))⟩

/-- `luaL_loadbufferx_hook`, called with a mode or for a function without one. -/
theorem loadbuffer_transparent {T : Symbols} {v : LuaVersion} {dbghelp : DbgFn → Bool}
    {p' : Process} (hi : Installed T v (Process.fresh dbghelp) p') (hd : DistinctAddresses T)
    {a : Addr} {d : Detour} (hdet : p'.registry.detourOf (.image a) = some d) {f : Fn}
    {args : List Val} {mode : Val}
    (hb : d.body p' args = luaLLoadbufferxBody p' (params 4 args ++ [mode]))
    (hr : request v.version f args = some ⟨.buffer, params 4 args, mode⟩)
    (hbound : (p'.ptr .luaLLoadbufferx).isSome = true ∨
      ((p'.ptr .luaLLoadbuffer).isSome = true ∧ mode = .null)) :
    CallTransparent T v.version p' f a args := by
  unfold luaLLoadbufferxBody at hb
  by_cases hx : (p'.ptr .luaLLoadbufferx).isSome = true
  · obtain ⟨b, hg, hl⟩ := leadsTo_aux hi hd (.luaLLoadbufferx, .luaLLoadbufferxHook)
      (by decide) hx
    rw [if_pos hx] at hb
    exact ⟨d, .luaLLoadbufferx, b, _, callsOnce hi.managed.enabled hdet hb hl, hg,
      (request_x v.version args mode).1.trans hr.symm⟩
  · obtain ⟨hp, rfl⟩ := hbound.resolve_left hx
    obtain ⟨b, hg, hl⟩ := leadsTo_aux hi hd (.luaLLoadbuffer, .luaLLoadbufferHook)
      (by decide) hp
    rw [if_neg hx, if_pos hp] at hb
    exact ⟨d, .luaLLoadbuffer, b, _, callsOnce hi.managed.enabled hdet hb hl, hg,
      (request_plain v.version args .null).1.trans hr.symm⟩

/-- `luaL_loadfilex_hook`, likewise. -/
theorem loadfile_transparent {T : Symbols} {v : LuaVersion} {dbghelp : DbgFn → Bool}
    {p' : Process} (hi : Installed T v (Process.fresh dbghelp) p') (hd : DistinctAddresses T)
    {a : Addr} {d : Detour} (hdet : p'.registry.detourOf (.image a) = some d) {f : Fn}
    {args : List Val} {mode : Val}
    (hb : d.body p' args = luaLLoadfilexBody p' (params 2 args ++ [mode]))
    (hr : request v.version f args = some ⟨.file, params 2 args, mode⟩)
    (hbound : (p'.ptr .luaLLoadfilex).isSome = true ∨
      ((p'.ptr .luaLLoadfile).isSome = true ∧ mode = .null)) :
    CallTransparent T v.version p' f a args := by
  unfold luaLLoadfilexBody at hb
  by_cases hx : (p'.ptr .luaLLoadfilex).isSome = true
  · obtain ⟨b, hg, hl⟩ := leadsTo_aux hi hd (.luaLLoadfilex, .luaLLoadfilexHook)
      (by decide) hx
    rw [if_pos hx] at hb
    exact ⟨d, .luaLLoadfilex, b, _, callsOnce hi.managed.enabled hdet hb hl, hg,
      (request_x v.version args mode).2.1.trans hr.symm⟩
  · obtain ⟨hp, rfl⟩ := hbound.resolve_left hx
    obtain ⟨b, hg, hl⟩ := leadsTo_aux hi hd (.luaLLoadfile, .luaLLoadfileHook)
      (by decide) hp
    rw [if_neg hx, if_pos hp] at hb
    exact ⟨d, .luaLLoadfile, b, _, callsOnce hi.managed.enabled hdet hb hl, hg,
      (request_plain v.version args .null).2.trans hr.symm⟩

/-- An auxiliary loader that the table offers is hooked with its own detour. -/
theorem hooked_aux {T : Symbols} {v : LuaVersion} {dbghelp : DbgFn → Bool} {p' : Process}
    (hi : Installed T v (Process.fresh dbghelp) p') (hd : DistinctAddresses T) {e : Fn × Detour}
    (he : e ∈ auxLoaders) {a : Addr} (ha : getLuaFn T e.1.name = some (.image a)) :
    p'.registry.detourOf (.image a) = some e.2 ∧ (p'.ptr e.1).isSome = true := by
  obtain ⟨hs, ho⟩ := offer_aux T e he
  refine ⟨hooked_fresh hi hd (auxLoaders_sites v.version e he)
    (rebound_fresh_of_offer dbghelp hs (ho.trans ha)), ?_⟩
  rw [ptr_isSome_aux hi e he, ha, Option.isSome_some]

theorem aux_transparent {T : Symbols} {v : LuaVersion} {dbghelp : DbgFn → Bool} {p' : Process}
    (hi : Installed T v (Process.fresh dbghelp) p') (hd : DistinctAddresses T) :
    ∀ e ∈ auxLoaders, ∀ a, getLuaFn T e.1.name = some (.image a) → ∀ args,
      CallTransparent T v.version p' e.1 a args := by
  intro e he a ha args
  obtain ⟨hdet, hptr⟩ := hooked_aux hi hd he ha
  simp only [auxLoaders, List.mem_cons, List.not_mem_nil, or_false] at he
  rcases he with rfl | rfl | rfl | rfl
  · exact loadbuffer_transparent hi hd hdet rfl rfl (Or.inr ⟨hptr, rfl⟩)
  · exact loadbuffer_transparent hi hd hdet rfl rfl (Or.inl hptr)
  · exact loadfile_transparent hi hd hdet rfl rfl (Or.inr ⟨hptr, rfl⟩)
  · exact loadfile_transparent hi hd hdet rfl rfl (Or.inl hptr)

/-- The table has the marker names of Lua 5.2 or later, and none of Lua 5.0. -/
def MarkedLater (T : Symbols) : Prop :=
  T.contains "lua_open" = false ∧
    (T.contains "lua_rotate" = true ∨ T.contains "lua_callk" = true)

theorem markedLater_iff {T : Symbols} {v : LuaVersion} (hv : detectVersion T = some v) :
    MarkedLater T ↔ v.version > 510 := by
  unfold detectVersion at hv
  unfold MarkedLater
  revert hv
  cases T.contains "lua_open" <;> cases T.contains "lua_rotate" <;>
    cases T.contains "lua_callk" <;> cases T.contains "lua_gettop" <;>
    intro hv <;> simp at hv <;> subst hv <;> simp

/-- The detour of `lua_loadx` where it is hooked. -/
theorem hooked_loadx {T : Symbols} {v : LuaVersion} {dbghelp : DbgFn → Bool} {p' : Process}
    (hi : Installed T v (Process.fresh dbghelp) p') (hd : DistinctAddresses T) {a : Addr}
    (ha : getLuaFn T "lua_loadx" = some (.image a)) :
    p'.registry.detourOf (.image a) = some (loadDetour v.version) ∧
      p'.leadsTo .luaLoad = some a := by
  obtain ⟨hs, ho⟩ := offer_luaLoad T
  have hp := rebound_fresh_of_offer dbghelp hs (ho.trans ha)
  exact ⟨hooked_fresh hi hd (loadDetour_site v.version) hp,
    leadsTo_fresh hi hd (loadDetour_site v.version) hp⟩

/-- From Lua 5.2 on, `lua_loadx` gets its mode. -/
theorem loadx_transparent {T : Symbols} {v : LuaVersion} {dbghelp : DbgFn → Bool} {p' : Process}
    (hi : Installed T v (Process.fresh dbghelp) p') (hd : DistinctAddresses T)
    (hv : v.version > 510) {a : Addr} (ha : getLuaFn T "lua_loadx" = some (.image a))
    (args : List Val) : CallTransparent T v.version p' .luaLoadx a args := by
  obtain ⟨hdet, hl⟩ := hooked_loadx hi hd ha
  have hb : (loadDetour v.version).body p' args =
      some (.luaLoad, params 4 args ++ [args.getD 4 .undefined]) := by
    have hver : ¬ p'.ctx.version ≤ 510 := by
      rw [hi.version]
      omega
    rw [loadDetour, if_pos hv]
    exact if_neg hver
  exact ⟨_, .luaLoadx, a, _, callsOnce hi.managed.enabled hdet hb hl, ha,
    (request_x v.version args _).2.2⟩

/-- Before Lua 5.2, the loader behind `lua_loadx` gets no mode. -/
theorem loadx_without_mode {T : Symbols} {v : LuaVersion} {dbghelp : DbgFn → Bool} {p' : Process}
    (hi : Installed T v (Process.fresh dbghelp) p') (hd : DistinctAddresses T)
    (hv : ¬ v.version > 510) {a : Addr} (ha : getLuaFn T "lua_loadx" = some (.image a))
    (args : List Val) (fuel : Nat) :
    runCall p' (fuel + 2) (.image a) args =
      [.detour .luaLoad510Hook, .original a (params 4 args)] := by
  obtain ⟨hdet, hl⟩ := hooked_loadx hi hd ha
  rw [loadDetour, if_neg hv] at hdet
  have hb : Detour.body p' .luaLoad510Hook args = some (.luaLoad, params 4 args) := by
    have hver : p'.ctx.version ≤ 510 := by
      rw [hi.version]
      omega
    exact if_pos hver
  exact runCall_once hi.managed.enabled hdet hb hl fuel

/-- A mode reaches the loader behind `lua_loadx` only from Lua 5.2 on. -/
theorem markedLater_of_transparent {T : Symbols} {v : LuaVersion} {dbghelp : DbgFn → Bool}
    {p' : Process} (hi : Installed T v (Process.fresh dbghelp) p') (hd : DistinctAddresses T)
    (h : LoadersTransparent T v.version p') (hx : (getLuaFn T "lua_loadx").isSome = true) :
    v.version > 510 := by
  by_contra hlow
  obtain ⟨c, hc⟩ := Option.isSome_iff_exists.mp hx
  obtain ⟨a, rfl⟩ := image_of_getLuaFn hc
  obtain ⟨hdet, _⟩ := hooked_loadx hi hd hc
  -- a program that asks for a mode
  obtain ⟨d, g, b, args', hrun, hg, hr⟩ := h .luaLoadx (by decide) a hc
    (mem_targets_of_detourOf hdet) [.word 1, .word 2, .word 3, .word 4, .word 5]
  have hrun := (hrun 0).1
  rw [loadx_without_mode hi hd hlow hc] at hrun
  simp only [List.cons.injEq, Event.original.injEq, and_true] at hrun
  obtain ⟨_, rfl, rfl⟩ := hrun
  have hname : g.name = "lua_loadx" := hd _ _ a (find_of_getLuaFn hg) (find_of_getLuaFn hc)
  have hgx : g = .luaLoadx := Fn.name_injective hname
  subst hgx
  simp [request, params] at hr

theorem transparent_of_markedLater {T : Symbols} {v : LuaVersion} {dbghelp : DbgFn → Bool}
    {p' : Process} (hi : Installed T v (Process.fresh dbghelp) p') (hd : DistinctAddresses T)
    (h : (getLuaFn T "lua_loadx").isSome = true → v.version > 510) :
    LoadersTransparent T v.version p' := by
  intro f hf a hfa hm args
  simp only [scriptLoaders, List.mem_cons, List.not_mem_nil, or_false] at hf
  rcases hf with rfl | rfl | rfl | rfl | rfl | rfl
  · -- the address of `lua_load` itself is never hooked
    obtain ⟨_, _, hsite, hn⟩ := detour_of_hooked hi hd hfa hm
    exact absurd hn (not_mem_bindNames_load v.version _ hsite)
  · have hx : getLuaFn T "lua_loadx" = some (.image a) := hfa
    exact loadx_transparent hi hd (h (by rw [hx, Option.isSome_some])) hx args
  · exact aux_transparent hi hd (.luaLLoadbuffer, .luaLLoadbufferHook) (by decide) a hfa args
  · exact aux_transparent hi hd (.luaLLoadbufferx, .luaLLoadbufferxHook) (by decide) a hfa args
  · exact aux_transparent hi hd (.luaLLoadfile, .luaLLoadfileHook) (by decide) a hfa args
  · exact aux_transparent hi hd (.luaLLoadfilex, .luaLLoadfilexHook) (by decide) a hfa args

/-- **Transparency.** The hooks are transparent to script loading exactly when a
table that offers `lua_loadx` is marked as one of Lua 5.2 or later. -/
theorem script_loading_transparent_iff (dbghelp : DbgFn → Bool) {T : Symbols} {v : LuaVersion}
    (ha : accepts T = true) (hv : detectVersion T = some v) (hd : DistinctAddresses T) :
    LoadersTransparent T v.version (freshInstall dbghelp T) ↔
      ((getLuaFn T "lua_loadx").isSome = true → MarkedLater T) := by
  have hi := installed_fresh dbghelp ha hv
  rw [markedLater_iff hv]
  exact ⟨markedLater_of_transparent hi hd, transparent_of_markedLater hi hd⟩

/-- The functions of LuaJIT: those of Lua 5.1 and the loaders that take a mode. -/
def luajitFns : List Fn := [.luaLoadx, .luaLLoadbufferx, .luaLLoadfilex] ++ lua51Fns

theorem detectVersion_luajit (base : Addr) :
    detectVersion (stockSymbols base luajitFns) =
      some ⟨510, -10000, -10002, some luaHookTailRet⟩ := by
  rw [detectVersion_stockSymbols]
  decide

theorem accepts_luajit (base : Addr) : accepts (stockSymbols base luajitFns) = true :=
  accepts_stockSymbols base luajitFns _ (detectVersion_luajit base) (by decide +kernel)

theorem script_loading_transparent_iff_luajit :
    LoadersTransparent (stockSymbols 4096 luajitFns) 510
        (freshInstall (fun _ => true) (stockSymbols 4096 luajitFns)) ↔
      ((getLuaFn (stockSymbols 4096 luajitFns) "lua_loadx").isSome = true →
        MarkedLater (stockSymbols 4096 luajitFns)) :=
  script_loading_transparent_iff _ (accepts_luajit 4096) (detectVersion_luajit 4096)
    (distinct_stockSymbols 4096 luajitFns)

/-- In LuaJIT a call of `lua_loadx` loses its mode. -/
theorem luajit_loadx_loses_mode :
    accepts (stockSymbols 4096 luajitFns) = true ∧
      DistinctAddresses (stockSymbols 4096 luajitFns) ∧
      detectVersion (stockSymbols 4096 luajitFns) =
        some ⟨510, -10000, -10002, some luaHookTailRet⟩ ∧
      ¬ LoadersTransparent (stockSymbols 4096 luajitFns) 510
        (freshInstall (fun _ => true) (stockSymbols 4096 luajitFns)) := by
  have ha := accepts_luajit 4096
  have hd := distinct_stockSymbols 4096 luajitFns
  have hv := detectVersion_luajit 4096
  have hx := getLuaFn_stockSymbols 4096 luajitFns .luaLoadx
  rw [if_pos (by decide)] at hx
  refine ⟨ha, hd, hv, fun h => ?_⟩
  have := markedLater_of_transparent (installed_fresh (fun _ => true) ha hv) hd h
    (by rw [show getLuaFn _ "lua_loadx" = _ from hx, Option.isSome_some])
  exact absurd this (by decide)

end Odbk
