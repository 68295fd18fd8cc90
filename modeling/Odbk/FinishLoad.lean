import Odbk.Process
import Odbk.Lib.BindScript

/-!
# Binding the Lua API: `odbk_lua_finish_load`

The loader detects the Lua version from the names the symbol table has, then
runs the `GET_FUNCTION` macros one after the other. `bindings` is that sequence
as a binding script, in the order of the source. Proved here:

* `odbkLuaFinishLoad_eq`: what the loader returns and leaves behind, as a
  function of the symbol table and the pointers it starts from;
* `odbkLuaFinishLoad_snd`: the result is `accepts`, a predicate on the table;
* `ptr_of_accepts`: after a successful load every pointer is what the table
  offers, but for the fall-backs whose alternative is offered (`spared`) and
  `lua_rawseti`, which keep their old value;
* `ptr_of_missing`: after a failed load the pointers bound before the first
  missing name, and that one, hold what the table gives; no other has changed.
-/

namespace Odbk

open BindScript

/-- `get_lua_fn`. A null address is a null pointer. -/
def getLuaFn (symbols : Symbols) (name : String) : Option (Code Addr) :=
  match symbols.find? name with
  | some a => if a = 0 then none else some (.image a)
  | none => none

theorem getLuaFn_emplaceAll {symbols : Symbols} {name : String} {a : Addr}
    (h : symbols.find? name = some a) (l : List (String × Addr)) :
    getLuaFn (symbols.emplaceAll l) name = getLuaFn symbols name := by
  rw [getLuaFn, getLuaFn, EmplaceMap.find?_emplaceAll, h, Option.some_or]

/-- Tables offer addresses of images. -/
theorem image_of_getLuaFn {T : Symbols} {name : String} {c : Code Addr}
    (h : getLuaFn T name = some c) : ∃ a, c = .image a := by
  unfold getLuaFn at h
  split at h
  · split at h
    · cases h
    · cases h
      exact ⟨_, rfl⟩
  · cases h

theorem find_of_getLuaFn {T : Symbols} {name : String} {a : Addr}
    (h : getLuaFn T name = some (.image a)) : T.find? name = some a := by
  unfold getLuaFn at h
  split at h
  · split at h
    · cases h
    · cases h
      assumption
  · cases h

theorem image_of_firstOf {T : Symbols} {names : List String} {c : Code Addr}
    (h : firstOf (getLuaFn T) names = some c) : ∃ a, c = .image a := by
  obtain ⟨n, _, hn⟩ := List.exists_of_findSome?_eq_some h
  exact image_of_getLuaFn hn

/-! ## Version detection -/

def luaHookTailRet : Int := 4
def luaHookTailCall : Int := 4

/-- The context fields that depend on the detected version; Lua 5.0 leaves
`hook_tail_call` as it is. -/
structure LuaVersion where
  version : Int
  registryIndex : Int
  globalsIndex : Int
  hookTailCall : Option Int
  deriving DecidableEq, Repr

def detectVersion (symbols : Symbols) : Option LuaVersion :=
  if symbols.contains "lua_open" then
    -- only lua 5.0.x has this function
    some ⟨500, -10000, -10001, none⟩
  else if symbols.contains "lua_rotate" then
    some ⟨530, -1001000, 2, some luaHookTailCall⟩
  else if symbols.contains "lua_callk" then
    some ⟨520, -1001000, 2, some luaHookTailCall⟩
  else if symbols.contains "lua_gettop" then
    some ⟨510, -10000, -10002, some luaHookTailRet⟩
  else
    -- the module is not related to Lua at all
    none

def OdbkLuaContext.setVersion (v : LuaVersion) (c : OdbkLuaContext) : OdbkLuaContext :=
  { c with
    version := v.version
    registryIndex := v.registryIndex
    globalsIndex := v.globalsIndex
    hookTailCall := v.hookTailCall.getD c.hookTailCall }

/-! ## The macros -/

/-- `GET_FUNCTION` -/
def getFunction (f : Fn) : BindStep Fn String := ⟨f, [f.name], true, none⟩

/-- `GET_FUNCTION_OPTIONAL` -/
def getFunctionOptional (f : Fn) : BindStep Fn String := ⟨f, [f.name], false, none⟩

/-- `GET_FUNCTION_OPTIONAL_ALIAS` -/
def getFunctionOptionalAlias (f : Fn) (aliasName : String) : BindStep Fn String :=
  ⟨f, [f.name, aliasName], false, none⟩

/-- `GET_FUNCTION_OPTIONAL_RELOCATE` looks up the alias only. -/
def getFunctionOptionalRelocate (f : Fn) (aliasName : String) : BindStep Fn String :=
  ⟨f, [aliasName], false, none⟩

/-- `if (__g == nullptr) { GET_FUNCTION(f); }` -/
def getFunctionUnless (g f : Fn) : BindStep Fn String := ⟨f, [f.name], true, some g⟩

/-- The macro sequence of `odbk_lua_finish_load`. -/
def bindings (version : Int) : List (BindStep Fn String) :=
  [ getFunctionOptional .luaOpen,
    getFunctionUnless .luaOpen .luaNewstate,
    getFunction .luaNewthread,
    getFunction .luaClose,
    getFunction .luaError,
    getFunction .luaopenBase,
    getFunctionOptional .luaAbsindex,
    getFunction .luaSethook,
    getFunction .luaGetinfo,
    getFunctionOptional .luaRemove,
    getFunctionOptional .luaRotate,
    getFunction .luaSettable,
    getFunction .luaGettable,
    getFunction .luaRawget,
    getFunction .luaRawgeti,
    getFunction .luaRawset,
    getFunction .luaPushstring,
    getFunction .luaPushlstring,
    getFunction .luaType,
    getFunction .luaTypename,
    getFunction .luaSettop,
    getFunction .luaGettop,
    getFunction .luaGetlocal,
    getFunction .luaSetlocal,
    getFunction .luaGetstack,
    getFunctionOptional .luaInsert,
    getFunction .luaPushnil,
    getFunction .luaPushvalue,
    getFunction .luaPushcclosure,
    getFunction .luaPushnumber,
    getFunction .luaCheckstack,
    getFunction .luaGethookmask,
    getFunction .luaPushboolean,
    getFunctionOptional .luaConcat,
    getFunctionOptional .luaLWhere,
    getFunctionOptional .luaGetglobal,
    getFunctionOptional .luaSetglobal,
    getFunctionOptional .luaPushinteger,
    getFunctionOptional .luaTointeger,
    getFunctionOptional .luaTointegerx,
    getFunctionOptional .luaTostring,
    getFunctionUnless .luaTostring .luaTolstring,
    getFunctionOptional .luaTonumberx,
    getFunctionUnless .luaTonumberx .luaTonumber,
    getFunction .luaToboolean,
    getFunction .luaTocfunction,
    getFunction .luaTouserdata,
    getFunctionOptional .luaCallk,
    getFunctionUnless .luaCallk .luaCall,
    getFunctionOptional .luaPcallk,
    getFunctionUnless .luaPcallk .luaPcall,
    getFunctionOptional .luaNewtable,
    getFunctionUnless .luaNewtable .luaCreatetable,
    getFunctionOptional .luaLoad,
    getFunction .luaNext,
    getFunction .luaRawequal,
    getFunction .luaGetmetatable,
    getFunction .luaSetmetatable,
    getFunctionOptional .luaLRef,
    getFunctionOptional .luaLUnref,
    getFunction .luaLNewmetatable,
    getFunction .luaGetupvalue,
    getFunction .luaSetupvalue,
    getFunction .luaLOpenlibs,
    getFunctionOptional .luaGetfenv,
    getFunctionOptional .luaSetfenv,
    getFunctionOptional .luaCpcall,
    getFunction .luaNewuserdata,
    getFunctionOptional .luaLNewstate,
    getFunctionOptional .luaLRegister,
    getFunctionOptionalAlias .luaIOpenlib "luaL_openlib",
    getFunctionOptional .luaLLoadbuffer,
    getFunctionOptional .luaLLoadbufferx,
    getFunctionOptional .luaLLoadfile,
    getFunctionOptional .luaLLoadfilex,
    getFunctionOptional .luaTowstring,
    getFunctionOptional .luaIswstring,
    -- lua_pushthread does not exist in Lua 5.0
    (if version ≥ 510 then getFunction .luaPushthread else getFunctionOptional .luaPushthread),
    getFunctionOptional .luaIsinteger,
    getFunctionOptional .luaLoadx,
    getFunctionOptionalRelocate .luaLoad "lua_loadx" ]

/-- `ODBK_LOGERR` of a `GET_FUNCTION` that found nothing. -/
def warning1004 (f : Fn) : String :=
  "Warning 1004: Couldn't Get Lua function '" ++ f.name ++ "'"

/-- `odbk_lua_finish_load` on `s_ctx->symbols`. -/
def odbkLuaFinishLoad (p : Process) : Process × Bool :=
  match detectVersion p.ctx.symbols with
  | none => (p, false)
  | some v =>
    let p := { p with ctx := p.ctx.setVersion v }
    match run (getLuaFn p.ctx.symbols) (bindings v.version) p.ptr with
    | (ptr, none) => ({ p with ptr := ptr }, true)
    | (ptr, some s) => ({ p with ptr := ptr }.print .error (warning1004 s.slot), false)

/-! ## What the table decides -/

/-- The names behind a guard pointer. -/
def guardNames (f : Fn) : List String := [f.name]

/-- The binding steps that run for a table, the guarded ones only if open. -/
def selected (symbols : Symbols) (v : LuaVersion) : List (BindStep Fn String) :=
  active (getLuaFn symbols) guardNames (bindings v.version)

/-- The first required name that a table lacks. -/
def firstMissing (symbols : Symbols) (v : LuaVersion) : Option (BindStep Fn String) :=
  (selected symbols v).find? (missing (getLuaFn symbols))

/-- The table is that of a Lua VM and lacks no required name. -/
def accepts (symbols : Symbols) : Bool :=
  (detectVersion symbols).any fun v => (firstMissing symbols v).isNone

/-- The steps run for a table, up to the first missing one. -/
def executed (symbols : Symbols) (v : LuaVersion) : List (BindStep Fn String) :=
  reached (getLuaFn symbols) (selected symbols v)

/-- There are two sequences, that of Lua 5.0 and that of the later versions. -/
theorem bindings_cases {P : List (BindStep Fn String) → Prop} (h50 : P (bindings 500))
    (h51 : P (bindings 510)) (version : Int) : P (bindings version) := by
  by_cases h : version ≥ 510
  · have he : bindings version = bindings 510 := by
      rw [bindings, if_pos h]
      rfl
    rwa [he]
  · have he : bindings version = bindings 500 := by
      rw [bindings, if_neg h]
      rfl
    rwa [he]

theorem guardsSettled_bindings (version : Int) :
    GuardsSettled guardNames [] (bindings version) :=
  bindings_cases (by decide +kernel) (by decide +kernel) version

/-- **The loader as a function of the table.** -/
theorem odbkLuaFinishLoad_eq (p : Process) :
    odbkLuaFinishLoad p =
      match detectVersion p.ctx.symbols with
      | none => (p, false)
      | some v =>
        let ptr := (executed p.ctx.symbols v).foldl (assign (getLuaFn p.ctx.symbols)) p.ptr
        let p' := { p with ctx := p.ctx.setVersion v, ptr := ptr }
        match firstMissing p.ctx.symbols v with
        | none => (p', true)
        | some s => (p'.print .error (warning1004 s.slot), false) := by
  unfold odbkLuaFinishLoad
  cases hv : detectVersion p.ctx.symbols with
  | none => rfl
  | some v =>
    have h := run_eq (getLuaFn p.ctx.symbols) (bindings v.version) p.ptr
      (guardsSettled_bindings v.version) (by simp)
    have hs : (p.ctx.setVersion v).symbols = p.ctx.symbols := rfl
    simp only [hs, h, executed, selected, firstMissing]
    cases (active (getLuaFn p.ctx.symbols) guardNames (bindings v.version)).find?
      (missing (getLuaFn p.ctx.symbols)) with
    | none => rfl
    | some s => rfl

theorem odbkLuaFinishLoad_snd (p : Process) :
    (odbkLuaFinishLoad p).2 = accepts p.ctx.symbols := by
  rw [odbkLuaFinishLoad_eq, accepts]
  cases detectVersion p.ctx.symbols with
  | none => rfl
  | some v =>
    simp only [Option.any_some]
    cases firstMissing p.ctx.symbols v <;> rfl

/-- The loader writes the context, the pointers and the log. -/
theorem odbkLuaFinishLoad_frame (p : Process) :
    (odbkLuaFinishLoad p).1.registry = p.registry ∧ (odbkLuaFinishLoad p).1.dbghelp = p.dbghelp ∧
      ((odbkLuaFinishLoad p).1.ctx =
        match detectVersion p.ctx.symbols with
        | none => p.ctx
        | some v => p.ctx.setVersion v) ∧
      (odbkLuaFinishLoad p).1.ptr =
        match detectVersion p.ctx.symbols with
        | none => p.ptr
        | some v =>
          (executed p.ctx.symbols v).foldl (assign (getLuaFn p.ctx.symbols)) p.ptr := by
  rw [odbkLuaFinishLoad_eq]
  cases detectVersion p.ctx.symbols with
  | none => exact ⟨rfl, rfl, rfl, rfl⟩
  | some v =>
    cases hm : firstMissing p.ctx.symbols v with
    | none => simp [hm]
    | some s => simp [hm, Process.print]

@[simp] theorem registry_odbkLuaFinishLoad (p : Process) :
    (odbkLuaFinishLoad p).1.registry = p.registry := (odbkLuaFinishLoad_frame p).1

theorem dbghelp_odbkLuaFinishLoad (p : Process) :
    (odbkLuaFinishLoad p).1.dbghelp = p.dbghelp := (odbkLuaFinishLoad_frame p).2.1

theorem ctx_odbkLuaFinishLoad (p : Process) :
    (odbkLuaFinishLoad p).1.ctx =
      match detectVersion p.ctx.symbols with
      | none => p.ctx
      | some v => p.ctx.setVersion v := (odbkLuaFinishLoad_frame p).2.2.1

theorem ptr_odbkLuaFinishLoad (p : Process) :
    (odbkLuaFinishLoad p).1.ptr =
      match detectVersion p.ctx.symbols with
      | none => p.ptr
      | some v =>
        (executed p.ctx.symbols v).foldl (assign (getLuaFn p.ctx.symbols)) p.ptr :=
  (odbkLuaFinishLoad_frame p).2.2.2

theorem accepts_iff (symbols : Symbols) :
    accepts symbols = true ↔ ∃ v, detectVersion symbols = some v ∧
      firstMissing symbols v = none := by
  simp [accepts, Option.any_eq_true]

theorem accepts_of_isEmpty {T : Symbols} (h : T.isEmpty = true) : accepts T = false := by
  rw [T.eq_empty_of_isEmpty h]
  rfl

/-! ## Which table entry ends up in a pointer -/

/-- The function whose presence makes the loader skip `f`. -/
def alternative : Fn → Option Fn
  | .luaNewstate => some .luaOpen
  | .luaTolstring => some .luaTostring
  | .luaTonumber => some .luaTonumberx
  | .luaCall => some .luaCallk
  | .luaPcall => some .luaPcallk
  | .luaCreatetable => some .luaNewtable
  | _ => none

/-- The names that the last step for a pointer looks up. -/
def bindNames : Fn → List String
  | .luaLoad => ["lua_loadx"]
  | .luaIOpenlib => ["luaI_openlib", "luaL_openlib"]
  | f => [f.name]

/-- What a table gives for a pointer that the whole sequence binds. -/
def offer (symbols : Symbols) (f : Fn) : Option (Code Addr) :=
  firstOf (getLuaFn symbols) (bindNames f)

theorem offer_of_bindNames {f : Fn} (h : bindNames f = [f.name]) (T : Symbols) :
    offer T f = getLuaFn T f.name := by
  simp [offer, h, firstOf]

theorem find_of_offer {T : Symbols} {f : Fn} {a : Addr} (h : offer T f = some (.image a)) :
    ∃ n ∈ bindNames f, T.find? n = some a := by
  obtain ⟨n, hn, hg⟩ := List.exists_of_findSome?_eq_some h
  exact ⟨n, hn, find_of_getLuaFn hg⟩

/-- A whole run on this table assigns nothing to `__f`: `lua_rawseti` has no
step, and a fall-back has none when its alternative is offered. -/
def spared (symbols : Symbols) (f : Fn) : Bool :=
  f = .luaRawseti || (alternative f).any fun g => (getLuaFn symbols g.name).isSome

/-- The names and the guard of every step for a pointer. -/
def stepKeys : Fn → List (List String × Option Fn)
  | .luaRawseti => []
  | .luaLoad => [(["lua_load"], none), (["lua_loadx"], none)]
  | f => [(bindNames f, alternative f)]

theorem keys_bindings (version : Int) (f : Fn) :
    ((bindings version).filter fun s => s.slot = f).map (fun s => (s.names, s.guard)) =
      stepKeys f := by
  have h : ∀ f ∈ Fn.all, ((bindings version).filter fun s => s.slot = f).map
      (fun s => (s.names, s.guard)) = stepKeys f :=
    bindings_cases (P := fun l => ∀ f ∈ Fn.all, (l.filter fun s => s.slot = f).map
      (fun s => (s.names, s.guard)) = stepKeys f) (by decide +kernel) (by decide +kernel) version
  exact h f (Fn.mem_all f)

/-- The value of the last step selected for a pointer. -/
theorem last_selected (symbols : Symbols) (v : LuaVersion) (f : Fn) :
    ((selected symbols v).filter fun s => s.slot = f).getLast?.map
        (fun s => firstOf (getLuaFn symbols) s.names) =
      if spared symbols f then none else some (offer symbols f) := by
  let opened : List String × Option Fn → Bool :=
    fun k => k.2.all fun g => (firstOf (getLuaFn symbols) (guardNames g)).isNone
  have hk : ((selected symbols v).filter fun s => s.slot = f).map (fun s => (s.names, s.guard)) =
      (stepKeys f).filter opened := by
    rw [← keys_bindings v.version f, List.filter_map, selected, active, List.filter_filter,
      List.filter_filter]
    simp only [opened, Function.comp_apply, Bool.and_comm]
  have hl : ((selected symbols v).filter fun s => s.slot = f).getLast?.map
        (fun s => firstOf (getLuaFn symbols) s.names) =
      ((stepKeys f).filter opened).getLast?.map fun k => firstOf (getLuaFn symbols) k.1 := by
    rw [← hk, List.getLast?_map, Option.map_map]
    rfl
  rw [hl]
  cases f <;>
    simp [stepKeys, opened, spared, alternative, offer, bindNames, guardNames, firstOf] <;>
    split <;> simp_all

/-- **Pointers after a successful load.** -/
theorem ptr_of_accepts (p : Process) (h : accepts p.ctx.symbols = true) (f : Fn) :
    (odbkLuaFinishLoad p).1.ptr f =
      if spared p.ctx.symbols f then p.ptr f else offer p.ctx.symbols f := by
  obtain ⟨v, hv, hm⟩ := (accepts_iff _).mp h
  have he : executed p.ctx.symbols v = selected p.ctx.symbols v := reached_of_find?_none _ _ hm
  have hl := last_selected p.ctx.symbols v f
  simp only [odbkLuaFinishLoad_eq, hv, hm, he, foldl_assign]
  cases hs : spared p.ctx.symbols f with
  | true =>
    rw [hs, if_pos rfl, Option.map_eq_none_iff] at hl
    rw [hl, if_pos rfl, Option.elim_none]
  | false =>
    rw [hs, if_neg Bool.false_ne_true, Option.map_eq_some_iff] at hl
    obtain ⟨s, hlast, hval⟩ := hl
    rw [hlast, if_neg Bool.false_ne_true, ← hval, Option.elim_some]

/-- **Pointers after a failed load.** -/
theorem ptr_of_missing (p : Process) {v : LuaVersion} {s : BindStep Fn String}
    (hv : detectVersion p.ctx.symbols = some v) (hm : firstMissing p.ctx.symbols v = some s) :
    ∃ pre post, selected p.ctx.symbols v = pre ++ s :: post ∧
      (∀ t ∈ pre, missing (getLuaFn p.ctx.symbols) t = false) ∧
      ∀ f, (odbkLuaFinishLoad p).1.ptr f =
        ((pre ++ [s]).filter fun t => t.slot = f).getLast?.elim (p.ptr f) fun t =>
          firstOf (getLuaFn p.ctx.symbols) t.names := by
  obtain ⟨pre, post, hl, hr, hp⟩ := reached_of_find? _ _ hm
  refine ⟨pre, post, hl, hp, fun f => ?_⟩
  have he : executed p.ctx.symbols v = pre ++ [s] := hr
  simp only [ptr_odbkLuaFinishLoad, hv, he, foldl_assign]

/-! ## A load in a new process -/

/-- The process after a new process binds a table. -/
def freshLoad (dbghelp : DbgFn → Bool) (T : Symbols) : Process :=
  (odbkLuaFinishLoad ((Process.fresh dbghelp).withSymbols T)).1

theorem ptr_freshLoad (dbghelp : DbgFn → Bool) {T : Symbols} (ha : accepts T = true) (f : Fn) :
    (freshLoad dbghelp T).ptr f = if spared T f then none else offer T f :=
  ptr_of_accepts ((Process.fresh dbghelp).withSymbols T) ha f

theorem version_freshLoad (dbghelp : DbgFn → Bool) {T : Symbols} {v : LuaVersion}
    (hv : detectVersion T = some v) : (freshLoad dbghelp T).ctx.version = v.version := by
  rw [freshLoad, ctx_odbkLuaFinishLoad, symbols_withSymbols, hv]
  rfl

/-! ## Concrete tables -/

/-- The symbols map filled with a stock table. -/
def stockSymbols (base : Addr) (fns : List Fn) : Symbols :=
  EmplaceMap.empty.emplaceAll (stockTable base fns)

theorem find?_stockSymbols (base : Addr) (fns : List Fn) (f : Fn) :
    (stockSymbols base fns).find? f.name =
      if f ∈ fns then some (f.stockAddr base) else none := by
  rw [stockSymbols, EmplaceMap.find?_emplaceAll, EmplaceMap.find?_empty, Option.none_or,
    lookup_stockTable]

theorem contains_stockSymbols (base : Addr) (fns : List Fn) (f : Fn) :
    (stockSymbols base fns).contains f.name = decide (f ∈ fns) := by
  rw [EmplaceMap.contains, find?_stockSymbols]
  split <;> simp_all

theorem getLuaFn_stockSymbols (base : Addr) (fns : List Fn) (f : Fn) :
    getLuaFn (stockSymbols base fns) f.name =
      if f ∈ fns then some (.image (f.stockAddr base)) else none := by
  have h0 : f.stockAddr base ≠ 0 := by simp [Fn.stockAddr]
  rw [getLuaFn, find?_stockSymbols]
  by_cases h : f ∈ fns
  · simp [h, h0]
  · simp [h]

theorem detectVersion_stockSymbols (base : Addr) (fns : List Fn) :
    detectVersion (stockSymbols base fns) =
      if .luaOpen ∈ fns then some ⟨500, -10000, -10001, none⟩
      else if .luaRotate ∈ fns then some ⟨530, -1001000, 2, some luaHookTailCall⟩
      else if .luaCallk ∈ fns then some ⟨520, -1001000, 2, some luaHookTailCall⟩
      else if .luaGettop ∈ fns then some ⟨510, -10000, -10002, some luaHookTailRet⟩
      else none := by
  have h := contains_stockSymbols base fns
  simp only [detectVersion, show ("lua_open" : String) = Fn.name .luaOpen from rfl,
    show ("lua_rotate" : String) = Fn.name .luaRotate from rfl,
    show ("lua_callk" : String) = Fn.name .luaCallk from rfl,
    show ("lua_gettop" : String) = Fn.name .luaGettop from rfl, h, decide_eq_true_eq]

theorem names_of_required (version : Int) :
    ∀ s ∈ bindings version, s.required = true → s.names = [s.slot.name] :=
  bindings_cases (P := fun l => ∀ s ∈ l, s.required = true → s.names = [s.slot.name])
    (by decide +kernel) (by decide +kernel) version

/-- Acceptance of a stock table is a question about the listed functions. -/
theorem accepts_stockSymbols (base : Addr) (fns : List Fn) (v : LuaVersion)
    (hv : detectVersion (stockSymbols base fns) = some v)
    (h : ∀ s ∈ bindings v.version, s.required = true → (∀ g ∈ s.guard, g ∉ fns) → s.slot ∈ fns) :
    accepts (stockSymbols base fns) = true := by
  refine (accepts_iff _).mpr ⟨v, hv, ?_⟩
  rw [firstMissing, List.find?_eq_none]
  intro s hs hm
  obtain ⟨hs, hg⟩ := List.mem_filter.mp hs
  simp only [missing, Bool.and_eq_true] at hm
  have hn := names_of_required v.version s hs hm.1
  have hslot : s.slot ∈ fns := by
    refine h s hs hm.1 fun g hgs hgf => ?_
    rw [Option.mem_def.mp hgs] at hg
    simp [guardNames, firstOf, getLuaFn_stockSymbols, hgf] at hg
  simp [hn, firstOf, getLuaFn_stockSymbols, hslot] at hm

/-- A pointer after a stock table was accepted. -/
theorem ptr_stockSymbols {base : Addr} {fns : List Fn} {f : Fn}
    (ha : accepts (stockSymbols base fns) = true) (hf : f ∈ fns) (hn : bindNames f = [f.name])
    (hs : spared (stockSymbols base fns) f = false) (p : Process) :
    (odbkLuaFinishLoad (p.withSymbols (stockSymbols base fns))).1.ptr f =
      some (.image (f.stockAddr base)) := by
  rw [ptr_of_accepts (p.withSymbols (stockSymbols base fns)) ha, symbols_withSymbols, hs,
    if_neg Bool.false_ne_true, offer_of_bindNames hn, getLuaFn_stockSymbols, if_pos hf]

/-- No two names of a table have one address. -/
def DistinctAddresses (symbols : Symbols) : Prop :=
  ∀ n n' a, symbols.find? n = some a → symbols.find? n' = some a → n = n'

theorem distinct_stockSymbols (base : Addr) (fns : List Fn) :
    DistinctAddresses (stockSymbols base fns) := by
  have hf : ∀ n a, (stockSymbols base fns).find? n = some a →
      ∃ f : Fn, n = f.name ∧ a = f.stockAddr base := by
    intro n a h
    rw [stockSymbols, EmplaceMap.find?_emplaceAll, EmplaceMap.find?_empty, Option.none_or] at h
    exact fn_of_lookup_stockTable h
  intro n n' a h h'
  obtain ⟨f, rfl, ha⟩ := hf n a h
  obtain ⟨g, rfl, ha'⟩ := hf n' a h'
  rw [stockAddr_injective (ha.symm.trans ha')]

/-- The functions of a stock Lua 5.1 that the loader knows. -/
def lua51Fns : List Fn :=
  [.luaNewstate, .luaNewthread, .luaClose, .luaError, .luaopenBase, .luaSethook, .luaGetinfo,
    .luaRemove, .luaSettable, .luaGettable, .luaRawget, .luaRawgeti, .luaRawset, .luaRawseti,
    .luaPushstring, .luaPushlstring, .luaType, .luaTypename, .luaSettop, .luaGettop,
    .luaGetlocal, .luaSetlocal, .luaGetstack, .luaInsert, .luaPushnil, .luaPushvalue,
    .luaPushcclosure, .luaPushnumber, .luaCheckstack, .luaGethookmask, .luaPushboolean,
    .luaConcat, .luaLWhere, .luaPushinteger, .luaTointeger, .luaTolstring, .luaTonumber,
    .luaToboolean, .luaTocfunction, .luaTouserdata, .luaCall, .luaPcall, .luaCreatetable,
    .luaLoad, .luaNext, .luaRawequal, .luaGetmetatable, .luaSetmetatable, .luaLRef, .luaLUnref,
    .luaLNewmetatable, .luaGetupvalue, .luaSetupvalue, .luaLOpenlibs, .luaGetfenv, .luaSetfenv,
    .luaCpcall, .luaNewuserdata, .luaLNewstate, .luaLRegister, .luaIOpenlib, .luaLLoadbuffer,
    .luaLLoadfile, .luaPushthread]

/-- The functions of a stock Lua 5.2 that the loader knows. -/
def lua52Fns : List Fn :=
  [.luaNewstate, .luaNewthread, .luaClose, .luaError, .luaopenBase, .luaAbsindex, .luaSethook,
    .luaGetinfo, .luaRemove, .luaSettable, .luaGettable, .luaRawget, .luaRawgeti, .luaRawset,
    .luaRawseti, .luaPushstring, .luaPushlstring, .luaType, .luaTypename, .luaSettop, .luaGettop,
    .luaGetlocal, .luaSetlocal, .luaGetstack, .luaInsert, .luaPushnil, .luaPushvalue,
    .luaPushcclosure, .luaPushnumber, .luaCheckstack, .luaGethookmask, .luaPushboolean,
    .luaConcat, .luaLWhere, .luaGetglobal, .luaSetglobal, .luaPushinteger, .luaTointegerx,
    .luaTolstring, .luaTonumberx, .luaToboolean, .luaTocfunction, .luaTouserdata, .luaCallk,
    .luaPcallk, .luaCreatetable, .luaLoad, .luaNext, .luaGetmetatable, .luaSetmetatable,
    .luaRawequal, .luaLRef, .luaLUnref, .luaLNewmetatable, .luaGetupvalue, .luaSetupvalue,
    .luaLOpenlibs, .luaNewuserdata, .luaLNewstate, .luaLLoadbufferx, .luaLLoadfilex,
    .luaPushthread]

/-- The functions of a stock Lua 5.3 that the loader knows. -/
def lua53Fns : List Fn :=
  [.luaRotate, .luaIsinteger] ++ lua52Fns.filter fun f => f ≠ .luaInsert ∧ f ≠ .luaRemove

theorem detectVersion_lua51 (base : Addr) :
    detectVersion (stockSymbols base lua51Fns) =
      some ⟨510, -10000, -10002, some luaHookTailRet⟩ := by
  rw [detectVersion_stockSymbols]
  decide

theorem accepts_lua51 (base : Addr) : accepts (stockSymbols base lua51Fns) = true :=
  accepts_stockSymbols base lua51Fns _ (detectVersion_lua51 base) (by decide +kernel)

theorem detectVersion_lua52 (base : Addr) :
    detectVersion (stockSymbols base lua52Fns) =
      some ⟨520, -1001000, 2, some luaHookTailCall⟩ := by
  rw [detectVersion_stockSymbols]
  decide

theorem accepts_lua52 (base : Addr) : accepts (stockSymbols base lua52Fns) = true :=
  accepts_stockSymbols base lua52Fns _ (detectVersion_lua52 base) (by decide +kernel)

theorem detectVersion_lua53 (base : Addr) :
    detectVersion (stockSymbols base lua53Fns) =
      some ⟨530, -1001000, 2, some luaHookTailCall⟩ := by
  rw [detectVersion_stockSymbols]
  decide

theorem accepts_lua53 (base : Addr) : accepts (stockSymbols base lua53Fns) = true :=
  accepts_stockSymbols base lua53Fns _ (detectVersion_lua53 base) (by decide +kernel)

/-- The first functions of Lua 5.2, without `lua_close`. -/
def truncatedFns : List Fn := [.luaNewstate, .luaNewthread, .luaCallk]

theorem detectVersion_truncated (base : Addr) :
    detectVersion (stockSymbols base truncatedFns) =
      some ⟨520, -1001000, 2, some luaHookTailCall⟩ := by
  rw [detectVersion_stockSymbols]
  decide

theorem executed_truncated :
    executed (stockSymbols 1048576 truncatedFns) ⟨520, -1001000, 2, some luaHookTailCall⟩ =
      [getFunctionOptional .luaOpen, getFunctionUnless .luaOpen .luaNewstate,
        getFunction .luaNewthread, getFunction .luaClose] := by
  decide +kernel

theorem accepts_truncated : accepts (stockSymbols 1048576 truncatedFns) = false := by
  decide +kernel

end Odbk
