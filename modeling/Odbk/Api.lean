import Odbk.Lib.EmplaceMap

/-!
# The Lua API as the loader knows it

`Fn` lists the function pointers `__lua_*`, `__luaL_*`, `__luaI_*` that
`odbk_lload.cpp` defines; a pointer `__f` and the name `"f"` it is looked up
under are pasted from one macro argument, so `Fn.name` gives both. The pointers
`__lua_load_510` and `__lua_pushlightuserdata` are left out: nothing assigns or
reads them.

* `Fn.name_injective`: different pointers have different names;
* `stockTable`: export tables that give each listed function an address of its
  own (`lookup_stockTable`, `stockAddr_injective`), for concrete runs.
-/

namespace Odbk

/-- An address of a loaded image (`uintptr_t`); `0` is the null pointer. -/
abbrev Addr := Nat

/-- `std::unordered_map<std::string, uintptr_t>`. -/
abbrev Symbols := EmplaceMap String Addr

/-- The API function pointers. -/
inductive Fn where
  | luaOpen | luaNewstate | luaopenBase | luaClose | luaNewthread | luaError | luaAbsindex
  | luaGettop | luaSethook | luaGethookmask | luaGetinfo | luaRemove | luaRotate | luaSettable
  | luaGettable | luaSetglobal | luaGetglobal | luaRawget | luaRawgeti | luaRawset | luaRawseti
  | luaPushstring | luaPushlstring | luaType | luaTypename | luaSettop | luaGetlocal
  | luaSetlocal | luaGetstack | luaInsert | luaPushnil | luaPushvalue | luaPushinteger
  | luaPushnumber | luaPushboolean | luaPushcclosure | luaTostring | luaTolstring | luaToboolean
  | luaIsinteger | luaTointeger | luaTointegerx | luaTocfunction | luaTonumber | luaTonumberx
  | luaTouserdata | luaLoad | luaLoadx | luaCall | luaCallk | luaPcall | luaPcallk | luaNewtable
  | luaCreatetable | luaNext | luaRawequal | luaGetmetatable | luaSetmetatable | luaLRef
  | luaLUnref | luaLNewmetatable | luaLLoadbuffer | luaLLoadbufferx | luaLLoadfile
  | luaLLoadfilex | luaLRegister | luaLOpenlibs | luaIOpenlib | luaTowstring | luaIswstring
  | luaGetupvalue | luaSetupvalue | luaGetfenv | luaSetfenv | luaCpcall | luaPushthread
  | luaNewuserdata | luaLNewstate | luaCheckstack | luaConcat | luaLWhere
  deriving DecidableEq, Repr

namespace Fn

/-- The name pasted by the `GET_FUNCTION` macros. -/
def name : Fn → String
  | .luaOpen => "lua_open"
  | .luaNewstate => "lua_newstate"
  | .luaopenBase => "luaopen_base"
  | .luaClose => "lua_close"
  | .luaNewthread => "lua_newthread"
  | .luaError => "lua_error"
  | .luaAbsindex => "lua_absindex"
  | .luaGettop => "lua_gettop"
  | .luaSethook => "lua_sethook"
  | .luaGethookmask => "lua_gethookmask"
  | .luaGetinfo => "lua_getinfo"
  | .luaRemove => "lua_remove"
  | .luaRotate => "lua_rotate"
  | .luaSettable => "lua_settable"
  | .luaGettable => "lua_gettable"
  | .luaSetglobal => "lua_setglobal"
  | .luaGetglobal => "lua_getglobal"
  | .luaRawget => "lua_rawget"
  | .luaRawgeti => "lua_rawgeti"
  | .luaRawset => "lua_rawset"
  | .luaRawseti => "lua_rawseti"
  | .luaPushstring => "lua_pushstring"
  | .luaPushlstring => "lua_pushlstring"
  | .luaType => "lua_type"
  | .luaTypename => "lua_typename"
  | .luaSettop => "lua_settop"
  | .luaGetlocal => "lua_getlocal"
  | .luaSetlocal => "lua_setlocal"
  | .luaGetstack => "lua_getstack"
  | .luaInsert => "lua_insert"
  | .luaPushnil => "lua_pushnil"
  | .luaPushvalue => "lua_pushvalue"
  | .luaPushinteger => "lua_pushinteger"
  | .luaPushnumber => "lua_pushnumber"
  | .luaPushboolean => "lua_pushboolean"
  | .luaPushcclosure => "lua_pushcclosure"
  | .luaTostring => "lua_tostring"
  | .luaTolstring => "lua_tolstring"
  | .luaToboolean => "lua_toboolean"
  | .luaIsinteger => "lua_isinteger"
  | .luaTointeger => "lua_tointeger"
  | .luaTointegerx => "lua_tointegerx"
  | .luaTocfunction => "lua_tocfunction"
  | .luaTonumber => "lua_tonumber"
  | .luaTonumberx => "lua_tonumberx"
  | .luaTouserdata => "lua_touserdata"
  | .luaLoad => "lua_load"
  | .luaLoadx => "lua_loadx"
  | .luaCall => "lua_call"
  | .luaCallk => "lua_callk"
  | .luaPcall => "lua_pcall"
  | .luaPcallk => "lua_pcallk"
  | .luaNewtable => "lua_newtable"
  | .luaCreatetable => "lua_createtable"
  | .luaNext => "lua_next"
  | .luaRawequal => "lua_rawequal"
  | .luaGetmetatable => "lua_getmetatable"
  | .luaSetmetatable => "lua_setmetatable"
  | .luaLRef => "luaL_ref"
  | .luaLUnref => "luaL_unref"
  | .luaLNewmetatable => "luaL_newmetatable"
  | .luaLLoadbuffer => "luaL_loadbuffer"
  | .luaLLoadbufferx => "luaL_loadbufferx"
  | .luaLLoadfile => "luaL_loadfile"
  | .luaLLoadfilex => "luaL_loadfilex"
  | .luaLRegister => "luaL_register"
  | .luaLOpenlibs => "luaL_openlibs"
  | .luaIOpenlib => "luaI_openlib"
  | .luaTowstring => "lua_towstring"
  | .luaIswstring => "lua_iswstring"
  | .luaGetupvalue => "lua_getupvalue"
  | .luaSetupvalue => "lua_setupvalue"
  | .luaGetfenv => "lua_getfenv"
  | .luaSetfenv => "lua_setfenv"
  | .luaCpcall => "lua_cpcall"
  | .luaPushthread => "lua_pushthread"
  | .luaNewuserdata => "lua_newuserdata"
  | .luaLNewstate => "luaL_newstate"
  | .luaCheckstack => "lua_checkstack"
  | .luaConcat => "lua_concat"
  | .luaLWhere => "luaL_where"

def all : List Fn :=
  [.luaOpen, .luaNewstate, .luaopenBase, .luaClose, .luaNewthread, .luaError, .luaAbsindex,
    .luaGettop, .luaSethook, .luaGethookmask, .luaGetinfo, .luaRemove, .luaRotate, .luaSettable,
    .luaGettable, .luaSetglobal, .luaGetglobal, .luaRawget, .luaRawgeti, .luaRawset, .luaRawseti,
    .luaPushstring, .luaPushlstring, .luaType, .luaTypename, .luaSettop, .luaGetlocal,
    .luaSetlocal, .luaGetstack, .luaInsert, .luaPushnil, .luaPushvalue, .luaPushinteger,
    .luaPushnumber, .luaPushboolean, .luaPushcclosure, .luaTostring, .luaTolstring,
    .luaToboolean, .luaIsinteger, .luaTointeger, .luaTointegerx, .luaTocfunction, .luaTonumber,
    .luaTonumberx, .luaTouserdata, .luaLoad, .luaLoadx, .luaCall, .luaCallk, .luaPcall,
    .luaPcallk, .luaNewtable, .luaCreatetable, .luaNext, .luaRawequal, .luaGetmetatable,
    .luaSetmetatable, .luaLRef, .luaLUnref, .luaLNewmetatable, .luaLLoadbuffer, .luaLLoadbufferx,
    .luaLLoadfile, .luaLLoadfilex, .luaLRegister, .luaLOpenlibs, .luaIOpenlib, .luaTowstring,
    .luaIswstring, .luaGetupvalue, .luaSetupvalue, .luaGetfenv, .luaSetfenv, .luaCpcall,
    .luaPushthread, .luaNewuserdata, .luaLNewstate, .luaCheckstack, .luaConcat, .luaLWhere]

theorem getElem?_ctorIdx (f : Fn) : all[f.ctorIdx]? = some f := by cases f <;> rfl

theorem mem_all (f : Fn) : f ∈ all := List.mem_of_getElem? (getElem?_ctorIdx f)

set_option maxRecDepth 8000 in
theorem nodup_names : (all.map name).Nodup := by decide +kernel

theorem name_injective {f g : Fn} (h : f.name = g.name) : f = g :=
  List.inj_on_of_nodup_map nodup_names (mem_all f) (mem_all g) h

end Fn

/-! ## Export tables with one address for each function -/

/-- An address above `base` for each function, all different and none null. -/
def Fn.stockAddr (base : Addr) (f : Fn) : Addr := base + 16 * (f.ctorIdx + 1)

/-- The export table that offers exactly the listed functions. -/
def stockTable (base : Addr) (fns : List Fn) : List (String × Addr) :=
  fns.map fun f => (f.name, f.stockAddr base)

theorem lookup_stockTable (base : Addr) (fns : List Fn) (f : Fn) :
    (stockTable base fns).lookup f.name = if f ∈ fns then some (f.stockAddr base) else none := by
  induction fns with
  | nil => rfl
  | cons g fns ih =>
    rw [stockTable, List.map_cons]
    by_cases h : f = g
    · subst h
      simp [List.lookup_cons_self]
    · rw [EmplaceMap.lookup_cons_ne _ _ fun e => h (Fn.name_injective e), ← stockTable, ih]
      simp [h]

/-- Every entry of such a table is that of one of its functions. -/
theorem fn_of_lookup_stockTable {base : Addr} {fns : List Fn} {n : String} {a : Addr}
    (h : (stockTable base fns).lookup n = some a) :
    ∃ f : Fn, n = f.name ∧ a = f.stockAddr base := by
  have hm : n ∈ (stockTable base fns).map Prod.fst := by
    by_contra hn
    rw [(EmplaceMap.lookup_eq_none_iff_not_mem _ _).mpr hn] at h
    cases h
  simp only [stockTable, List.map_map, List.mem_map, Function.comp_apply] at hm
  obtain ⟨f, hf, rfl⟩ := hm
  rw [lookup_stockTable, if_pos hf] at h
  exact ⟨f, rfl, (Option.some.inj h).symm⟩

theorem stockAddr_injective {base : Addr} {f g : Fn} (h : f.stockAddr base = g.stockAddr base) :
    f = g := by
  have hi : f.ctorIdx = g.ctorIdx := by
    have h : 16 * (f.ctorIdx + 1) = 16 * (g.ctorIdx + 1) := Nat.add_left_cancel h
    omega
  have he : some f = some g := by
    rw [← Fn.getElem?_ctorIdx f, ← Fn.getElem?_ctorIdx g, hi]
  exact Option.some.inj he

end Odbk
