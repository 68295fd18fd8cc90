import Odbk.FinishLoad

/-!
# Acceptance of larger tables

Further names can change the version that is detected and the alternatives that are bound.
Proved here:

* `detectVersion_mono`: a larger table is that of a Lua VM too, and requires no more;
* `acceptance_monotone`: a larger table than an accepted one is accepted.
-/

namespace Odbk

open BindScript

/-- Every name of the one table has an address in the other that is not null. -/
def OffersAll (S S' : Symbols) : Prop :=
  ∀ name a, S.find? name = some a → ∃ a', S'.find? name = some a' ∧ a' ≠ 0

section Larger

variable {S S' : Symbols}

theorem OffersAll.contains (h : OffersAll S S') {name : String} (hc : S.contains name = true) :
    S'.contains name = true := by
  obtain ⟨a, ha⟩ := Option.isSome_iff_exists.mp hc
  obtain ⟨a', ha', _⟩ := h name a ha
  rw [EmplaceMap.contains, ha']
  rfl

theorem OffersAll.getLuaFn_none (h : OffersAll S S') (name : String)
    (hn : getLuaFn S' name = none) : getLuaFn S name = none := by
  cases hc : getLuaFn S name with
  | none => rfl
  | some c =>
    obtain ⟨a, rfl⟩ := image_of_getLuaFn hc
    obtain ⟨a', ha', hne⟩ := h name a (find_of_getLuaFn hc)
    simp only [getLuaFn, ha', if_neg hne] at hn
    cases hn

/-- A table without `lua_open` is of version 5.1 or later. -/
theorem version_of_not_open {v : LuaVersion} (hv : detectVersion S = some v)
    (ho : S.contains "lua_open" = false) : 510 ≤ v.version := by
  rw [detectVersion, ho, if_neg Bool.false_ne_true] at hv
  split at hv
  · cases hv
    decide
  · split at hv
    · cases hv
      decide
    · split at hv
      · cases hv
        decide
      · cases hv

/-- A table is that of a Lua VM if it has one of four names. -/
theorem detectVersion_isSome (S : Symbols) :
    (detectVersion S).isSome = true ↔
      ∃ name ∈ ["lua_open", "lua_rotate", "lua_callk", "lua_gettop"], S.contains name = true := by
  simp only [detectVersion, List.exists_mem_cons_iff, List.not_mem_nil, false_and, exists_false,
    or_false]
  cases S.contains "lua_open" <;> cases S.contains "lua_rotate" <;>
    cases S.contains "lua_callk" <;> cases S.contains "lua_gettop" <;> simp

/-- **Versions.** A larger table has one, and it is before 5.1 if that of the smaller
table is. -/
theorem detectVersion_mono (h : OffersAll S S') {v : LuaVersion} (hv : detectVersion S = some v) :
    ∃ v', detectVersion S' = some v' ∧ (510 ≤ v'.version → 510 ≤ v.version) := by
  obtain ⟨name, hname, hc⟩ := (detectVersion_isSome S).mp (hv ▸ rfl)
  obtain ⟨v', hv'⟩ := Option.isSome_iff_exists.mp
    ((detectVersion_isSome S').mpr ⟨name, hname, h.contains hc⟩)
  refine ⟨v', hv', fun hle => ?_⟩
  cases ho : S.contains "lua_open" with
  | false => exact version_of_not_open hv ho
  | true =>
    rw [detectVersion, if_pos (h.contains ho), Option.some.injEq] at hv'
    rw [← hv'] at hle
    exact absurd hle (by decide)

end Larger

/-- Only the step for `lua_pushthread` depends on the version. -/
theorem bindings_eq (version : Int) :
    bindings version =
      (bindings 0).take 77 ++
        (if version ≥ 510 then getFunction .luaPushthread
          else getFunctionOptional .luaPushthread) ::
        (bindings 0).drop 78 := rfl

/-- Before 5.1 nothing is required that is not required of a later version. -/
theorem required_bindings {version version' : Int} (h : 510 ≤ version' → 510 ≤ version) :
    ∀ s ∈ bindings version', s.required = true → s ∈ bindings version := by
  intro s hs hr
  rw [bindings_eq version', List.mem_append, List.mem_cons] at hs
  rw [bindings_eq version, List.mem_append, List.mem_cons]
  rcases hs with hfront | hthread | hback
  · exact Or.inl hfront
  · -- an optional step is not required, so both versions are from 5.1 on
    by_cases hv' : version' ≥ 510
    · rw [if_pos hv'] at hthread
      rw [if_pos (h hv')]
      exact Or.inr (Or.inl hthread)
    · rw [if_neg hv'] at hthread
      subst hthread
      cases hr
  · exact Or.inr (Or.inr hback)

/-- **Acceptance.** If a new process accepts a table, a new process accepts every table
with all of its names. -/
theorem acceptance_monotone (dbghelp dbghelp' : DbgFn → Bool) {S S' : Symbols}
    (h : OffersAll S S')
    (hS : (odbkLuaFinishLoad ((Process.fresh dbghelp).withSymbols S)).2 = true) :
    (odbkLuaFinishLoad ((Process.fresh dbghelp').withSymbols S')).2 = true := by
  rw [odbkLuaFinishLoad_snd, symbols_withSymbols, accepts_iff] at hS ⊢
  obtain ⟨v, hv, hm⟩ := hS
  obtain ⟨v', hv', hversion⟩ := detectVersion_mono h hv
  exact ⟨v', hv', find?_missing_mono h.getLuaFn_none (required_bindings hversion) hm⟩

/-- A stock Lua 5.1 at another address, with functions of 5.2 and 5.3 besides. -/
theorem acceptance_lua51_and_more :
    OffersAll (stockSymbols 4096 lua51Fns)
        (stockSymbols 8192 (.luaCallk :: .luaRotate :: lua51Fns)) ∧
      (odbkLuaFinishLoad ((Process.fresh fun _ => false).withSymbols
        (stockSymbols 8192 (.luaCallk :: .luaRotate :: lua51Fns)))).2 = true := by
  have hoffers : OffersAll (stockSymbols 4096 lua51Fns)
      (stockSymbols 8192 (.luaCallk :: .luaRotate :: lua51Fns)) := by
    intro name a ha
    rw [stockSymbols, EmplaceMap.find?_emplaceAll, EmplaceMap.find?_empty, Option.none_or] at ha
    obtain ⟨f, rfl, _⟩ := fn_of_lookup_stockTable ha
    rw [lookup_stockTable] at ha
    have hf : f ∈ lua51Fns := by
      by_contra hf
      rw [if_neg hf] at ha
      cases ha
    have hmem : f ∈ .luaCallk :: .luaRotate :: lua51Fns :=
      List.mem_cons_of_mem _ (List.mem_cons_of_mem _ hf)
    refine ⟨f.stockAddr 8192, ?_, by simp [Fn.stockAddr]⟩
    rw [find?_stockSymbols, if_pos hmem]
  refine ⟨hoffers, acceptance_monotone (fun _ => false) (fun _ => false) hoffers ?_⟩
  rw [odbkLuaFinishLoad_snd, symbols_withSymbols]
  exact accepts_lua51 4096

end Odbk
