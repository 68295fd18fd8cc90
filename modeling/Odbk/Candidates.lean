import Odbk.Load

/-!
# Searching the specified modules

With a null handle a load takes the exports of the first specified module that is
loaded, whatever they are, and looks at no other. Proved here:

* `load_specifying_iff`: with nothing loaded before, such a load succeeds exactly
  when the exports of that one module are accepted;
* `candidate_search_iff`: when an acceptable candidate is never missed.
-/

namespace Odbk

/-- A process that loaded nothing yet, with its specified modules set; for `[]` it is
a new one. -/
def Process.specifying (dbghelp : DbgFn → Bool) (names : List String) : Process :=
  { Process.fresh dbghelp with ctx := { OdbkLuaContext.new with specifiedModules := names } }

/-- The modules such a process looks for. -/
def searched (names : List String) : List String := if names = [] then builtinModules else names

theorem specifiedModules_specifying (dbghelp : DbgFn → Bool) (names : List String) :
    (Process.specifying dbghelp names).useBuiltin.ctx.specifiedModules = searched names := by
  cases names <;> rfl

theorem tryExports_specifying (W : World) (dbghelp : DbgFn → Bool) (names : List String) :
    (tryExports W (Process.specifying dbghelp names).useBuiltin).ctx.symbols =
      match W.firstLoaded (searched names) with
      | some h => moduleTable W h
      | none => .empty := by
  have hs : (Process.specifying dbghelp names).useBuiltin.ctx.symbols = .empty := by
    rw [useBuiltin_frame]
    rfl
  rw [tryExports, specifiedModules_specifying]
  cases W.firstLoaded (searched names) with
  | none => exact hs
  | some h =>
    rw [symbols_withSymbols, hs]
    rfl

/-- **One candidate decides.** -/
theorem load_specifying_iff (W : World) (core : OdbkCore) (dbghelp : DbgFn → Bool)
    (names : List String) :
    (∃ q, odbkLoadLuaInternal W core nullptr (Process.specifying dbghelp names) =
        .ok (q, true)) ↔
      ∃ h, W.firstLoaded (searched names) = some h ∧ accepts (moduleTable W h) = true := by
  have ht := tryExports_specifying W dbghelp names
  constructor
  · rintro ⟨q, hq⟩
    simp only [odbkLoadLuaInternal, if_true] at hq
    cases hl : loadFromProcess W core (Process.specifying dbghelp names) with
    | error e =>
      rw [hl] at hq
      cases hq
    | ok x =>
      rw [hl, Except.ok.injEq] at hq
      have hacc : accepts x.ctx.symbols = true := by
        rw [← odbkLuaFinishLoad_snd, hq]
      rw [loadFromProcess_symbols rfl hl, ht] at hacc
      cases hf : W.firstLoaded (searched names) with
      | none =>
        rw [hf, accepts_of_isEmpty rfl] at hacc
        cases hacc
      | some h =>
        rw [hf] at hacc
        exact ⟨h, rfl, hacc⟩
  · rintro ⟨h, hf, hacc⟩
    rw [hf] at ht
    have hne : (tryExports W (Process.specifying dbghelp names).useBuiltin).ctx.symbols.isEmpty =
        false := by
      rw [ht]
      cases he : (moduleTable W h).isEmpty with
      | false => rfl
      | true =>
        rw [accepts_of_isEmpty he] at hacc
        cases hacc
    simp only [odbkLoadLuaInternal, if_true, loadFromProcess_of_symbols hne]
    refine ⟨_, congrArg Except.ok (Prod.ext rfl ?_)⟩
    rw [odbkLuaFinishLoad_snd, ht]
    exact hacc

/-- Whenever some specified module is loaded whose exports alone are accepted, a load
with a null handle succeeds. -/
def SearchComplete (W : World) (core : OdbkCore) (dbghelp : DbgFn → Bool)
    (names : List String) : Prop :=
  (∃ name ∈ searched names, W.getModuleHandle name ≠ nullptr ∧
      accepts (moduleTable W (W.getModuleHandle name)) = true) →
    ∃ q, odbkLoadLuaInternal W core nullptr (Process.specifying dbghelp names) = .ok (q, true)

/-- If the exports of the first module loaded are not accepted, those of no other are. -/
def FirstDecides (W : World) (names : List String) : Prop :=
  ∀ h, W.firstLoaded (searched names) = some h → accepts (moduleTable W h) = false →
    ∀ name ∈ searched names, W.getModuleHandle name ≠ nullptr →
      accepts (moduleTable W (W.getModuleHandle name)) = false

theorem firstLoaded_of_mem {W : World} {names : List String} {name : String} (hm : name ∈ names)
    (hn : W.getModuleHandle name ≠ nullptr) : ∃ h, W.firstLoaded names = some h := by
  refine Option.isSome_iff_exists.mp (List.find?_isSome.mpr ?_)
  exact ⟨_, List.mem_map_of_mem hm, by simpa using hn⟩

/-- **Candidates.** The search is complete exactly when the first module loaded
decides. -/
theorem candidate_search_iff (W : World) (core : OdbkCore) (dbghelp : DbgFn → Bool)
    (names : List String) :
    SearchComplete W core dbghelp names ↔ FirstDecides W names := by
  rw [SearchComplete, load_specifying_iff]
  constructor
  · intro hc h hf hrej name hm hn
    cases ha : accepts (moduleTable W (W.getModuleHandle name)) with
    | false => rfl
    | true =>
      obtain ⟨h', hf', hacc⟩ := hc ⟨name, hm, hn, ha⟩
      rw [hf, Option.some.injEq] at hf'
      rw [← hf', hrej] at hacc
      cases hacc
  · rintro hd ⟨name, hm, hn, ha⟩
    obtain ⟨h, hf⟩ := firstLoaded_of_mem hm hn
    refine ⟨h, hf, ?_⟩
    cases hrej : accepts (moduleTable W h) with
    | true => rfl
    | false =>
      rw [hd h hf hrej name hm hn] at ha
      cases ha

/-- `lua51.dll` is loaded but is no Lua, and `lua52.dll` is a stock Lua 5.1. -/
def decoyWorld : World :=
  { World.snapshotOf [1, 2] with
    getModuleHandle := fun name =>
      if name = "lua51.dll" then 1 else if name = "lua52.dll" then 2 else nullptr
    exports := fun h => if h = 2 then stockTable 4096 lua51Fns else [("not_lua", 4096)]
    getModuleHandle_mem := by
      intro name h
      by_cases h1 : name = "lua51.dll"
      · simp [h1, World.snapshotOf]
      · by_cases h2 : name = "lua52.dll"
        · simp [h2, World.snapshotOf]
        · simp [h1, h2] at h }

/-- The search stops at the module that is no Lua. -/
theorem decoy_stops_search :
    ¬ SearchComplete decoyWorld ⟨7, 0⟩ (fun _ => true) [] := by
  intro hc
  have h2 : moduleTable decoyWorld 2 = stockSymbols 4096 lua51Fns := rfl
  have hacc : ∃ name ∈ searched [], decoyWorld.getModuleHandle name ≠ nullptr ∧
      accepts (moduleTable decoyWorld (decoyWorld.getModuleHandle name)) = true :=
    ⟨"lua52.dll", by decide, by decide, h2 ▸ accepts_lua51 4096⟩
  obtain ⟨h, hf, ha⟩ := (load_specifying_iff decoyWorld ⟨7, 0⟩ _ []).mp (hc hacc)
  have h1 : decoyWorld.firstLoaded (searched []) = some 1 := by decide
  rw [h1, Option.some.injEq] at hf
  subst hf
  have hrej : accepts (moduleTable decoyWorld 1) = false := by decide
  rw [hrej] at ha
  cases ha

end Odbk
