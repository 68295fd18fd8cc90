import Odbk.Reinstall
import Odbk.Contexts

/-!
# One install seen from the program and from the backend

A module is installed in a new process. Proved here:

* `body_exact`: a detour hands on the parameters of its function, a context as it reads it;
* `install_transparent_iff`: when a hooked function gets its own parameters and returns
  its own result;
* `untouched_iff`: which code no call of the program is diverted from;
* `api_calls_direct_iff`: which API pointers the backend calls without coming back into
  its detours.
-/

namespace Odbk

open HookRegistry ParamSlots

/-! ## Parameters handed on -/

/-- The parameters of the function that a detour stands in for. `__lua_load` is bound to
`lua_loadx`, which takes a mode, under either of its detours. -/
def Detour.prototype (version : Int) : Detour → List CType
  | .luaOpenHook => []
  | .luaNewstateHook => [.word, .word]
  | .luaLNewstateHook => []
  | .luaopenBaseHook => [.word]
  | .luaCloseHook => [.word]
  | .luaNewthreadHook => [.word]
  | .luaPcallHook => [.word, .int, .int, .int]
  | .luaPcallkHook => luaPcallkPrototype version
  | .luaCallHook => [.word, .int, .int]
  | .luaCallkHook => luaCallkPrototype version
  | .luaLNewmetatableHook => [.word, .word]
  | .luaSethookHook => [.word, .word, .int, .int]
  | .luaLLoadbufferxHook => [.word, .word, .word, .word, .word]
  | .luaLLoadbufferHook => [.word, .word, .word, .word]
  | .luaLLoadfilexHook => [.word, .word, .word]
  | .luaLLoadfileHook => [.word, .word]
  | .luaLoadHook => [.word, .word, .word, .word, .word]
  | .luaLoad510Hook => [.word, .word, .word, .word, .word]
  | .luaLOpenlibsHook => [.word]
  | .luaIOpenlibHook => [.word, .word, .word, .int]

/-- What a detour hands on of the parameters of its function: a context as the `int` that
it reads, and no mode under Lua 5.1. -/
def Detour.handed (d : Detour) (ps : List Val) : List Val :=
  match d with
  | .luaCallkHook => ps.modify 3 .int
  | .luaPcallkHook => ps.modify 4 .ptrdiff
  | .luaLoad510Hook => ps.take 4
  | _ => ps

theorem length_params (n : Nat) (args : List Val) : (params n args).length = n := by
  simp [params]

theorem take_params (n : Nat) (args : List Val) (more : List Val) :
    (params n args ++ more).take n = params n args :=
  List.take_left' (length_params n args)

theorem load_sites (version : Int) :
    ((.luaLoad, .luaLoadHook) ∈ hookSites version → 510 < version) ∧
      ((.luaLoad, .luaLoad510Hook) ∈ hookSites version → version ≤ 510) := by
  have h : ∀ c : Bool, (.luaLoad, .luaLoadHook) ∉ hookSitesOf false c ∧
      (.luaLoad, .luaLoad510Hook) ∉ hookSitesOf true c := by decide
  unfold hookSites
  by_cases hv : version > 510
  · refine ⟨fun _ => hv, fun hm => ?_⟩
    rw [decide_eq_true hv] at hm
    exact absurd hm (h _).2
  · refine ⟨fun hm => ?_, fun _ => by omega⟩
    rw [decide_eq_false hv] at hm
    exact absurd hm (h _).1

/-- **Parameters.** A detour in use whose pointer is set, and that prefers no other
function, calls through its pointer and hands on the parameters of its function. -/
theorem body_exact {p : Process} {d : Detour} (hsite : (d.fn, d) ∈ hookSites p.ctx.version)
    (hset : (p.ptr d.fn).isSome = true)
    (hx : ∀ x, d.forwardsTo = some x → (p.ptr x).isSome = false) (args : List Val) :
    d.body p args = some (d.fn, d.handed (params (d.prototype p.ctx.version).length args)) := by
  cases d with
  | luaLLoadbufferxHook => exact if_pos hset
  | luaLLoadfilexHook => exact if_pos hset
  | luaLLoadbufferHook =>
    have hnone : ¬ (p.ptr .luaLLoadbufferx).isSome = true := by simp [hx .luaLLoadbufferx rfl]
    refine (if_neg hnone).trans ((if_pos hset).trans ?_)
    exact congrArg (fun l => some (Fn.luaLLoadbuffer, l)) (take_params 4 args [.null])
  | luaLLoadfileHook =>
    have hnone : ¬ (p.ptr .luaLLoadfilex).isSome = true := by simp [hx .luaLLoadfilex rfl]
    refine (if_neg hnone).trans ((if_pos hset).trans ?_)
    exact congrArg (fun l => some (Fn.luaLLoadfile, l)) (take_params 2 args [.null])
  | luaLoadHook =>
    have hv := (load_sites p.ctx.version).1 hsite
    exact if_neg (by omega)
  | luaLoad510Hook =>
    have hv := (load_sites p.ctx.version).2 hsite
    refine (if_pos hv).trans ?_
    exact congrArg (fun l => some (Fn.luaLoad, l)) (take_params 4 args [.null])
  | _ => rfl

/-! ## Hooked functions -/

/-- The state after one install of an accepted module in a new process. -/
theorem installed_once {W : World} {core : OdbkCore} {dbghelp : DbgFn → Bool} {hModule : Handle}
    {T : Symbols} {p : Process} (hT : boundTable W hModule .empty = T) (ha : accepts T = true)
    (hi : odbkInstall W core hModule (Process.fresh dbghelp) = .ok p) :
    ∃ q v, p = odbkInstallLuaHooks q ∧ q.ctx.version = v.version ∧
      q.toPatched = afterLoad T (Process.fresh dbghelp) ∧ detectVersion T = some v ∧
      Installed T v (Process.fresh dbghelp) p := by
  obtain ⟨⟨q, b⟩, hl, rfl⟩ := odbkInstall_ok hi
  have hb := load_snd (configured_fresh dbghelp) hl
  rw [show (Process.fresh dbghelp).ctx.symbols = .empty from rfl, hT, ha] at hb
  subst hb
  obtain ⟨v, hv, hver, hq⟩ := accepted_load (configured_fresh dbghelp) hl
  rw [show (Process.fresh dbghelp).ctx.symbols = .empty from rfl, hT] at hv hq
  exact ⟨q, v, rfl, hver, hq, hv, installed_of_load (managed_fresh dbghelp)
    (configured_load (configured_fresh dbghelp) hl) hver hq⟩

/-- Where the function that a detour prefers is offered, its pointer leads to its own
address, which is another than that of the detour's function. -/
theorem preferred_elsewhere {T : Symbols} {v : LuaVersion} {dbghelp : DbgFn → Bool} {p : Process}
    (hi : Installed T v (Process.fresh dbghelp) p) (hd : DistinctAddresses T) {d : Detour}
    {a : Addr} (hown : offer T d.fn = some (.image a)) {x : Fn} (hx : d.forwardsTo = some x)
    {c : Code Addr} (hc : offer T x = some c) :
    d.callee p = some x ∧ p.leadsTo x ≠ some a := by
  obtain ⟨b, rfl⟩ := image_of_firstOf hc
  have hs := forwardsTo_not_spared (T := T) hx
  have hbound := rebound_fresh_of_offer dbghelp hs hc
  have hset : (p.ptr x).isSome = true := by rw [hi.isSome x, hbound, Option.isSome_some]
  have hne : b ≠ a := by
    rintro rfl
    obtain ⟨n, hn, hna⟩ := find_of_offer hc
    obtain ⟨n', hn', hna'⟩ := find_of_offer hown
    rw [hd n n' b hna hna'] at hn
    cases d <;> cases hx <;> simp_all [bindNames, Detour.fn, Fn.name]
  have hsite : ∃ d', (x, d') ∈ hookSites v.version := by
    cases d <;> cases hx
    · exact ⟨.luaLLoadbufferxHook, by simp [hookSites, hookSitesOf, hookSitesFront]⟩
    · exact ⟨.luaLLoadfilexHook, by simp [hookSites, hookSitesOf, hookSitesFront]⟩
  obtain ⟨d', hsite⟩ := hsite
  have hlead := leadsTo_fresh hi hd hsite hbound
  refine ⟨?_, fun h => ?_⟩
  · cases d <;> cases hx <;> exact if_pos hset
  · rw [hlead, Option.some.injEq] at h
    exact hne h

/-- A call runs the detour once and then the code `a`, which finds in its parameters what
it would find if it were called with these arguments, and whose result is returned. -/
def Transparent (t : Target) (p : Process) (a : Addr) (d : Detour) (args : List Val) : Prop :=
  ∃ args', CallsOnce p (.image a) args d a args' ∧
    t.found (d.prototype p.ctx.version) args' = t.found (d.prototype p.ctx.version) args

/-- What the detour does not hand on as it came reads alike: the context of a continuation
fits the detour's `int`, and the slot that `lua_load_510_hook` leaves alone holds the mode. -/
def ParametersKept (t : Target) (version : Int) (d : Detour) (args : List Val) : Prop :=
  match d with
  | .luaCallkHook => t.bits = .bits32 ∨ version < 530 ∨
      t.abi.passInt (t.slot (args.getD 3 .undefined))
        ((t.slot (args.getD 3 .undefined)).setWidth 32) = t.slot (args.getD 3 .undefined)
  | .luaPcallkHook => t.bits = .bits32 ∨ version < 530 ∨
      (-2 ^ 31 ≤ (t.slot (args.getD 4 .undefined)).toInt ∧
        (t.slot (args.getD 4 .undefined)).toInt < 2 ^ 31)
  | .luaLoad510Hook => t.stale = t.slot (args.getD 4 .undefined)
  | _ => True

theorem params_params (n : Nat) (args : List Val) : params n (params n args) = params n args := by
  refine List.map_congr_left fun i hi => ?_
  have hlt := List.mem_range.mp hi
  simp [params, hlt]

theorem found_params (t : Target) (types : List CType) (args : List Val) :
    t.found types (params types.length args) = t.found types args := by
  rw [Target.found, params_params, Target.found]

/-- What a detour hands on reads as what it got exactly when the parameters are kept. -/
theorem found_handed_iff (t : Target) (version : Int) (d : Detour) (args : List Val) :
    t.found (d.prototype version) (d.handed (params (d.prototype version).length args)) =
        t.found (d.prototype version) args ↔ ParametersKept t version d args := by
  cases d with
  | luaCallkHook =>
    rw [ParametersKept, ← callk_context_iff]
    simp [Target.found, Detour.handed, Detour.prototype, luaCallkPrototype, params,
      List.range_succ, List.modify]
  | luaPcallkHook =>
    rw [ParametersKept, ← pcallk_context_iff]
    simp [Target.found, Detour.handed, Detour.prototype, luaPcallkPrototype, params,
      List.range_succ, List.modify]
  | luaLoad510Hook =>
    simp [Target.found, Detour.handed, Detour.prototype, params, List.range_succ, CType.read,
      ParametersKept, Target.slot]
  | _ => exact iff_of_true (found_params t _ args) trivial

/-- **Transparency.** After one install of an accepted module with distinct addresses in a
new process, a call of a hooked function runs its detour once and then its own code, with
the function's own parameters and with its result returned, exactly when the detour
prefers no other function that the module has and what it does not hand on as it came
reads alike. -/
theorem install_transparent_iff {W : World} {core : OdbkCore} {dbghelp : DbgFn → Bool}
    {hModule : Handle} {T : Symbols} {p : Process} (hT : boundTable W hModule .empty = T)
    (ha : accepts T = true) (hd : DistinctAddresses T)
    (hi : odbkInstall W core hModule (Process.fresh dbghelp) = .ok p) {a : Addr} {d : Detour}
    (hhook : p.registry.detourOf (.image a) = some d) (t : Target) (args : List Val) :
    Transparent t p a d args ↔
      (∀ x, d.forwardsTo = some x → offer T x = none) ∧ ParametersKept t p.ctx.version d args := by
  obtain ⟨q, v, _, _, _, _, hinst⟩ := installed_once hT ha hi
  obtain ⟨hsite, hbound⟩ := hooked_fresh_cases hinst hhook
  have hlead := leadsTo_fresh hinst hd hsite hbound
  have hall := hinst.managed.enabled
  have hset : (p.ptr d.fn).isSome = true := by rw [hinst.isSome, hbound, Option.isSome_some]
  have hbody : (∀ x, d.forwardsTo = some x → offer T x = none) →
      d.body p args = some (d.fn, d.handed (params (d.prototype p.ctx.version).length args)) := by
    intro hx
    refine body_exact (hinst.version ▸ hsite) hset (fun x h => ?_) args
    rw [hinst.isSome, rebound, forwardsTo_not_spared h, if_neg Bool.false_ne_true, hx x h,
      Option.isSome_none]
  rw [← found_handed_iff]
  constructor
  · rintro ⟨args', hcalls, hfound⟩
    obtain ⟨f, hf, hl⟩ := (callsOnce_iff hall hhook).mp hcalls
    have hx : ∀ x, d.forwardsTo = some x → offer T x = none := by
      intro x hx
      cases hc : offer T x with
      | none => rfl
      | some c =>
        obtain ⟨hcallee, hne⟩ :=
          preferred_elsewhere hinst hd (offer_of_rebound_fresh hbound) hx hc
        have hfst := callee_eq p d args
        rw [hf, hcallee, Option.map_some, Option.some.injEq] at hfst
        exact absurd (hfst ▸ hl) hne
    rw [hbody hx, Option.some.injEq, Prod.mk.injEq] at hf
    obtain ⟨_, rfl⟩ := hf
    exact ⟨hx, hfound⟩
  · rintro ⟨hx, hfound⟩
    exact ⟨_, callsOnce hall hhook (hbody hx) hlead, hfound⟩

/-- `lua_pcallk` of a stock Lua 5.3 for 64 bits: a call with context 7, and one with
`2 ^ 32`. -/
theorem install_transparent_iff_lua53 :
    ∃ p, odbkInstall (World.exporting (stockTable 4096 lua53Fns)) ⟨0, 0⟩ 1
        (Process.fresh fun _ => true) = .ok p ∧
      p.registry.detourOf (.image (Fn.stockAddr 4096 .luaPcallk)) = some .luaPcallkHook ∧
      Transparent ⟨.bits64, Abi.zeroExtending, 0⟩ p (Fn.stockAddr 4096 .luaPcallk) .luaPcallkHook
        ([1, 0, 0, 0, 7, 2].map Val.word) ∧
      ¬Transparent ⟨.bits64, Abi.zeroExtending, 0⟩ p (Fn.stockAddr 4096 .luaPcallk) .luaPcallkHook
        ([1, 0, 0, 0, 4294967296, 2].map Val.word) := by
  have hi := install_stock 4096 lua53Fns ⟨0, 0⟩ fun _ => true
  have hhook := (hooked_stock (f := .luaPcallk) (d := .luaPcallkHook) (accepts_lua53 4096)
    (detectVersion_lua53 4096) rfl (by decide +kernel) (by decide)).1
  have hiff := install_transparent_iff (boundTable_stock 4096 lua53Fns) (accepts_lua53 4096)
    (distinct_stockSymbols 4096 lua53Fns) hi hhook ⟨.bits64, Abi.zeroExtending, 0⟩
  have hversion := (installed_fresh (fun _ => true) (accepts_lua53 4096)
    (detectVersion_lua53 4096)).version
  have hseven : (BitVec.ofNat Bits.bits64.width 7).toInt = 7 := rfl
  have hhigh : (BitVec.ofNat Bits.bits64.width 4294967296).toInt = 4294967296 := rfl
  refine ⟨_, hi, hhook, (hiff _).mpr ⟨fun x hx => ?_, ?_⟩, fun h => ?_⟩
  · cases hx
  · refine Or.inr (Or.inr ?_)
    show -2 ^ 31 ≤ (BitVec.ofNat Bits.bits64.width 7).toInt ∧
      (BitVec.ofNat Bits.bits64.width 7).toInt < 2 ^ 31
    rw [hseven]
    omega
  · obtain ⟨_, hbits | hold | ⟨_, hlt⟩⟩ := (hiff _).mp h
    · cases hbits
    · rw [hversion] at hold
      exact Int.lt_irrefl 530 hold
    · replace hlt : (BitVec.ofNat Bits.bits64.width 4294967296).toInt < 2 ^ 31 := hlt
      rw [hhigh] at hlt
      omega

/-! ## Code left alone -/

end Odbk
