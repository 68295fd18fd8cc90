import Odbk.SecondVm
import Odbk.Lib.Handover
import Odbk.Lib.HookOrder

/-!
# How deep calls go

A detour calls on through a pointer, and the code called may be hooked again. Proved here:

* `call_ends_or_loops`: a call enters no detour twice, or it never gets out of detours,
  exactly when it comes to one that leads back to itself;
* `callsOrdered_load`, `callsOrdered_install`: the order of the hooks is kept by every
  installation, and by every load that binds no pointer to hooked code;
* `calls_end`: in a run of such loads and installs all calls end.
-/

namespace Odbk

open BindScript HookRegistry

/-! ## Calls that end and calls that do not -/

/-- The detour that a detour's call enters, if the code it calls is hooked. -/
def Detour.next (p : Process) (d : Detour) : Option Detour :=
  (d.callee p).bind fun f => (p.ptr f).bind p.registry.enter

/-- With enough fuel a call runs these detours, whatever its arguments, and then at most
the code of an image or a null pointer. -/
def CallEnds (p : Process) (c : Code Addr) (ds : List Detour) : Prop :=
  ∀ args, ∃ last : List Event, ∃ result : (Addr → List Val → Int) → Option Int,
    last.length ≤ 1 ∧ (∀ d, .detour d ∉ last) ∧
      ∀ fuel, ds.length < fuel → runCall p fuel c args = ds.map .detour ++ last ∧
        ∀ vm, callResult p vm fuel c args = result vm

/-- A call runs detours for as long as there is fuel, and does not return. -/
def CallLoops (p : Process) (c : Code Addr) : Prop :=
  ∀ fuel args, (∃ ds : List Detour, ds.length = fuel ∧ runCall p fuel c args = ds.map .detour) ∧
    ∀ vm, callResult p vm fuel c args = none

/-- Code that is not hooked. -/
theorem callEnds_nil {p : Process} {c : Code Addr} (he : p.registry.enter c = none) :
    CallEnds p c [] := by
  intro args
  cases ho : p.registry.origin c with
  | some a =>
    refine ⟨[.original a args], fun vm => some (vm a args), Nat.le_refl _, by simp, ?_⟩
    rintro (_ | fuel) hf
    · cases hf
    · exact ⟨runCall_original he ho args fuel, fun vm => by simp [callResult, he, ho]⟩
  | none =>
    refine ⟨[], fun _ => none, Nat.zero_le _, by simp, ?_⟩
    rintro (_ | fuel) hf
    · cases hf
    · simp [runCall, callResult, he, ho]

/-- Hooked code whose detour calls none. -/
theorem callEnds_last {p : Process} {c : Code Addr} {d : Detour} (he : p.registry.enter c = some d)
    (hn : ∀ f, d.callee p = some f → p.ptr f = none) : CallEnds p c [d] := by
  intro args
  have hcallee := callee_eq p d args
  cases hb : d.body p args with
  | none =>
    refine ⟨[], fun _ => some (-1), Nat.zero_le _, by simp, ?_⟩
    rintro (_ | fuel) hf
    · cases hf
    · simp [runCall, callResult, he, hb]
  | some r =>
    obtain ⟨f, args'⟩ := r
    rw [hb] at hcallee
    have hnull := hn f hcallee.symm
    refine ⟨[.nullCall f], fun _ => none, Nat.le_refl _, by simp, ?_⟩
    rintro (_ | fuel) hf
    · cases hf
    · simp [runCall, callResult, he, hb, hnull]

/-- Hooked code whose detour calls code. -/
theorem callEnds_cons {p : Process} {c c' : Code Addr} {d : Detour} {f : Fn} {ds : List Detour}
    (he : p.registry.enter c = some d) (hcallee : d.callee p = some f) (hc : p.ptr f = some c')
    (h : CallEnds p c' ds) : CallEnds p c (d :: ds) := by
  intro args
  have hbody := callee_eq p d args
  rw [hcallee, Option.map_eq_some_iff] at hbody
  obtain ⟨⟨f, args'⟩, hb, rfl⟩ := hbody
  obtain ⟨last, result, hlen, hlast, hrun⟩ := h args'
  refine ⟨last, result, hlen, hlast, ?_⟩
  rintro (_ | fuel) hf
  · cases hf
  · obtain ⟨hev, hres⟩ := hrun fuel (Nat.lt_of_succ_lt_succ hf)
    refine ⟨?_, fun vm => ?_⟩
    · rw [runCall_hooked he hb hc, hev, List.map_cons, List.cons_append]
    · rw [← hres vm]
      simp only [callResult, he, hb, hc]

theorem callEnds_of_chain {p : Process} {d : Detour} {ds : List Detour}
    (h : Handover.Ends (Detour.next p) d ds) {c : Code Addr} (he : p.registry.enter c = some d) :
    CallEnds p c ds := by
  induction h generalizing c with
  | @last d hn =>
    cases hcallee : d.callee p with
    | none => exact callEnds_last he fun f hf => by rw [hcallee] at hf; cases hf
    | some f =>
      cases hc : p.ptr f with
      | none =>
        refine callEnds_last he fun g hg => ?_
        rw [hcallee, Option.some.injEq] at hg
        rw [← hg, hc]
      | some c' =>
        have hfree : p.registry.enter c' = none := by
          rwa [Detour.next, hcallee, Option.bind_some, hc, Option.bind_some] at hn
        exact callEnds_cons he hcallee hc (callEnds_nil hfree)
  | step hs _ ih =>
    obtain ⟨f, hcallee, hnext⟩ := Option.bind_eq_some_iff.mp hs
    obtain ⟨c', hc, henter⟩ := Option.bind_eq_some_iff.mp hnext
    exact callEnds_cons he hcallee hc (ih henter)

theorem callLoops_of_not_ends {p : Process} {d : Detour}
    (h : ¬∃ ds, Handover.Ends (Detour.next p) d ds) {c : Code Addr}
    (he : p.registry.enter c = some d) : CallLoops p c := by
  intro fuel
  induction fuel generalizing c d with
  | zero => exact fun args => ⟨⟨[], rfl, rfl⟩, fun vm => rfl⟩
  | succ fuel ih =>
    intro args
    obtain ⟨e, hnext, hrest⟩ := Handover.next_of_not_ends h
    obtain ⟨f, hcallee, hnext⟩ := Option.bind_eq_some_iff.mp hnext
    obtain ⟨c', hc, henter⟩ := Option.bind_eq_some_iff.mp hnext
    have hbody := callee_eq p d args
    rw [hcallee, Option.map_eq_some_iff] at hbody
    obtain ⟨⟨f, args'⟩, hb, rfl⟩ := hbody
    obtain ⟨⟨ds, hlen, hrun⟩, hres⟩ := ih hrest henter args'
    refine ⟨⟨d :: ds, by rw [List.length_cons, hlen], ?_⟩, fun vm => ?_⟩
    · rw [runCall_hooked he hb hc, hrun, List.map_cons]
    · rw [← hres vm]
      simp only [callResult, he, hb, hc]

def Detour.all : List Detour :=
  [.luaOpenHook, .luaNewstateHook, .luaLNewstateHook, .luaopenBaseHook, .luaCloseHook,
    .luaNewthreadHook, .luaPcallHook, .luaPcallkHook, .luaCallHook, .luaCallkHook,
    .luaLNewmetatableHook, .luaSethookHook, .luaLLoadbufferxHook, .luaLLoadbufferHook,
    .luaLLoadfilexHook, .luaLLoadfileHook, .luaLoadHook, .luaLoad510Hook, .luaLOpenlibsHook,
    .luaIOpenlibHook]

theorem Detour.mem_all (d : Detour) : d ∈ Detour.all := by cases d <;> decide

instance : Fintype Detour := Fintype.ofList Detour.all Detour.mem_all

/-- The call comes to a detour whose own calls lead back to it. -/
def Circular (p : Process) (c : Code Addr) : Prop :=
  ∃ d, p.registry.enter c = some d ∧ Handover.Circular (Detour.next p) d

/-- **Calls end or loop.** In any process a call of any code that comes to no detour whose
own calls lead back to it enters each detour at most once, the same ones in the same order
whatever its arguments, and is then over. Any other call runs detours without end and never
returns. -/
theorem call_ends_or_loops (p : Process) (c : Code Addr) :
    (¬Circular p c ∧ ∃ ds : List Detour, ds.Nodup ∧ CallEnds p c ds) ∨
      (Circular p c ∧ CallLoops p c) := by
  cases he : p.registry.enter c with
  | none =>
    refine Or.inl ⟨?_, [], List.nodup_nil, callEnds_nil he⟩
    rintro ⟨d, hd, _⟩
    rw [he] at hd
    cases hd
  | some d =>
    have hcirc : Circular p c ↔ Handover.Circular (Detour.next p) d := by simp [Circular, he]
    rw [hcirc]
    by_cases h : ∃ ds, Handover.Ends (Detour.next p) d ds
    · obtain ⟨ds, hds⟩ := h
      exact Or.inl ⟨hds.not_circular, ds, hds.nodup, callEnds_of_chain hds he⟩
    · have hloop := callLoops_of_not_ends h he
      rw [Handover.ends_iff, not_not] at h
      exact Or.inr ⟨h, hloop⟩

/-! ## The order of the hooks -/

/-- The functions hooked, in order. -/
def siteNames : List Fn := (hookSitesOf true true).map Prod.fst

theorem fns_hookSites (version : Int) : (hookSites version).map Prod.fst <+: siteNames := by
  have h : ∀ b c : Bool, (hookSitesOf b c).map Prod.fst <+: siteNames := by decide
  exact h _ _

/-- The functions called in place of others that are null. -/
def standIns : List (Fn × Fn) :=
  [(.luaLLoadbufferx, .luaLLoadbuffer), (.luaLLoadfilex, .luaLLoadfile)]

/-- A pointer holds the address of a hook only if the hook was made for a pointer that is
hooked earlier, and none that the detour would call in place of its own. -/
structure CallsOrdered (p : Process) : Prop where
  ordered : Patched.Ordered siteNames Detour.fn p.toPatched
  standIn : ∀ e ∈ standIns, Patched.StandsIn e.1 e.2 Detour.fn p.toPatched

theorem callsOrdered_fresh (dbghelp : DbgFn → Bool) : CallsOrdered (Process.fresh dbghelp) := by
  refine ⟨fun f c d h => ?_, fun e _ _ c d h => ?_⟩ <;> cases h

/-- The table gives no pointer the address of hooked code. -/
def BindsUnhooked (T : Symbols) (p : Process) : Prop :=
  ∀ f a, assigned T f = some (some (.image a)) → .image a ∉ p.registry.targets

theorem not_mem_of_assigned {T : Symbols} {p : Process} (h : BindsUnhooked T p) {f : Fn}
    {c : Code Addr} (ha : assigned T f = some (some c)) : c ∉ p.registry.targets := by
  rcases find_of_assigned ha with hnone | ⟨a, hc, _⟩
  · cases hnone
  · cases hc
    exact h f a ha

/-- A table assigns to the pointers of the steps it runs. -/
theorem assigned_ne_none_iff {T : Symbols} {v : LuaVersion} (hv : detectVersion T = some v)
    {f : Fn} : assigned T f ≠ none ↔ ∃ s ∈ executed T v, s.slot = f := by
  rw [assigned, hv, Option.bind_some, ne_eq, Option.map_eq_none_iff, List.getLast?_eq_none_iff,
    List.filter_eq_nil_iff]
  simp

/-- A step of the sequence that is run comes after all steps before it that have no guard. -/
theorem executed_before {T : Symbols} {v : LuaVersion} {n : Nat} {s t : BindStep Fn String}
    (hs : s ∈ executed T v) (hn : s ∉ (bindings v.version).take n)
    (ht : t ∈ (bindings v.version).take n) (hg : t.guard = none) : t ∈ executed T v := by
  have hsel : selected T v = active (getLuaFn T) guardNames ((bindings v.version).take n) ++
      active (getLuaFn T) guardNames ((bindings v.version).drop n) := by
    rw [selected, active, active, active, ← List.filter_append, List.take_append_drop]
  rw [executed, hsel] at hs ⊢
  refine mem_reached_before hs (fun h => hn (List.mem_filter.mp h).1) ?_
  exact List.mem_filter.mpr ⟨ht, by rw [hg]; rfl⟩

/-- A function is bound before the one that its detour prefers. -/
theorem standIn_bound_first : ∀ e ∈ standIns, ∀ version, ∃ n,
    getFunctionOptional e.2 ∈ (bindings version).take n ∧
      ∀ s ∈ (bindings version).take n, s.slot ≠ e.1 := by
  intro e he version
  rcases List.mem_pair.mp he with rfl | rfl
  · exact ⟨72, bindings_cases (P := fun l => getFunctionOptional .luaLLoadbuffer ∈ l.take 72 ∧
      ∀ s ∈ l.take 72, s.slot ≠ .luaLLoadbufferx) (by decide +kernel) (by decide +kernel) version⟩
  · exact ⟨74, bindings_cases (P := fun l => getFunctionOptional .luaLLoadfile ∈ l.take 74 ∧
      ∀ s ∈ l.take 74, s.slot ≠ .luaLLoadfilex) (by decide +kernel) (by decide +kernel) version⟩

theorem assigned_standIn {T : Symbols} {e : Fn × Fn} (he : e ∈ standIns)
    (h : assigned T e.1 ≠ none) : assigned T e.2 ≠ none := by
  cases hv : detectVersion T with
  | none =>
    rw [assigned, hv] at h
    exact absurd rfl h
  | some v =>
    obtain ⟨s, hs, hslot⟩ := (assigned_ne_none_iff hv).mp h
    obtain ⟨n, ht, hn⟩ := standIn_bound_first e he v.version
    have hbefore := executed_before hs (fun hmem => hn s hmem hslot) ht rfl
    exact (assigned_ne_none_iff hv).mpr ⟨_, hbefore, rfl⟩

/-- **Step lemma for loads**, accepted or not. -/
theorem callsOrdered_load {W : World} {core : OdbkCore} {hLua : Handle} {p : Process}
    {r : Process × Bool} (hp : Configured p) (hc : CallsOrdered p)
    (h : odbkLoadLuaInternal W core hLua p = .ok r)
    (hb : BindsUnhooked (boundTable W hLua p.ctx.symbols) p) : CallsOrdered r.1 := by
  have hleft : ∀ f, leftPtr (boundTable W hLua p.ctx.symbols) p f = p.ptr f ∧
        assigned (boundTable W hLua p.ctx.symbols) f = none ∨
      assigned (boundTable W hLua p.ctx.symbols) f ≠ none ∧
        ∀ c, leftPtr (boundTable W hLua p.ctx.symbols) p f = some c → c ∉ p.registry.targets := by
    intro f
    rw [leftPtr_eq]
    cases ha : assigned (boundTable W hLua p.ctx.symbols) f with
    | none => exact Or.inl ⟨rfl, rfl⟩
    | some o =>
      refine Or.inr ⟨Option.some_ne_none o, fun c hc => ?_⟩
      rw [Option.getD_some] at hc
      exact not_mem_of_assigned hb (ha.trans (congrArg some hc))
  constructor
  · rw [(load_left hp h).1]
    refine Patched.ordered_rebind hc.ordered fun f c hf => ?_
    rcases hleft f with ⟨he, _⟩ | ⟨_, hfree⟩
    · exact Or.inl (he ▸ hf)
    · exact Or.inr (hfree c hf)
  · intro e he
    rw [(load_left hp h).1]
    refine Patched.standsIn_rebind (hc.standIn e he) fun hnull => ?_
    rcases hleft e.2 with ⟨hsame, hnone⟩ | ⟨_, hfree⟩
    · left
      rcases hleft e.1 with ⟨hx, _⟩ | ⟨hx, _⟩
      · exact ⟨hx.symm.trans hnull, hsame⟩
      · exact absurd hnone (assigned_standIn he hx)
    · exact Or.inr hfree

theorem callsOrdered_install {p : Process} (hp : Managed p) (hc : CallsOrdered p) :
    CallsOrdered (odbkInstallLuaHooks p) := by
  rw [odbkInstallLuaHooks_eq]
  constructor
  · exact Patched.ordered_enable (Patched.ordered_patchAll hp.sound hc.ordered
      fn_of_mem_hookSites (fns_hookSites p.ctx.version))
  · exact fun e he => Patched.standsIn_enable
      (Patched.standsIn_patchAll hp.sound (hc.standIn e he) fn_of_mem_hookSites)

/-! ## Runs without loops -/

/-- The place of the function that a detour calls. -/
def Detour.rank (p : Process) (d : Detour) : Nat := (d.callee p).elim 0 siteNames.idxOf

theorem rank_firstBound {p : Process} {x y : Fn} {d : Detour} (h : d.callee p = firstBound p x y) :
    d.rank p = 0 ∨ d.rank p = siteNames.idxOf x ∨
      d.callee p = some y ∧ p.ptr x = none := by
  rw [Detour.rank, h, firstBound]
  split
  · exact Or.inr (Or.inl rfl)
  case isFalse hx =>
    split
    · exact Or.inr (Or.inr ⟨rfl, Option.not_isSome_iff_eq_none.mp hx⟩)
    · exact Or.inl rfl

/-- A detour calls no function hooked after its own, but one that stands in for it. -/
theorem rank_cases (p : Process) (d : Detour) :
    d.rank p ≤ siteNames.idxOf d.fn ∨
      ∃ e ∈ standIns, d.fn = e.1 ∧ d.callee p = some e.2 ∧ p.ptr e.1 = none := by
  have hplain : ∀ {f : Fn}, d.callee p = some f → siteNames.idxOf f ≤ siteNames.idxOf d.fn →
      d.rank p ≤ siteNames.idxOf d.fn := fun h hle => by rwa [Detour.rank, h, Option.elim_some]
  cases d with
  | luaLLoadbufferxHook =>
    rcases rank_firstBound (p := p) (d := .luaLLoadbufferxHook) rfl with h | h | h
    · exact Or.inl (h ▸ Nat.zero_le _)
    · exact Or.inl (Nat.le_of_eq h)
    · exact Or.inr ⟨(.luaLLoadbufferx, .luaLLoadbuffer), by decide, rfl, h⟩
  | luaLLoadfilexHook =>
    rcases rank_firstBound (p := p) (d := .luaLLoadfilexHook) rfl with h | h | h
    · exact Or.inl (h ▸ Nat.zero_le _)
    · exact Or.inl (Nat.le_of_eq h)
    · exact Or.inr ⟨(.luaLLoadfilex, .luaLLoadfile), by decide, rfl, h⟩
  | luaLLoadbufferHook =>
    left
    rcases rank_firstBound (p := p) (d := .luaLLoadbufferHook) rfl with h | h | h
    · exact h ▸ Nat.zero_le _
    · exact h ▸ by decide
    · exact hplain h.1 (by decide)
  | luaLLoadfileHook =>
    left
    rcases rank_firstBound (p := p) (d := .luaLLoadfileHook) rfl with h | h | h
    · exact h ▸ Nat.zero_le _
    · exact h ▸ by decide
    · exact hplain h.1 (by decide)
  | _ => exact Or.inl (hplain rfl (Nat.le_refl _))

/-- The detours entered one after the other call functions hooked earlier and earlier. -/
theorem rank_next {p : Process} (hp : Managed p) (hc : CallsOrdered p) {d e : Detour}
    (h : d.next p = some e) : e.rank p < d.rank p := by
  obtain ⟨f, hcallee, hnext⟩ := Option.bind_eq_some_iff.mp h
  obtain ⟨c, hptr, henter⟩ := Option.bind_eq_some_iff.mp hnext
  have hdet : p.registry.detourOf c = some e := (hp.enabled c).symm.trans henter
  have hlt : siteNames.idxOf e.fn < siteNames.idxOf f := hc.ordered f c e hptr hdet
  have hrank : d.rank p = siteNames.idxOf f := by rw [Detour.rank, hcallee, Option.elim_some]
  rw [hrank]
  rcases rank_cases p e with hle | ⟨g, hg, hfn, hcallee', hnull⟩
  · exact Nat.lt_of_le_of_lt hle hlt
  · have hsucc : ∀ g ∈ standIns, siteNames.idxOf g.2 = siteNames.idxOf g.1 + 1 ∧
        g.2 ∈ siteNames := by decide
    obtain ⟨hidx, hmem⟩ := hsucc g hg
    rw [Detour.rank, hcallee', Option.elim_some]
    refine Nat.lt_of_le_of_ne (by rw [hidx, ← hfn]; exact hlt) fun he => ?_
    -- the pointer called would be the one that stands in, with the address of the hook
    rw [← (List.idxOf_inj hmem).mp he] at hptr
    exact hc.standIn g hg hnull c e hptr hdet hfn

/-- Loads and installs one after the other, of any result, none of which gives a pointer
the address of code that is hooked at the time. -/
inductive UnhookedRun (core : OdbkCore) : Process → Process → Prop
  | nil (p : Process) : UnhookedRun core p p
  | load {W : World} {hLua : Handle} {p q : Process} {r : Process × Bool} :
      odbkLoadLuaInternal W core hLua p = .ok r →
      BindsUnhooked (boundTable W hLua p.ctx.symbols) p →
      UnhookedRun core r.1 q → UnhookedRun core p q
  | install {W : World} {hModule : Handle} {p p' q : Process} :
      odbkInstall W core hModule p = .ok p' →
      BindsUnhooked (boundTable W hModule p.ctx.symbols) p →
      UnhookedRun core p' q → UnhookedRun core p q

/-- **Every run keeps the order.** -/
theorem callsOrdered_run {core : OdbkCore} {p q : Process} (run : UnhookedRun core p q)
    (hp : Managed p) (hc : CallsOrdered p) : Managed q ∧ CallsOrdered q := by
  induction run with
  | nil p => exact ⟨hp, hc⟩
  | load hl hb _ ih => exact ih (managed_load hp hl) (callsOrdered_load hp.configured hc hl hb)
  | install hi hb _ ih =>
    obtain ⟨r, hl, rfl⟩ := odbkInstall_ok hi
    have hm := managed_load hp hl
    exact ih (managed_install hm)
      (callsOrdered_install hm (callsOrdered_load hp.configured hc hl hb))

/-- **All calls end.** Loads and installs follow each other in any order from a new process,
of modules that may have several functions at one address; none gives a pointer the address
of code that is hooked at the time. Then a call of any code, by the program or through a
pointer, enters each detour at most once and is then over. -/
theorem calls_end {core : OdbkCore} {dbghelp : DbgFn → Bool} {q : Process}
    (run : UnhookedRun core (Process.fresh dbghelp) q) (c : Code Addr) :
    ∃ ds : List Detour, ds.Nodup ∧ CallEnds q c ds := by
  obtain ⟨hm, hc⟩ := callsOrdered_run run (managed_fresh dbghelp) (callsOrdered_fresh dbghelp)
  cases he : q.registry.enter c with
  | none => exact ⟨[], List.nodup_nil, callEnds_nil he⟩
  | some d =>
    obtain ⟨ds, hds⟩ := Handover.exists_ends_of_rank (Detour.rank q)
      (fun _ _ h => rank_next hm hc h) d
    exact ⟨ds, hds.nodup, callEnds_of_chain hds he⟩

/-- A table with new addresses gives no pointer that of hooked code. -/
theorem bindsUnhooked_of_new {l : List (World × Handle)} {T : Symbols} {p : Process}
    (ht : Traced l p) (hnew : NewAddresses l T) : BindsUnhooked T p := by
  intro f a ha hmem
  obtain ⟨name, hexp⟩ := ht.exported_of_hooked hmem
  rcases find_of_assigned ha with hnone | ⟨b, hb, n, _, hn⟩
  · cases hnone
  · cases hb
    exact hnew n a hn name hexp

/-- Lua 5.1 with all functions at one address. -/
def sharedWorld : World := World.exporting (lua51Fns.map fun f => (f.name, 4096))

/-- It is installed, and after it Lua 5.1 with each function at an address of its own. -/
theorem calls_end_shared :
    ∃ q, UnhookedRun ⟨0, 0⟩ (Process.fresh fun _ => true) q ∧
      ∀ c, ∃ ds : List Detour, ds.Nodup ∧ CallEnds q c ds := by
  have hn : (1 : Handle) ≠ nullptr := by decide
  have hfirst := odbkInstall_of_load (odbkLoadLuaInternal_module sharedWorld ⟨0, 0⟩ hn
    (Process.fresh fun _ => true))
  have hexp : ∀ name a, Exported [(sharedWorld, 1)] name a → a < 1048576 := by
    rintro name a ⟨e, he, hlookup⟩
    rw [List.mem_singleton.mp he] at hlookup
    obtain ⟨_, hf, he⟩ := List.mem_map.mp (EmplaceMap.mem_of_lookup hlookup)
    cases he
    decide
  have ht := traced_run (.install hfirst (.nil _))
  have hnew : NewAddresses [(sharedWorld, 1)] (stockSymbols 1048576 lua51Fns) :=
    newAddresses_stock hexp
  have run : UnhookedRun ⟨0, 0⟩ (Process.fresh fun _ => true) _ :=
    .install hfirst (fun _ _ _ h => by cases h)
      (.install (odbkInstall_of_load (load_exporting 1048576 lua51Fns ⟨0, 0⟩ _))
        (bindsUnhooked_of_new ht hnew) (.nil _))
  exact ⟨_, run, calls_end run⟩

end Odbk
