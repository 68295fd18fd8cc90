import Mathlib.Data.List.Nodup
import Mathlib.Logic.Function.Basic

/-!
# Inline hooks and trampolines

A registry of inline hooks as its callers see it. `createHook t d` refuses a
target that has a hook; otherwise it makes a fresh trampoline that executes the
code `t` had before. Slots (function pointers) are patched one after the other:
`patch f d` hooks the address slot `f` holds and stores the trampoline in `f`.
The status of the registry is dropped, as its users do. Proved here:

* `patch_cases`: all a patch can do;
* `Sound`: every trampoline a slot holds was made for that slot and is not
  itself hooked; kept by `patch` (`sound_patch`) and by rebinding slots to image
  addresses (`sound_rebind`);
* `leadsTo_patch_self`, `leadsTo_patch_of_trampoline`, `leadsTo_of_patch`: a
  patch never makes a slot lead to code it did not lead to before;
* `Faithful`: every hooked image address is what its detour's slot leads to;
  kept by patches (`faithful_patchAll`), lost for good once the slot is rebound
  (`not_leadsTo_of_hooked`, `leadsTo_of_patchAll`);
* `patchAll_targets_iff`: a run of patches hooks nothing exactly when every slot
  is null or already hooked;
* `map_fst_calls`, `calls_eq_filterMap`: the targets a run of patches asks to hook.
-/

/-- A code address: one of a loaded image, or the `k`-th trampoline made. -/
inductive Code (α : Type) where
  | image (a : α)
  | trampoline (k : Nat)
  deriving DecidableEq, Repr

structure Hook (α δ : Type) where
  target : Code α
  detour : δ
  enabled : Bool
  deriving DecidableEq, Repr

/-- The hooks, newest first, at most one for each target. The trampoline of a
hook is numbered by how many hooks are older. -/
structure HookRegistry (α δ : Type) where
  hooks : List (Hook α δ)
  nodup : (hooks.map Hook.target).Nodup

namespace HookRegistry

variable {α δ : Type}

def empty : HookRegistry α δ := ⟨[], List.nodup_nil⟩

def targets (r : HookRegistry α δ) : List (Code α) := r.hooks.map Hook.target

/-- Add a hook for a target that has none. -/
def push (r : HookRegistry α δ) (t : Code α) (d : δ) (h : t ∉ r.targets) : HookRegistry α δ :=
  ⟨⟨t, d, false⟩ :: r.hooks, List.nodup_cons.mpr ⟨h, r.nodup⟩⟩

theorem map_target_enabled (l : List (Hook α δ)) :
    (l.map fun h => { h with enabled := true }).map Hook.target = l.map Hook.target := by
  simp

def enableAll (r : HookRegistry α δ) : HookRegistry α δ :=
  ⟨r.hooks.map fun h => { h with enabled := true }, by
    rw [map_target_enabled]; exact r.nodup⟩

/-- The original code executed by a trampoline, read off the hooks below it. -/
def originIn : List (Hook α δ) → Code α → Option α
  | _, .image a => some a
  | [], .trampoline _ => none
  | h :: older, .trampoline k =>
    if k = older.length then originIn older h.target else originIn older (.trampoline k)

def origin (r : HookRegistry α δ) (c : Code α) : Option α := originIn r.hooks c

/-- The hook number `k` in creation order. -/
def hookNo : List (Hook α δ) → Nat → Option (Hook α δ)
  | [], _ => none
  | h :: older, k => if k = older.length then some h else hookNo older k

variable [DecidableEq α]

/-- Create a disabled hook: `none` is the error status for a hooked target. -/
def createHook (r : HookRegistry α δ) (t : Code α) (d : δ) :
    Option (HookRegistry α δ × Code α) :=
  if h : t ∈ r.targets then none
  else some (r.push t d h, .trampoline r.hooks.length)

/-- The detour registered for a target, enabled or not. -/
def detourOf (r : HookRegistry α δ) (c : Code α) : Option δ :=
  (r.hooks.find? fun h => h.target = c).map Hook.detour

/-- The detour that control entering `c` goes to. -/
def enter (r : HookRegistry α δ) (c : Code α) : Option δ :=
  (r.hooks.find? fun h => decide (h.target = c) && h.enabled).map Hook.detour

/-- The image code that entering `c` executes when no detour takes control. -/
def leads (r : HookRegistry α δ) (c : Code α) : Option α :=
  if c ∈ r.targets then none else r.origin c

/-! ## One hook -/

omit [DecidableEq α] in
@[simp] theorem targets_push (r : HookRegistry α δ) (t : Code α) (d : δ) (h : t ∉ r.targets) :
    (r.push t d h).targets = t :: r.targets := rfl

omit [DecidableEq α] in
theorem hookNo_lt {l : List (Hook α δ)} {k : Nat} {h : Hook α δ} (hk : hookNo l k = some h) :
    k < l.length := by
  induction l with
  | nil => simp [hookNo] at hk
  | cons h' l ih =>
    by_cases e : k = l.length
    · simp [e]
    · have := ih (by simpa [hookNo, e] using hk)
      simp only [List.length_cons]
      omega

omit [DecidableEq α] in
@[simp] theorem originIn_image (l : List (Hook α δ)) (a : α) : originIn l (.image a) = some a := by
  cases l <;> rfl

omit [DecidableEq α] in
theorem origin_push_new (r : HookRegistry α δ) (t : Code α) (d : δ) (h : t ∉ r.targets) :
    (r.push t d h).origin (.trampoline r.hooks.length) = r.origin t := by
  simp [origin, push, originIn]

omit [DecidableEq α] in
theorem origin_push_old (r : HookRegistry α δ) (t : Code α) (d : δ) (h : t ∉ r.targets)
    {c : Code α} (hc : c ≠ .trampoline r.hooks.length) :
    (r.push t d h).origin c = r.origin c := by
  cases c with
  | image a => simp [origin]
  | trampoline k =>
    have hk : k ≠ r.hooks.length := fun e => hc (by rw [e])
    simp [origin, push, originIn, hk]

theorem detourOf_push (r : HookRegistry α δ) (t : Code α) (d : δ) (h : t ∉ r.targets)
    (c : Code α) :
    (r.push t d h).detourOf c = if t = c then some d else r.detourOf c := by
  by_cases e : t = c <;> simp [detourOf, push, e]

theorem detourOf_isSome_iff (r : HookRegistry α δ) (c : Code α) :
    (r.detourOf c).isSome ↔ c ∈ r.targets := by
  simp [detourOf, targets]

theorem mem_targets_of_detourOf {r : HookRegistry α δ} {c : Code α} {d : δ}
    (h : r.detourOf c = some d) : c ∈ r.targets :=
  (r.detourOf_isSome_iff c).mp (by simp [h])

theorem createHook_of_mem (r : HookRegistry α δ) {t : Code α} (d : δ) (h : t ∈ r.targets) :
    r.createHook t d = none := by
  simp [createHook, h]

theorem createHook_of_not_mem (r : HookRegistry α δ) {t : Code α} (d : δ) (h : t ∉ r.targets) :
    r.createHook t d = some (r.push t d h, .trampoline r.hooks.length) := by
  simp [createHook, h]

/-! ## Enabling -/

omit [DecidableEq α] in
@[simp] theorem targets_enableAll (r : HookRegistry α δ) : r.enableAll.targets = r.targets :=
  map_target_enabled r.hooks

omit [DecidableEq α] in
@[simp] theorem origin_enableAll (r : HookRegistry α δ) (c : Code α) :
    r.enableAll.origin c = r.origin c := by
  have h : ∀ l : List (Hook α δ),
      ∀ c, originIn (l.map fun h => { h with enabled := true }) c = originIn l c := by
    intro l
    induction l with
    | nil => intro c; rfl
    | cons h l ih =>
      intro c
      cases c with
      | image a => simp
      | trampoline k => simp [originIn, ih]
  exact h r.hooks c

omit [DecidableEq α] in
theorem hookNo_enabled (l : List (Hook α δ)) (k : Nat) :
    hookNo (l.map fun h => { h with enabled := true }) k =
      (hookNo l k).map fun h => { h with enabled := true } := by
  induction l with
  | nil => rfl
  | cons h l ih =>
    by_cases e : k = l.length
    · simp [hookNo, e]
    · simp [hookNo, e, ih]

@[simp] theorem leads_enableAll (r : HookRegistry α δ) (c : Code α) :
    r.enableAll.leads c = r.leads c := by
  simp [leads]

@[simp] theorem detourOf_enableAll (r : HookRegistry α δ) (c : Code α) :
    r.enableAll.detourOf c = r.detourOf c := by
  simp [detourOf, enableAll, List.find?_map, Function.comp_def]

@[simp] theorem enter_enableAll (r : HookRegistry α δ) (c : Code α) :
    r.enableAll.enter c = r.detourOf c := by
  simp [enter, detourOf, enableAll, List.find?_map, Function.comp_def]

end HookRegistry

/-- Slots holding code addresses, and the hooks made through them. -/
structure Patched (ι α δ : Type) where
  ptr : ι → Option (Code α)
  registry : HookRegistry α δ

namespace Patched

open HookRegistry

variable {ι α δ : Type} [DecidableEq ι] [DecidableEq α]

/-- Hook the address in slot `f` and keep the trampoline in its place. A null
slot and an error of the registry leave everything as it is. -/
def patch (f : ι) (d : δ) (s : Patched ι α δ) : Patched ι α δ :=
  match s.ptr f with
  | none => s
  | some t =>
    match s.registry.createHook t d with
    | none => s
    | some (r, c) => { ptr := Function.update s.ptr f (some c), registry := r }

def patchAll (sites : List (ι × δ)) (s : Patched ι α δ) : Patched ι α δ :=
  sites.foldl (fun s e => s.patch e.1 e.2) s

def enable (s : Patched ι α δ) : Patched ι α δ := { s with registry := s.registry.enableAll }

/-- The image code that a call through slot `f` executes, no detour in between. -/
def leadsTo (s : Patched ι α δ) (f : ι) : Option α := (s.ptr f).bind s.registry.leads

/-- The slot is null, or the address in it has a hook. -/
def Idle (s : Patched ι α δ) (f : ι) : Prop := ∀ t, s.ptr f = some t → t ∈ s.registry.targets

theorem patch_cases (f : ι) (d : δ) (s : Patched ι α δ) :
    (s.Idle f ∧ s.patch f d = s) ∨
    ∃ t, ∃ h : t ∉ s.registry.targets, s.ptr f = some t ∧
      s.patch f d = ⟨Function.update s.ptr f (some (.trampoline s.registry.hooks.length)),
        s.registry.push t d h⟩ := by
  unfold patch
  cases hp : s.ptr f with
  | none => exact Or.inl ⟨fun t ht => by simp [hp] at ht, rfl⟩
  | some t =>
    by_cases h : t ∈ s.registry.targets
    · refine Or.inl ⟨fun u hu => ?_, by simp [createHook_of_mem, h]⟩
      rw [hp] at hu
      cases hu
      exact h
    · exact Or.inr ⟨t, h, rfl, by simp [createHook_of_not_mem, h]⟩

theorem ptr_patch_ne {f g : ι} (d : δ) (s : Patched ι α δ) (h : g ≠ f) :
    (s.patch f d).ptr g = s.ptr g := by
  rcases s.patch_cases f d with ⟨_, e⟩ | ⟨t, _, _, e⟩
  · rw [e]
  · simp [e, h]

omit [DecidableEq ι] in
@[simp] theorem leadsTo_enable (s : Patched ι α δ) (f : ι) : s.enable.leadsTo f = s.leadsTo f := by
  have hl : s.registry.enableAll.leads = s.registry.leads := funext (leads_enableAll s.registry)
  rw [leadsTo, leadsTo, enable, hl]

theorem patchAll_cons (e : ι × δ) (sites : List (ι × δ)) (s : Patched ι α δ) :
    s.patchAll (e :: sites) = (s.patch e.1 e.2).patchAll sites := rfl

/-- **Run rule.** What every patch of the list keeps, the whole run keeps. -/
theorem patchAll_induction {P : Patched ι α δ → Prop} (sites : List (ι × δ))
    (step : ∀ s, ∀ e ∈ sites, P s → P (s.patch e.1 e.2)) (s : Patched ι α δ) (h : P s) :
    P (s.patchAll sites) := by
  induction sites generalizing s with
  | nil => exact h
  | cons e sites ih =>
    exact ih (fun s e' he' => step s e' (List.mem_cons_of_mem _ he')) _
      (step s e (List.mem_cons_self ..) h)

/-! ## Sound slots -/

/-- Every trampoline in a slot was made for that slot and has no hook itself,
and hooked trampolines exist. `owner` gives the slot a detour is written for. -/
structure Sound (owner : δ → ι) (s : Patched ι α δ) : Prop where
  owned : ∀ f k, s.ptr f = some (.trampoline k) →
    ∃ h, hookNo s.registry.hooks k = some h ∧ owner h.detour = f
  live : ∀ f k, s.ptr f = some (.trampoline k) → .trampoline k ∉ s.registry.targets
  bounded : ∀ k, .trampoline k ∈ s.registry.targets → k < s.registry.hooks.length

variable {owner : δ → ι}

omit [DecidableEq ι] [DecidableEq α] in
theorem Sound.lt {s : Patched ι α δ} (hs : Sound owner s) {f : ι} {k : Nat}
    (h : s.ptr f = some (.trampoline k)) : k < s.registry.hooks.length := by
  obtain ⟨_, hk, _⟩ := hs.owned f k h
  exact hookNo_lt hk

omit [DecidableEq ι] [DecidableEq α] in
/-- No two slots hold the same trampoline. -/
theorem Sound.slot_unique {s : Patched ι α δ} (hs : Sound owner s) {f g : ι} {k : Nat}
    (hf : s.ptr f = some (.trampoline k)) (hg : s.ptr g = some (.trampoline k)) : f = g := by
  obtain ⟨h, hk, rfl⟩ := hs.owned f k hf
  obtain ⟨h', hk', rfl⟩ := hs.owned g k hg
  rw [hk] at hk'
  cases hk'
  rfl

omit [DecidableEq ι] [DecidableEq α] in
theorem Sound.new_not_mem {s : Patched ι α δ} (hs : Sound owner s) {f : ι} {t : Code α}
    (ht : s.ptr f = some t) :
    .trampoline s.registry.hooks.length ∉ t :: s.registry.targets := by
  intro h
  rcases List.mem_cons.mp h with e | h
  · subst e
    exact Nat.lt_irrefl _ (hs.lt ht)
  · exact Nat.lt_irrefl _ (hs.bounded _ h)

theorem sound_patch {s : Patched ι α δ} (hs : Sound owner s) {f : ι} {d : δ}
    (hd : owner d = f) : Sound owner (s.patch f d) := by
  rcases s.patch_cases f d with ⟨_, e⟩ | ⟨t, h, ht, e⟩
  · rw [e]
    exact hs
  rw [e]
  refine ⟨?_, ?_, ?_⟩
  · intro g k hg
    by_cases hgf : g = f
    · subst hgf
      have hk : k = s.registry.hooks.length := by simpa using hg.symm
      exact ⟨⟨t, d, false⟩, by simp [push, hookNo, hk], hd⟩
    · have hg' : s.ptr g = some (.trampoline k) := by simpa [hgf] using hg
      obtain ⟨h', hk', ho⟩ := hs.owned g k hg'
      have hne : k ≠ s.registry.hooks.length := Nat.ne_of_lt (hs.lt hg')
      exact ⟨h', by simp [push, hookNo, hne, hk'], ho⟩
  · intro g k hg
    by_cases hgf : g = f
    · subst hgf
      have hk : k = s.registry.hooks.length := by simpa using hg.symm
      rw [hk]
      exact hs.new_not_mem ht
    · have hg' : s.ptr g = some (.trampoline k) := by simpa [hgf] using hg
      simp only [targets_push, List.mem_cons, not_or]
      refine ⟨fun e' => hgf ?_, hs.live g k hg'⟩
      exact hs.slot_unique hg' (by rw [ht, e'])
  · intro k hk
    rw [targets_push] at hk
    change k < s.registry.hooks.length + 1
    rcases List.mem_cons.mp hk with e' | hk
    · exact Nat.lt_succ_of_lt (hs.lt (e' ▸ ht))
    · exact Nat.lt_succ_of_lt (hs.bounded k hk)

omit [DecidableEq ι] [DecidableEq α] in
/-- Rebinding slots to null or to image addresses keeps them sound. -/
theorem sound_rebind {s : Patched ι α δ} (hs : Sound owner s) {ptr' : ι → Option (Code α)}
    (hp : ∀ g, ptr' g = s.ptr g ∨ ∀ k, ptr' g ≠ some (.trampoline k)) :
    Sound owner { s with ptr := ptr' } := by
  have keep : ∀ g k, ptr' g = some (.trampoline k) → s.ptr g = some (.trampoline k) := by
    intro g k h
    rcases hp g with e | e
    · rw [← e, h]
    · exact absurd h (e k)
  exact ⟨fun g k h => hs.owned g k (keep g k h), fun g k h => hs.live g k (keep g k h), hs.bounded⟩

omit [DecidableEq ι] [DecidableEq α] in
theorem sound_enable {s : Patched ι α δ} (hs : Sound owner s) : Sound owner s.enable := by
  refine ⟨fun f k h => ?_, fun f k h => ?_, fun k h => ?_⟩
  · obtain ⟨hook, hk, ho⟩ := hs.owned f k h
    refine ⟨{ hook with enabled := true }, ?_, ho⟩
    rw [enable, enableAll, hookNo_enabled, hk, Option.map_some]
  · rw [enable, targets_enableAll]
    exact hs.live f k h
  · rw [enable, targets_enableAll] at h
    rw [enable, enableAll, List.length_map]
    exact hs.bounded k h

theorem sound_patchAll {s : Patched ι α δ} (hs : Sound owner s) {sites : List (ι × δ)}
    (ho : ∀ e ∈ sites, owner e.2 = e.1) : Sound owner (s.patchAll sites) :=
  patchAll_induction (P := Sound owner) sites (fun _ e he hs => sound_patch hs (ho e he)) s hs

/-! ## Where a slot leads -/

/-- The patched slot keeps leading to the same code. -/
theorem leadsTo_patch_self {s : Patched ι α δ} (hs : Sound owner s) (f : ι) (d : δ) :
    (s.patch f d).leadsTo f = s.leadsTo f := by
  rcases s.patch_cases f d with ⟨_, e⟩ | ⟨t, h, ht, e⟩
  · rw [e]
  · have hn := hs.new_not_mem ht
    simp only [e, leadsTo, Function.update_self, Option.bind_some, ht, leads, targets_push, hn, h,
      if_false, origin_push_new]

/-- A slot that holds a trampoline keeps leading to the same code. -/
theorem leadsTo_patch_of_trampoline {s : Patched ι α δ} (hs : Sound owner s) (f : ι) (d : δ)
    {g : ι} {k : Nat} (hg : s.ptr g = some (.trampoline k)) :
    (s.patch f d).leadsTo g = s.leadsTo g := by
  by_cases hgf : g = f
  · subst hgf
    exact leadsTo_patch_self hs g d
  · rcases s.patch_cases f d with ⟨_, e⟩ | ⟨t, h, ht, e⟩
    · rw [e]
    · have hne : Code.trampoline k ≠ t := fun e' => hgf (hs.slot_unique hg (by rw [ht, e']))
      have hlen : Code.trampoline k ≠ (.trampoline s.registry.hooks.length : Code α) := by
        have := hs.lt hg
        intro e'
        cases e'
        omega
      have hl := hs.live g k hg
      simp only [e, leadsTo, Function.update_of_ne hgf, hg, Option.bind_some, leads, targets_push,
        List.mem_cons, hne, hl, or_false, if_false, origin_push_old _ _ _ _ hlen]

/-- A patch makes no slot lead to code it did not lead to before. -/
theorem leadsTo_of_patch {s : Patched ι α δ} (hs : Sound owner s) {f g : ι} {d : δ} {a : α}
    (h : (s.patch f d).leadsTo g = some a) : s.leadsTo g = some a := by
  by_cases hgf : g = f
  · subst hgf
    rwa [leadsTo_patch_self hs] at h
  cases hg : s.ptr g with
  | none => simp [leadsTo, ptr_patch_ne d s hgf, hg] at h
  | some c =>
    cases c with
    | trampoline k => rwa [leadsTo_patch_of_trampoline hs f d hg] at h
    | image b =>
      rcases s.patch_cases f d with ⟨_, e⟩ | ⟨t, _, _, e⟩
      · rwa [e] at h
      · rw [leadsTo, ptr_patch_ne d s hgf, hg, Option.bind_some, e] at h
        rw [leadsTo, hg, Option.bind_some]
        unfold leads at h ⊢
        rw [targets_push] at h
        split at h
        · cases h
        case isFalse hm =>
          rw [if_neg fun h' => hm (List.mem_cons_of_mem _ h')]
          simpa [origin] using h

theorem leadsTo_of_patchAll {s : Patched ι α δ} (hs : Sound owner s) {sites : List (ι × δ)}
    (ho : ∀ e ∈ sites, owner e.2 = e.1) {g : ι} {a : α}
    (h : (s.patchAll sites).leadsTo g = some a) : s.leadsTo g = some a := by
  induction sites generalizing s with
  | nil => exact h
  | cons e sites ih =>
    have hs' := sound_patch hs (ho e (List.mem_cons_self ..))
    exact leadsTo_of_patch hs (ih hs' (fun e' he' => ho e' (List.mem_cons_of_mem _ he')) h)

/-! ## Hooks added -/

theorem detourOf_patch_mono {s : Patched ι α δ} (f : ι) (d : δ) {c : Code α} {d' : δ}
    (h : s.registry.detourOf c = some d') : (s.patch f d).registry.detourOf c = some d' := by
  rcases s.patch_cases f d with ⟨_, e⟩ | ⟨t, ht, _, e⟩
  · rwa [e]
  · have hne : t ≠ c := fun e' => ht (e' ▸ mem_targets_of_detourOf h)
    rw [e, detourOf_push, if_neg hne, h]

theorem detourOf_patchAll_mono {s : Patched ι α δ} (sites : List (ι × δ)) {c : Code α} {d' : δ}
    (h : s.registry.detourOf c = some d') : (s.patchAll sites).registry.detourOf c = some d' :=
  patchAll_induction (P := fun s => s.registry.detourOf c = some d') sites
    (fun _ e _ h => detourOf_patch_mono e.1 e.2 h) s h

/-- A hook on an image address was there before, or is that of a slot patched. -/
theorem detourOf_patch_cases {s : Patched ι α δ} {f : ι} {d : δ} {c : Code α} {d' : δ}
    (h : (s.patch f d).registry.detourOf c = some d') :
    s.registry.detourOf c = some d' ∨
      (d' = d ∧ s.ptr f = some c ∧ ∃ k, (s.patch f d).ptr f = some (.trampoline k)) := by
  rcases s.patch_cases f d with ⟨_, e⟩ | ⟨t, ht, hp, e⟩
  · rw [e] at h
    exact Or.inl h
  · rw [e, detourOf_push] at h
    split at h
    case isTrue hc =>
      cases h
      exact Or.inr ⟨rfl, by rw [hp, hc], s.registry.hooks.length, by simp [e]⟩
    case isFalse => exact Or.inl h

theorem ptr_patch_cases (s : Patched ι α δ) (f : ι) (d : δ) (g : ι) :
    (s.patch f d).ptr g = s.ptr g ∨ ∃ k, (s.patch f d).ptr g = some (.trampoline k) := by
  by_cases h : g = f
  · subst h
    rcases s.patch_cases g d with ⟨_, e⟩ | ⟨t, _, _, e⟩
    · exact Or.inl (by rw [e])
    · exact Or.inr ⟨s.registry.hooks.length, by simp [e]⟩
  · exact Or.inl (ptr_patch_ne d s h)

/-- The first site that would hook an image address. -/
def siteAt (s : Patched ι α δ) (sites : List (ι × δ)) (a : α) : Option (ι × δ) :=
  sites.find? fun e => s.ptr e.1 = some (.image a)

/-- A site hooks the address its slot holds, unless it is hooked already. -/
theorem detourOf_patch_self {s : Patched ι α δ} {e : ι × δ} {a : α}
    (hp : s.ptr e.1 = some (.image a)) :
    (s.patch e.1 e.2).registry.detourOf (.image a) =
      (s.registry.detourOf (.image a)).or (some e.2) := by
  rcases s.patch_cases e.1 e.2 with ⟨hi, he⟩ | ⟨t, ht, hp', he⟩
  · -- the address has a hook already
    obtain ⟨d, hd⟩ := Option.isSome_iff_exists.mp
      ((detourOf_isSome_iff s.registry (.image a)).mpr (hi _ hp))
    rw [he, hd, Option.some_or]
  · rw [hp] at hp'
    cases hp'
    have hn : s.registry.detourOf (.image a) = none := by
      cases hd : s.registry.detourOf (.image a) with
      | none => rfl
      | some d => exact absurd (mem_targets_of_detourOf hd) ht
    rw [he, detourOf_push, if_pos rfl, hn, Option.none_or]

/-- A site leaves an address that its slot does not hold, and the slots that do. -/
theorem detourOf_patch_other {s : Patched ι α δ} {e : ι × δ} {a : α}
    (hp : s.ptr e.1 ≠ some (.image a)) :
    (s.patch e.1 e.2).registry.detourOf (.image a) = s.registry.detourOf (.image a) ∧
      ∀ f, (s.patch e.1 e.2).ptr f = some (.image a) ↔ s.ptr f = some (.image a) := by
  constructor
  · rcases s.patch_cases e.1 e.2 with ⟨_, he⟩ | ⟨t, _, hp', he⟩
    · rw [he]
    · have hne : t ≠ .image a := fun h => hp (by rw [hp', h])
      rw [he, detourOf_push, if_neg hne]
  · intro f
    by_cases hf : f = e.1
    · subst hf
      refine ⟨fun h => ?_, fun h => absurd h hp⟩
      rcases s.ptr_patch_cases e.1 e.2 e.1 with hq | ⟨k, hq⟩
      · rw [← hq, h]
      · rw [hq] at h
        cases h
    · rw [ptr_patch_ne e.2 s hf]

/-- **Who hooks an address.** A hook that is there stays; otherwise the first site
that holds the address hooks it. -/
theorem detourOf_patchAll (s : Patched ι α δ) (sites : List (ι × δ)) (a : α) :
    (s.patchAll sites).registry.detourOf (.image a) =
      (s.registry.detourOf (.image a)).or ((s.siteAt sites a).map Prod.snd) := by
  induction sites generalizing s with
  | nil => simp [patchAll, siteAt]
  | cons e sites ih =>
    rw [patchAll_cons, ih]
    by_cases hp : s.ptr e.1 = some (.image a)
    · have hs : s.siteAt (e :: sites) a = some e := by simp [siteAt, hp]
      rw [hs, detourOf_patch_self hp, Option.map_some]
      cases s.registry.detourOf (.image a) <;> rfl
    · obtain ⟨hkeep, hptr⟩ := detourOf_patch_other hp
      rw [hkeep]
      simp only [siteAt, hptr, List.find?_cons, hp, decide_false]

omit [DecidableEq ι] in
theorem siteAt_eq_some {s : Patched ι α δ} {sites : List (ι × δ)} {e : ι × δ} {a : α}
    (hm : e ∈ sites) (hp : s.ptr e.1 = some (.image a))
    (hu : ∀ e' ∈ sites, s.ptr e'.1 = some (.image a) → e' = e) : s.siteAt sites a = some e := by
  cases h : s.siteAt sites a with
  | none =>
    have := List.find?_eq_none.mp h e hm
    simp [hp] at this
  | some e' =>
    have hp' : s.ptr e'.1 = some (.image a) := by simpa using List.find?_some h
    rw [hu e' (List.mem_of_find?_eq_some h) hp']

/-- A slot whose address has a hook already keeps it. -/
theorem ptr_patchAll_of_mem_targets {s : Patched ι α δ} {f : ι} {t : Code α}
    (hp : s.ptr f = some t) (ht : t ∈ s.registry.targets) (sites : List (ι × δ)) :
    (s.patchAll sites).ptr f = some t := by
  refine (patchAll_induction (P := fun s => s.ptr f = some t ∧ t ∈ s.registry.targets) sites
    (fun s e _ h => ?_) s ⟨hp, ht⟩).1
  obtain ⟨hp, ht⟩ := h
  rcases s.patch_cases e.1 e.2 with ⟨_, he⟩ | ⟨t', ht', hp', he⟩
  · rw [he]
    exact ⟨hp, ht⟩
  · have hne : f ≠ e.1 := by
      rintro rfl
      rw [hp] at hp'
      cases hp'
      exact ht' ht
    rw [ptr_patch_ne e.2 s hne, he]
    exact ⟨hp, by rw [targets_push]; exact List.mem_cons_of_mem _ ht⟩

theorem mem_targets_patch (s : Patched ι α δ) (f : ι) (d : δ) {c : Code α}
    (h : s.ptr f = some c) : c ∈ (s.patch f d).registry.targets := by
  rcases s.patch_cases f d with ⟨hi, e⟩ | ⟨t, _, hp, e⟩
  · rw [e]
    exact hi c h
  · rw [h] at hp
    cases hp
    simp [e]

/-! ## Runs that hook nothing -/

theorem mem_targets_patchAll_mono {s : Patched ι α δ} (sites : List (ι × δ)) {c : Code α}
    (h : c ∈ s.registry.targets) : c ∈ (s.patchAll sites).registry.targets := by
  obtain ⟨d, hd⟩ := Option.isSome_iff_exists.mp ((detourOf_isSome_iff _ _).mpr h)
  exact mem_targets_of_detourOf (detourOf_patchAll_mono sites hd)

/-- A run of patches adds no hook exactly when every slot it visits is idle. -/
theorem patchAll_targets_iff (s : Patched ι α δ) (sites : List (ι × δ)) :
    (∀ c, c ∈ (s.patchAll sites).registry.targets ↔ c ∈ s.registry.targets) ↔
      ∀ e ∈ sites, s.Idle e.1 := by
  induction sites with
  | nil => simp [patchAll]
  | cons e sites ih =>
    rw [patchAll_cons]
    rcases s.patch_cases e.1 e.2 with ⟨hi, he⟩ | ⟨t, ht, hp, he⟩
    · rw [he, ih]
      simp [hi]
    · constructor
      · intro h
        have hm : t ∈ (s.patch e.1 e.2).registry.targets := s.mem_targets_patch e.1 e.2 hp
        exact absurd ((h t).mp (mem_targets_patchAll_mono sites hm)) ht
      · intro h
        exact absurd (h e (List.mem_cons_self ..) t hp) ht

/-! ## Faithful hooks -/

/-- Every hooked image address is what the slot of its detour leads to. -/
def Faithful (owner : δ → ι) (s : Patched ι α δ) : Prop :=
  ∀ a d, s.registry.detourOf (.image a) = some d → s.leadsTo (owner d) = some a

omit [DecidableEq ι] in
/-- A slot leads to a hooked image address only through a trampoline. -/
theorem trampoline_of_leadsTo {s : Patched ι α δ} {f : ι} {a : α}
    (ha : .image a ∈ s.registry.targets) (h : s.leadsTo f = some a) :
    ∃ k, s.ptr f = some (.trampoline k) := by
  cases hp : s.ptr f with
  | none => simp [leadsTo, hp] at h
  | some c =>
    cases c with
    | trampoline k => exact ⟨k, rfl⟩
    | image b =>
      rw [leadsTo, hp, Option.bind_some, leads] at h
      split at h
      · cases h
      case isFalse hb =>
        have e : b = a := by simpa [origin] using h
        exact absurd (e ▸ ha) hb

omit [DecidableEq ι] in
/-- A slot rebound to a raw address no longer leads to the hooked code. -/
theorem not_leadsTo_of_hooked {s : Patched ι α δ} {f : ι} {a : α}
    (ha : .image a ∈ s.registry.targets) (hp : ∀ k, s.ptr f ≠ some (.trampoline k)) :
    s.leadsTo f ≠ some a := by
  intro h
  obtain ⟨k, hk⟩ := trampoline_of_leadsTo ha h
  exact hp k hk

theorem faithful_patch {s : Patched ι α δ} (hs : Sound owner s) (hf : Faithful owner s) {f : ι}
    {d : δ} (hd : owner d = f) : Faithful owner (s.patch f d) := by
  intro a d' h
  rcases detourOf_patch_cases h with h | ⟨rfl, hp, _⟩
  · have hl := hf a d' h
    obtain ⟨k, hk⟩ := trampoline_of_leadsTo (mem_targets_of_detourOf h) hl
    rw [leadsTo_patch_of_trampoline hs f d hk, hl]
  · rw [hd, leadsTo_patch_self hs]
    -- the address was free, or the patch would have changed nothing
    rcases s.patch_cases f d' with ⟨_, e⟩ | ⟨t, ht, hp', _⟩
    · rw [e] at h
      rw [← hd]
      exact hf a d' h
    · rw [hp] at hp'
      cases hp'
      simp [leadsTo, hp, leads, ht, origin]

theorem faithful_patchAll {s : Patched ι α δ} (hs : Sound owner s) (hf : Faithful owner s)
    {sites : List (ι × δ)} (ho : ∀ e ∈ sites, owner e.2 = e.1) :
    Faithful owner (s.patchAll sites) :=
  (patchAll_induction (P := fun s => Sound owner s ∧ Faithful owner s) sites
    (fun _ e he h => ⟨sound_patch h.1 (ho e he), faithful_patch h.1 h.2 (ho e he)⟩)
    s ⟨hs, hf⟩).2

omit [DecidableEq ι] in
theorem faithful_enable {s : Patched ι α δ} (hf : Faithful owner s) : Faithful owner s.enable := by
  intro a d h
  rw [enable, detourOf_enableAll] at h
  rw [leadsTo_enable]
  exact hf a d h

theorem ptr_isSome_patch (s : Patched ι α δ) (f : ι) (d : δ) (g : ι) :
    ((s.patch f d).ptr g).isSome = (s.ptr g).isSome := by
  by_cases h : g = f
  · subst h
    rcases s.patch_cases g d with ⟨_, e⟩ | ⟨t, _, hp, e⟩
    · rw [e]
    · simp [e, hp]
  · rw [ptr_patch_ne d s h]

/-- Patches set no null slot and clear no other. -/
theorem ptr_isSome_patchAll (s : Patched ι α δ) (sites : List (ι × δ)) (g : ι) :
    ((s.patchAll sites).ptr g).isSome = (s.ptr g).isSome :=
  patchAll_induction (P := fun t => (t.ptr g).isSome = (s.ptr g).isSome) sites
    (fun t e _ h => (t.ptr_isSome_patch e.1 e.2 g).trans h) s rfl

/-! ## Targets asked for -/

/-- The slots that a run of patches asks to hook, each with the target it then holds. -/
def calls : List (ι × δ) → Patched ι α δ → List (ι × Code α)
  | [], _ => []
  | e :: sites, s => (s.ptr e.1).toList.map (fun t => (e.1, t)) ++ calls sites (s.patch e.1 e.2)

/-- Every slot that is not null is asked for at each of its sites. -/
theorem map_fst_calls (sites : List (ι × δ)) (s : Patched ι α δ) :
    (calls sites s).map Prod.fst = (sites.map Prod.fst).filter fun f => (s.ptr f).isSome := by
  induction sites generalizing s with
  | nil => rfl
  | cons e sites ih =>
    rw [calls, List.map_append, ih, List.map_cons]
    simp only [ptr_isSome_patch]
    cases hp : s.ptr e.1 with
    | none =>
      rw [List.filter_cons_of_neg (by simp [hp])]
      rfl
    | some t =>
      rw [List.filter_cons_of_pos (by simp [hp])]
      rfl

/-- Without a second site of a slot, the targets are what the slots hold at first. -/
theorem calls_eq_filterMap {sites : List (ι × δ)} {s : Patched ι α δ}
    (h : ((sites.map Prod.fst).filter fun f => (s.ptr f).isSome).Nodup) :
    calls sites s = sites.filterMap fun e => (s.ptr e.1).map fun t => (e.1, t) := by
  induction sites generalizing s with
  | nil => rfl
  | cons e sites ih =>
    rw [List.map_cons] at h
    cases hp : s.ptr e.1 with
    | none =>
      have hpatch : s.patch e.1 e.2 = s := by
        unfold patch
        rw [hp]
      rw [List.filter_cons_of_neg (by simp [hp])] at h
      rw [calls, hpatch, hp, List.filterMap_cons_none (by rw [hp]; rfl), ih h]
      rfl
    | some t =>
      rw [List.filter_cons_of_pos (by simp [hp]), List.nodup_cons] at h
      obtain ⟨hfresh, hrest⟩ := h
      have hsame : ∀ e' ∈ sites, (s.patch e.1 e.2).ptr e'.1 = s.ptr e'.1 := by
        intro e' he'
        by_cases hslot : e'.1 = e.1
        · -- another site of this slot would be asked for too
          refine absurd (List.mem_filter.mpr ⟨?_, ?_⟩) hfresh
          · exact hslot ▸ List.mem_map_of_mem he'
          · simp [hp]
        · exact ptr_patch_ne e.2 s hslot
      have hih := ih (s := s.patch e.1 e.2) (by simpa only [ptr_isSome_patch] using hrest)
      rw [calls, hih, hp, List.filterMap_cons_some (by rw [hp]; rfl)]
      rw [List.filterMap_congr fun e' he' => by rw [hsame e' he']]
      rfl

end Patched
