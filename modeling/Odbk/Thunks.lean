import Mathlib.Algebra.Ring.Int.Defs
import Odbk.FinishLoad
import Odbk.Lib.InlineAsm

/-!
# The 32-bit thunks

The backend's `lua_Integer` always has 64 bits. On 32-bit builds four calls go
through hand-written assembly, which passes or takes 64 bits to and from
`lua53.dll` and later, and 32 bits before. Proved here:

* `pushThunk_run`, `luaTointegerxThunk_run`: what each thunk does, on every
  machine and for every pointer it calls through;
* `marshals_iff`: integers go through unchanged in both directions, but for the
  negative ones that a VM before 5.3 returns from `lua_tointegerx`.
-/

namespace Odbk

open InlineAsm

/-! ## `lua_LargeInteger` -/

/-- The halves of the union; `LowPart` is stored first. -/
structure LuaLargeInteger where
  lowPart : BitVec 32
  highPart : BitVec 32
  deriving DecidableEq, Repr

/-- `li.QuadPart = n` -/
def LuaLargeInteger.ofQuadPart (n : BitVec 64) : LuaLargeInteger where
  lowPart := n.extractLsb' 0 32
  highPart := n.extractLsb' 32 32

def LuaLargeInteger.quadPart (li : LuaLargeInteger) : BitVec 64 := li.highPart ++ li.lowPart

@[simp] theorem quadPart_ofQuadPart (n : BitVec 64) :
    (LuaLargeInteger.ofQuadPart n).quadPart = n := by
  have h : ∀ x : BitVec (32 + 32), x.extractLsb' 32 32 ++ x.extractLsb' 0 32 = x := by
    intro x
    exact BitVec.extractLsb'_append_extractLsb'
  exact h n

/-- The low half alone keeps the numbers of 32 bits. -/
theorem toInt_lowPart {n : Int} (hle : -2 ^ 31 ≤ n) (hlt : n < 2 ^ 31) :
    (LuaLargeInteger.ofQuadPart (BitVec.ofInt 64 n)).lowPart.toInt = n := by
  have h64 : (BitVec.ofInt 64 n).toNat = (n % 2 ^ 64).toNat := BitVec.toNat_ofInt n
  rw [LuaLargeInteger.ofQuadPart, BitVec.toInt_extractLsb', h64, Nat.shiftRight_zero, Int.bmod_def]
  omega

/-- A quad with nothing in its high half is not negative. -/
theorem toInt_quadPart_zero (low : BitVec 32) :
    (LuaLargeInteger.quadPart ⟨low, 0⟩).toInt = low.toNat := by
  rw [LuaLargeInteger.quadPart, BitVec.toInt_append]
  simp

/-! ## The code -/

/-- The names the assembly uses. -/
inductive Opd where
  | luaVersion | liLowPart | liHighPart | l | idx | isnum
  deriving DecidableEq, Repr

inductive ThunkLabel where
  | geq530 | ret
  deriving DecidableEq, Repr

abbrev ThunkCode := List (Instr Opd ThunkLabel Fn)

/-- The assembly of the thunks that pass an integer, with the bytes that each
branch takes off the stack. -/
def pushThunkCode (f : Fn) (front : List Opd) (lss geq : Nat) : ThunkCode :=
  .cmp (.var .luaVersion) (.imm 530) :: .jge .geq530 ::
  -- L_LSS_530
  (pushes (.liLowPart :: front) ++ .call f :: .addEsp lss :: .jmp .ret ::
  .label .geq530 ::
  (pushes (.liHighPart :: .liLowPart :: front) ++ .call f :: .addEsp geq ::
  [.label .ret]))

def luaRawgetiThunkCode : ThunkCode := pushThunkCode .luaRawgeti [.idx, .l] 12 16
def luaRawsetiThunkCode : ThunkCode := pushThunkCode .luaRawseti [.idx, .l] 12 16
def luaPushintegerThunkCode : ThunkCode := pushThunkCode .luaPushinteger [.l] 8 12

def luaTointegerxThunkCode : ThunkCode :=
  pushes [.isnum, .idx, .l] ++
  [ .call .luaTointegerx,
    .addEsp 12,
    .mov .liLowPart (.reg .eax),
    .cmp (.var .luaVersion) (.imm 530),
    .jge .geq530,
    -- L_LSS_530
    .jmp .ret,
    .label .geq530,
    .mov .liHighPart (.reg .edx),
    .label .ret ]

/-- The machine when the assembly of a thunk starts, and what the code of the VM
leaves in the registers. -/
structure Machine where
  regs : Regs
  stack : List Dword
  vm : Code Addr → List Dword → Regs

/-- The variables of a thunk: `li`, the copy of `s_ctx->version` and the
parameters. -/
def frame (p : Process) (li : LuaLargeInteger) (parameters : List (Opd × Dword)) : Opd → Dword
  | .luaVersion => BitVec.ofInt 32 p.ctx.version
  | .liLowPart => li.lowPart
  | .liHighPart => li.highPart
  | v => (parameters.lookup v).getD 0

abbrev ThunkState := State Opd (Code Addr)
abbrev ThunkStop := Stop ThunkLabel Fn

def runThunk (p : Process) (m : Machine) (code : ThunkCode) (vars : Opd → Dword) :
    Except ThunkStop ThunkState :=
  run ⟨p.ptr, m.vm⟩ code ⟨m.regs, vars, m.stack, []⟩

/-- `__lua_rawgeti__thunk` -/
def luaRawgetiThunk (p : Process) (m : Machine) (L idx : Dword) (n : BitVec 64) :
    Except ThunkStop ThunkState :=
  runThunk p m luaRawgetiThunkCode (frame p (.ofQuadPart n) [(.l, L), (.idx, idx)])

/-- `__lua_rawseti__thunk` -/
def luaRawsetiThunk (p : Process) (m : Machine) (L idx : Dword) (n : BitVec 64) :
    Except ThunkStop ThunkState :=
  runThunk p m luaRawsetiThunkCode (frame p (.ofQuadPart n) [(.l, L), (.idx, idx)])

/-- `__lua_pushinteger__thunk` -/
def luaPushintegerThunk (p : Process) (m : Machine) (L : Dword) (n : BitVec 64) :
    Except ThunkStop ThunkState :=
  runThunk p m luaPushintegerThunkCode (frame p (.ofQuadPart n) [(.l, L)])

/-- `__lua_tointegerx__thunk` up to its `return`. -/
def luaTointegerxThunk (p : Process) (m : Machine) (L idx isnum : Dword) :
    Except ThunkStop ThunkState :=
  runThunk p m luaTointegerxThunkCode
    (frame p (.ofQuadPart 0) [(.l, L), (.idx, idx), (.isnum, isnum)])

/-- `return li.QuadPart` -/
def returned (s : ThunkState) : BitVec 64 :=
  LuaLargeInteger.quadPart ⟨s.vars .liLowPart, s.vars .liHighPart⟩

/-! ## What the thunks do -/

/-- The dwords passed for the integer: one for a VM before 5.3, two from then on. -/
def integerDwords (vars : Opd → Dword) : List Dword :=
  if 530 ≤ (vars .luaVersion).toInt then [vars .liLowPart, vars .liHighPart]
  else [vars .liLowPart]

/-- **The thunks that pass an integer.** -/
theorem pushThunk_run (p : Process) (m : Machine) (f : Fn) (front : List Opd)
    {lss geq : Nat} (hlss : lss = 4 * (front.length + 1)) (hgeq : geq = 4 * (front.length + 2))
    (vars : Opd → Dword) :
    runThunk p m (pushThunkCode f front lss geq) vars =
      match p.ptr f with
      | none => .error (.nullCall f)
      | some c =>
        let stack := (front.map vars).reverse ++ (integerDwords vars ++ m.stack)
        .ok ⟨m.vm c stack, vars, m.stack, [(c, stack)]⟩ := by
  have hl : after .geq530 (pushThunkCode f front lss geq) =
      some (pushes (.liHighPart :: .liLowPart :: front) ++
        .call f :: .addEsp geq :: [.label .ret]) := by
    simp [pushThunkCode, after]
  have hret : after .ret (pushThunkCode f front lss geq) = some [] := by
    simp [pushThunkCode, after]
  have hlen : (pushThunkCode f front lss geq).length = 2 * front.length + 10 + 2 := by
    simp [pushThunkCode]
    omega
  rw [runThunk, run, hlen]
  conv_lhs =>
    arg 4
    rw [pushThunkCode]
  rw [exec_branch _ _ hl]
  simp only [State.value, show BitVec.toInt (530 : Dword) = 530 from rfl]
  by_cases h : 530 ≤ (vars .luaVersion).toInt
  · rw [if_pos h, exec_cdecl _ f (by simp; omega) (front.length + 6) (by simp; omega)]
    cases hc : p.ptr f with
    | none => simp [hc]
    | some c => simp [hc, exec, integerDwords, h]
  · rw [if_neg h, exec_cdecl _ f (by simp; omega) (front.length + 7) (by simp; omega)]
    cases hc : p.ptr f with
    | none => simp [hc]
    | some c => simp [hc, exec, hret, integerDwords, h]

/-- **`__lua_tointegerx__thunk`.** -/
theorem tointegerxThunk_run (p : Process) (m : Machine) (vars : Opd → Dword) :
    runThunk p m luaTointegerxThunkCode vars =
      match p.ptr .luaTointegerx with
      | none => .error (.nullCall .luaTointegerx)
      | some c =>
        let stack := vars .l :: vars .idx :: vars .isnum :: m.stack
        let r := m.vm c stack
        let low := Function.update vars .liLowPart r.eax
        .ok ⟨r.cmp (vars .luaVersion) 530,
          if 530 ≤ (vars .luaVersion).toInt then Function.update low .liHighPart r.edx else low,
          m.stack, [(c, stack)]⟩ := by
  have hl : after .geq530 luaTointegerxThunkCode =
      some [.mov .liHighPart (.reg .edx), .label .ret] := rfl
  have hret : after .ret luaTointegerxThunkCode = some [] := rfl
  rw [runThunk, run, show luaTointegerxThunkCode.length = 12 from rfl]
  conv_lhs =>
    arg 4
    rw [luaTointegerxThunkCode]
  rw [exec_cdecl _ _ (by rfl) 7 (by rfl)]
  cases hc : p.ptr .luaTointegerx with
  | none => simp [hc]
  | some c =>
    simp only [hc, List.map_cons, List.map_nil, List.reverse_cons, List.reverse_nil,
      List.nil_append, List.cons_append]
    rw [exec, exec_branch _ _ hl]
    simp only [State.value, show BitVec.toInt (530 : Dword) = 530 from rfl]
    by_cases h : 530 ≤ (vars .luaVersion).toInt
    · simp [exec, State.value, Regs.get, Regs.cmp, h]
    · simp [exec, hret, Regs.get, Regs.cmp, h]

/-! ## Marshalling -/

/-- The bits of the VM's own `lua_Integer`. -/
def integerBits (version : Int) : Nat := if 530 ≤ version then 64 else 32

/-- The VM's `lua_Integer` has the value `n`. -/
def IsInteger (version n : Int) : Prop :=
  -2 ^ (integerBits version - 1) ≤ n ∧ n < 2 ^ (integerBits version - 1)

instance (version n : Int) : Decidable (IsInteger version n) := inferInstanceAs (Decidable (_ ∧ _))

/-- What the code of the VM finds in a parameter of type `lua_Integer`. -/
def readInteger (version : Int) : List Dword → Option Int
  | low :: rest =>
    if 530 ≤ version then rest.head?.map fun high => (LuaLargeInteger.quadPart ⟨low, high⟩).toInt
    else some low.toInt
  | [] => none

/-- The `lua_Integer` that the code of the VM returns: `edx:eax`, or `eax`. -/
def returnedInteger (version : Int) (r : Regs) : Int :=
  if 530 ≤ version then (LuaLargeInteger.quadPart ⟨r.eax, r.edx⟩).toInt else r.eax.toInt

/-- The thunk ends, leaves the stack alone and has called `c` once, which found
the parameters and after them the integer `n`. -/
def Delivers (version : Int) (m : Machine) (r : Except ThunkStop ThunkState) (c : Code Addr)
    (parameters : List Dword) (n : Int) : Prop :=
  ∃ s rest, r = .ok s ∧ s.stack = m.stack ∧ s.calls = [(c, parameters ++ rest)] ∧
    readInteger version rest = some n

/-- The thunk ends, leaves the stack alone, has called `c` once with the
parameters and returns `n`. -/
def ReadsBack (m : Machine) (r : Except ThunkStop ThunkState) (c : Code Addr)
    (parameters : List Dword) (n : Int) : Prop :=
  ∃ s, r = .ok s ∧ s.stack = m.stack ∧ s.calls = [(c, parameters ++ m.stack)] ∧
    (returned s).toInt = n

/-- The integer `n` goes through the thunks of a process unchanged, whatever the
machine and the VM do. -/
structure Marshals (p : Process) (n : Int) : Prop where
  pushinteger : ∀ m c L, p.ptr .luaPushinteger = some c →
    Delivers p.ctx.version m (luaPushintegerThunk p m L (.ofInt 64 n)) c [L] n
  rawgeti : ∀ m c L idx, p.ptr .luaRawgeti = some c →
    Delivers p.ctx.version m (luaRawgetiThunk p m L idx (.ofInt 64 n)) c [L, idx] n
  rawseti : ∀ m c L idx, p.ptr .luaRawseti = some c →
    Delivers p.ctx.version m (luaRawsetiThunk p m L idx (.ofInt 64 n)) c [L, idx] n
  tointegerx : ∀ m c L idx isnum, p.ptr .luaTointegerx = some c →
    returnedInteger p.ctx.version (m.vm c (L :: idx :: isnum :: m.stack)) = n →
    ReadsBack m (luaTointegerxThunk p m L idx isnum) c [L, idx, isnum] n
  /-- Push `n`; when the VM then returns the integer it was given, `n` is read. -/
  pushThenRead : ∀ m m' c c' L idx isnum s rest k, p.ptr .luaPushinteger = some c →
    p.ptr .luaTointegerx = some c' →
    luaPushintegerThunk p m L (.ofInt 64 n) = .ok s → s.calls = [(c, L :: rest)] →
    readInteger p.ctx.version rest = some k →
    returnedInteger p.ctx.version (m'.vm c' (L :: idx :: isnum :: m'.stack)) = k →
    ReadsBack m' (luaTointegerxThunk p m' L idx isnum) c' [L, idx, isnum] n

/-- A version that the loader detects is a number the assembly can compare. -/
theorem toInt_version {T : Symbols} {v : LuaVersion} (hv : detectVersion T = some v) :
    (BitVec.ofInt 32 v.version).toInt = v.version := by
  unfold detectVersion at hv
  repeat' split at hv
  all_goals
    cases hv
    try rfl

/-- The dwords passed for an integer of the VM are read as that integer. -/
theorem readInteger_integerDwords {version n : Int} (hn : IsInteger version n)
    (hver : (BitVec.ofInt 32 version).toInt = version) {vars : Opd → Dword}
    (hv : vars .luaVersion = BitVec.ofInt 32 version)
    (hl : vars .liLowPart = (LuaLargeInteger.ofQuadPart (.ofInt 64 n)).lowPart)
    (hh : vars .liHighPart = (LuaLargeInteger.ofQuadPart (.ofInt 64 n)).highPart)
    (rest : List Dword) : readInteger version (integerDwords vars ++ rest) = some n := by
  obtain ⟨hle, hlt⟩ := hn
  by_cases h : 530 ≤ version
  · rw [integerBits, if_pos h] at hle hlt
    rw [integerDwords, hv, hver, if_pos h, hl, hh]
    have hq : (BitVec.ofInt 64 n).toInt = n := BitVec.toInt_ofInt_eq_self (by omega) hle hlt
    have hw : LuaLargeInteger.quadPart
        ⟨(LuaLargeInteger.ofQuadPart (.ofInt 64 n)).lowPart,
          (LuaLargeInteger.ofQuadPart (.ofInt 64 n)).highPart⟩ = .ofInt 64 n :=
      quadPart_ofQuadPart _
    simp only [List.cons_append, readInteger, if_pos h, List.head?_cons, Option.map_some]
    rw [hw, hq]
  · rw [integerBits, if_neg h] at hle hlt
    rw [integerDwords, hv, hver, if_neg h, hl]
    simp only [List.cons_append, readInteger, if_neg h]
    rw [toInt_lowPart hle hlt]

section Version

variable {T : Symbols} {v : LuaVersion} {p : Process} (hv : detectVersion T = some v)
  (hp : p.ctx.version = v.version)

include hv hp

theorem toInt_luaVersion (li : LuaLargeInteger) (parameters : List (Opd × Dword)) :
    (frame p li parameters .luaVersion).toInt = p.ctx.version := by
  have h := toInt_version hv
  rw [← hp] at h
  exact h

/-- The thunks that pass an integer pass each integer of the VM unchanged. -/
theorem delivers_pushThunk (m : Machine) {f : Fn} {front : List Opd} {lss geq : Nat}
    (hlss : lss = 4 * (front.length + 1)) (hgeq : geq = 4 * (front.length + 2)) {c : Code Addr}
    (hc : p.ptr f = some c) {n : Int} (hn : IsInteger p.ctx.version n)
    (parameters : List (Opd × Dword)) :
    Delivers p.ctx.version m
      (runThunk p m (pushThunkCode f front lss geq)
        (frame p (.ofQuadPart (.ofInt 64 n)) parameters))
      c (front.map (frame p (.ofQuadPart (.ofInt 64 n)) parameters)).reverse n := by
  have hrun := pushThunk_run p m f front hlss hgeq
    (frame p (.ofQuadPart (.ofInt 64 n)) parameters)
  rw [hc] at hrun
  refine ⟨_, _, hrun, rfl, rfl, ?_⟩
  have h := toInt_luaVersion hv hp (.ofQuadPart (.ofInt 64 n)) parameters
  exact readInteger_integerDwords hn h rfl rfl rfl m.stack

/-- What `__lua_tointegerx__thunk` returns: before 5.3 the value of `eax` as an
unsigned number. -/
theorem tointegerxThunk_returns (m : Machine) {c : Code Addr}
    (hc : p.ptr .luaTointegerx = some c) (L idx isnum : Dword) :
    ReadsBack m (luaTointegerxThunk p m L idx isnum) c [L, idx, isnum]
      (if 530 ≤ p.ctx.version then
        returnedInteger p.ctx.version (m.vm c (L :: idx :: isnum :: m.stack))
      else (m.vm c (L :: idx :: isnum :: m.stack)).eax.toNat) := by
  have hrun := tointegerxThunk_run p m
    (frame p (.ofQuadPart 0) [(.l, L), (.idx, idx), (.isnum, isnum)])
  rw [hc] at hrun
  refine ⟨_, hrun, rfl, rfl, ?_⟩
  have h := toInt_luaVersion hv hp (.ofQuadPart 0) [(.l, L), (.idx, idx), (.isnum, isnum)]
  simp only [h]
  by_cases hge : 530 ≤ p.ctx.version
  · simp only [if_pos hge, returnedInteger, returned]
    rfl
  · simp only [if_neg hge, returned]
    exact toInt_quadPart_zero _

/-- The thunk reads back what the VM returns from 5.3 on, and before that what
is not negative. -/
theorem readsBack_iff (m : Machine) {c : Code Addr} (hc : p.ptr .luaTointegerx = some c)
    (L idx isnum : Dword) {n : Int}
    (hr : returnedInteger p.ctx.version (m.vm c (L :: idx :: isnum :: m.stack)) = n) :
    ReadsBack m (luaTointegerxThunk p m L idx isnum) c [L, idx, isnum] n ↔
      530 ≤ p.ctx.version ∨ 0 ≤ n := by
  obtain ⟨s, hs, hstack, hcalls, hval⟩ := tointegerxThunk_returns hv hp m hc L idx isnum
  have hdet : ReadsBack m (luaTointegerxThunk p m L idx isnum) c [L, idx, isnum] n ↔
      (returned s).toInt = n := by
    constructor
    · rintro ⟨s', hs', _, _, hn⟩
      rw [hs] at hs'
      cases hs'
      exact hn
    · intro hn
      exact ⟨s, hs, hstack, hcalls, hn⟩
  rw [hdet, hval]
  by_cases hge : 530 ≤ p.ctx.version
  · simp [hge, hr]
  · rw [returnedInteger, if_neg hge, BitVec.toInt_eq_toNat_cond] at hr
    rw [if_neg hge]
    omega

/-- When `n` goes through, some VM returns it and has it read. -/
theorem cond_of_marshals {n : Int} (hn : IsInteger p.ctx.version n) (h : Marshals p n)
    {c : Code Addr} (hc : p.ptr .luaTointegerx = some c) : 530 ≤ p.ctx.version ∨ 0 ≤ n := by
  by_cases hge : 530 ≤ p.ctx.version
  · exact Or.inl hge
  · obtain ⟨hle, hlt⟩ := hn
    rw [integerBits, if_neg hge] at hle hlt
    let m : Machine := ⟨⟨0, 0, false, false⟩, [], fun _ _ => ⟨.ofInt 32 n, 0, false, false⟩⟩
    have hr : returnedInteger p.ctx.version (m.vm c (0 :: 0 :: 0 :: m.stack)) = n := by
      rw [returnedInteger, if_neg hge]
      exact BitVec.toInt_ofInt_eq_self (by omega) hle hlt
    exact (readsBack_iff hv hp m hc 0 0 0 hr).mp (h.tointegerx m c 0 0 0 hc hr)

/-- **Integers go through the thunks unchanged**, but for the negative ones that
a VM before 5.3 returns. -/
theorem marshals_iff {n : Int} (hn : IsInteger p.ctx.version n) :
    Marshals p n ↔ p.ptr .luaTointegerx = none ∨ 530 ≤ p.ctx.version ∨ 0 ≤ n := by
  constructor
  · intro h
    cases hc : p.ptr .luaTointegerx with
    | none => exact Or.inl rfl
    | some c => exact Or.inr (cond_of_marshals hv hp hn h hc)
  · intro h
    have hread : ∀ m c L idx isnum, p.ptr .luaTointegerx = some c →
        returnedInteger p.ctx.version (m.vm c (L :: idx :: isnum :: m.stack)) = n →
        ReadsBack m (luaTointegerxThunk p m L idx isnum) c [L, idx, isnum] n := by
      intro m c L idx isnum hc hr
      refine (readsBack_iff hv hp m hc L idx isnum hr).mpr (h.resolve_left ?_)
      simp [hc]
    have hpush : ∀ m c L, p.ptr .luaPushinteger = some c →
        Delivers p.ctx.version m (luaPushintegerThunk p m L (.ofInt 64 n)) c [L] n := by
      intro m c L hc
      exact delivers_pushThunk hv hp m rfl rfl hc hn _
    constructor
    case pushinteger => exact hpush
    case rawgeti =>
      intro m c L idx hc
      exact delivers_pushThunk hv hp m rfl rfl hc hn _
    case rawseti =>
      intro m c L idx hc
      exact delivers_pushThunk hv hp m rfl rfl hc hn _
    case tointegerx => exact hread
    case pushThenRead =>
      intro m m' c c' L idx isnum s rest k hc hc' hs hcalls hk hr
      obtain ⟨s₁, rest₁, hs₁, _, hcalls₁, hn₁⟩ := hpush m c L hc
      rw [hs] at hs₁
      cases hs₁
      have hrest : rest = rest₁ := by
        simpa [hcalls] using hcalls₁
      rw [← hrest, hk] at hn₁
      cases hn₁
      exact hread m' c' L idx isnum hc' hr

end Version

/-- A process that has loaded a stock Lua 5.2. -/
def lua52Process : Process := freshLoad (fun _ => true) (stockSymbols 4096 lua52Fns)

theorem version_lua52Process : lua52Process.ctx.version = 520 := by
  rw [lua52Process, version_freshLoad _ (detectVersion_lua52 4096)]

theorem tointegerx_lua52Process :
    lua52Process.ptr .luaTointegerx = some (.image (Fn.stockAddr 4096 .luaTointegerx)) := by
  have h := getLuaFn_stockSymbols 4096 lua52Fns .luaTointegerx
  rw [if_pos (by decide)] at h
  have hs : spared (stockSymbols 4096 lua52Fns) .luaTointegerx = false := rfl
  rw [lua52Process, ptr_freshLoad _ (accepts_lua52 4096), hs, if_neg Bool.false_ne_true,
    offer_of_bindNames rfl, h]

theorem marshals_iff_lua52 :
    IsInteger lua52Process.ctx.version (-1) ∧
      (Marshals lua52Process (-1) ↔ lua52Process.ptr .luaTointegerx = none ∨
        530 ≤ lua52Process.ctx.version ∨ (0 : Int) ≤ -1) := by
  have hn : IsInteger lua52Process.ctx.version (-1) := by
    rw [version_lua52Process]
    decide
  exact ⟨hn, marshals_iff (detectVersion_lua52 4096) version_lua52Process hn⟩

/-- With Lua 5.2 the number `-1` is read as another number. -/
theorem lua52_misreads_negative :
    accepts (stockSymbols 4096 lua52Fns) = true ∧ IsInteger lua52Process.ctx.version (-1) ∧
      ¬ Marshals lua52Process (-1) := by
  have hn : IsInteger lua52Process.ctx.version (-1) := by
    rw [version_lua52Process]
    decide
  refine ⟨accepts_lua52 4096, hn, fun h => ?_⟩
  have hc := cond_of_marshals (detectVersion_lua52 4096) version_lua52Process hn h
    tointegerx_lua52Process
  rw [version_lua52Process] at hc
  omega

end Odbk
