import Mathlib.Logic.Function.Basic

/-!
# Inline assembly of 32-bit x86 code

Blocks of the instructions that a hand-written call needs: `push`, `call`,
`add esp`, `mov` to a variable, `cmp` with `jge`, and `jmp`. The operands are
variables of the enclosing function, the registers `eax` and `edx`, and
constants. A call follows cdecl: the callee finds its parameters on the stack,
the last one pushed first, and the caller drops them again; every register and
flag is the callee's to change. Proved here:

* `jge_after_cmp`, `exec_branch`: `cmp a, b` and `jge` jump exactly when `b ≤ a`
  as signed numbers;
* `exec_pushes`, `exec_cdecl`: pushing the arguments, calling and dropping them
  is one call that leaves stack and variables as they were.
-/

namespace InlineAsm

abbrev Dword := BitVec 32

inductive Reg where
  | eax | edx
  deriving DecidableEq, Repr

inductive Operand (ν : Type) where
  | imm (d : Dword)
  | reg (r : Reg)
  | var (v : ν)
  deriving DecidableEq, Repr

/-- Instructions over variables `ν`, labels `lab` and call operands `φ`. -/
inductive Instr (ν lab φ : Type) where
  | push (o : Operand ν)
  | call (f : φ)
  | addEsp (n : Nat)
  | mov (v : ν) (o : Operand ν)
  | cmp (a b : Operand ν)
  | jge (l : lab)
  | jmp (l : lab)
  | label (l : lab)
  deriving DecidableEq, Repr

/-- The registers and the flags SF and OF. -/
structure Regs where
  eax : Dword
  edx : Dword
  sf : Bool
  of : Bool
  deriving DecidableEq, Repr

/-- `stack` lists the dwords from `esp` upwards, `calls` the code called so far
with the stack it found above its return address. -/
structure State (ν γ : Type) where
  regs : Regs
  vars : ν → Dword
  stack : List Dword
  calls : List (γ × List Dword)

/-- What a call operand points to, null being `none`, and what called code
leaves in the registers. -/
structure Env (φ γ : Type) where
  target : φ → Option γ
  returns : γ → List Dword → Regs

/-- Why a block does not run to its end. -/
inductive Stop (lab φ : Type) where
  | nullCall (f : φ)
  | noLabel (l : lab)
  | stackFault
  | fuel
  deriving DecidableEq, Repr

variable {ν lab φ γ : Type}

def Regs.get (r : Regs) : Reg → Dword
  | .eax => r.eax
  | .edx => r.edx

/-- `cmp a, b` subtracts and keeps the flags only. -/
def Regs.cmp (r : Regs) (a b : Dword) : Regs :=
  { r with sf := (a - b).msb, of := a.ssubOverflow b }

def State.value (s : State ν γ) : Operand ν → Dword
  | .imm d => d
  | .reg r => s.regs.get r
  | .var v => s.vars v

/-- The code behind a label. -/
def after [DecidableEq lab] (l : lab) : List (Instr ν lab φ) → Option (List (Instr ν lab φ))
  | [] => none
  | .label l' :: prog => if l' = l then some prog else after l prog
  | _ :: prog => after l prog

/-- `push` each variable, in order. -/
def pushes (args : List ν) : List (Instr ν lab φ) := args.map fun v => .push (.var v)

@[simp] theorem pushes_cons (v : ν) (args : List ν) :
    (pushes (v :: args) : List (Instr ν lab φ)) = .push (.var v) :: pushes args := rfl

@[simp] theorem length_pushes (args : List ν) :
    (pushes args : List (Instr ν lab φ)).length = args.length := List.length_map _

@[simp] theorem after_pushes [DecidableEq lab] (l : lab) (args : List ν)
    (rest : List (Instr ν lab φ)) : after l (pushes args ++ rest) = after l rest := by
  induction args with
  | nil => rfl
  | cons v args ih => exact ih

section Exec

variable [DecidableEq ν] [DecidableEq lab] (E : Env φ γ) (prog : List (Instr ν lab φ))

/-- Run the rest of a block, in at most `fuel` instructions. -/
def exec : Nat → List (Instr ν lab φ) → State ν γ → Except (Stop lab φ) (State ν γ)
  | _, [], s => .ok s
  | 0, _ :: _, _ => .error .fuel
  | fuel + 1, .push o :: rest, s => exec fuel rest { s with stack := s.value o :: s.stack }
  | fuel + 1, .call f :: rest, s =>
    match E.target f with
    | none => .error (.nullCall f)
    | some c =>
      exec fuel rest
        { s with regs := E.returns c s.stack, calls := s.calls ++ [(c, s.stack)] }
  | fuel + 1, .addEsp n :: rest, s =>
    if n % 4 = 0 ∧ n / 4 ≤ s.stack.length then
      exec fuel rest { s with stack := s.stack.drop (n / 4) }
    else .error .stackFault
  | fuel + 1, .mov v o :: rest, s =>
    exec fuel rest { s with vars := Function.update s.vars v (s.value o) }
  | fuel + 1, .cmp a b :: rest, s =>
    exec fuel rest { s with regs := s.regs.cmp (s.value a) (s.value b) }
  | fuel + 1, .jge l :: rest, s =>
    if s.regs.sf = s.regs.of then
      match after l prog with
      | none => .error (.noLabel l)
      | some code => exec fuel code s
    else exec fuel rest s
  | fuel + 1, .jmp l :: _, s =>
    match after l prog with
    | none => .error (.noLabel l)
    | some code => exec fuel code s
  | fuel + 1, .label _ :: rest, s => exec fuel rest s

/-- Run a whole block; without jumps back its length is enough fuel. -/
def run (s : State ν γ) : Except (Stop lab φ) (State ν γ) := exec E prog prog.length prog s

end Exec

/-! ## Signed comparison -/

/-- The flags of a subtraction compare the operands as signed numbers. -/
theorem jge_after_cmp (r : Regs) (a b : Dword) :
    ((r.cmp a b).sf = (r.cmp a b).of) ↔ b.toInt ≤ a.toInt := by
  have ha := a.toInt_lt
  have ha' := a.le_toInt
  have hb := b.toInt_lt
  have hb' := b.le_toInt
  have hs : (a - b).msb = decide ((a.toInt - b.toInt).bmod (2 ^ 32) < 0) := by
    rw [BitVec.msb_eq_toInt, BitVec.toInt_sub]
  have ho : a.ssubOverflow b =
      decide (2 ^ 31 ≤ a.toInt - b.toInt ∨ a.toInt - b.toInt < -2 ^ 31) := by
    simp [BitVec.ssubOverflow]
  simp only [Regs.cmp, hs, ho, decide_eq_decide]
  rw [Int.bmod_def]
  omega

section Rules

variable [DecidableEq ν] [DecidableEq lab] {E : Env φ γ} {prog : List (Instr ν lab φ)}

/-- **The branch rule.** -/
theorem exec_branch (a b : Operand ν) {l : lab} {code : List (Instr ν lab φ)}
    (hl : after l prog = some code) (rest : List (Instr ν lab φ)) (fuel : Nat) (s : State ν γ) :
    exec E prog (fuel + 2) (.cmp a b :: .jge l :: rest) s =
      exec E prog fuel (if (s.value b).toInt ≤ (s.value a).toInt then code else rest)
        { s with regs := s.regs.cmp (s.value a) (s.value b) } := by
  have hj := jge_after_cmp s.regs (s.value a) (s.value b)
  simp only [exec, hj, hl]
  split <;> rfl

/-! ## Calls -/

theorem exec_pushes (args : List ν) (rest : List (Instr ν lab φ)) (fuel : Nat)
    (s : State ν γ) :
    exec E prog (args.length + fuel) (pushes args ++ rest) s =
      exec E prog fuel rest { s with stack := (args.map s.vars).reverse ++ s.stack } := by
  induction args generalizing s with
  | nil => simp [pushes]
  | cons v args ih =>
    have hf : (v :: args).length + fuel = args.length + fuel + 1 := by
      rw [List.length_cons]
      omega
    rw [hf, pushes_cons, List.cons_append, exec, ih]
    simp [State.value]

/-- **The call rule**, for the variables `args` as arguments. -/
theorem exec_cdecl (args : List ν) (f : φ) {n k : Nat} (hn : n = 4 * args.length)
    (fuel : Nat) (hk : k = args.length + (fuel + 2)) (rest : List (Instr ν lab φ))
    (s : State ν γ) :
    exec E prog k (pushes args ++ .call f :: .addEsp n :: rest) s =
      match E.target f with
      | none => .error (.nullCall f)
      | some c =>
        let stack := (args.map s.vars).reverse ++ s.stack
        exec E prog fuel rest
          { s with regs := E.returns c stack, calls := s.calls ++ [(c, stack)] } := by
  subst hn hk
  rw [exec_pushes, exec]
  cases E.target f with
  | none => rfl
  | some c =>
    have hlen : (args.map s.vars).reverse.length = args.length := by simp
    have hdrop : ((args.map s.vars).reverse ++ s.stack).drop args.length = s.stack := by
      rw [← hlen, List.drop_left]
    have hle : args.length ≤ ((args.map s.vars).reverse ++ s.stack).length := by
      simp
    simp only [exec]
    rw [if_pos ⟨by omega, by omega⟩, show 4 * args.length / 4 = args.length by omega, hdrop]

end Rules

end InlineAsm
