import Mathlib.Algebra.Ring.Int.Defs
import Mathlib.Data.List.Basic

/-!
# Parameters in machine words

A C call passes each argument in a slot of one machine word. An `int` fills the
low 32 bits of its slot; what the upper bits of a wider slot hold is up to the
compiler of the call (`Abi`), which may leave there what came in with the value.
A callee that takes the same slot for a word-sized value reads all of it. Proved
here:

* `read_pass`: a parameter read at the type it was passed at is the argument;
* `relay_same`, `relay_int`, `relay_narrowed`, `relay_extended`: what arrives
  behind a function that reads a parameter and passes it on, by the types on the way;
* `signExtend_low_iff`, `passInt_of_width`: which words an `int` on the way keeps.
-/

namespace ParamSlots

/-- `int`, or a type of pointer size. -/
inductive CType where
  | int | word
  deriving DecidableEq, Repr

/-- A value of one of these types, for words of `w` bits. -/
inductive CVal (w : Nat) where
  | int (d : BitVec 32)
  | word (x : BitVec w)
  deriving DecidableEq, Repr

/-- How a compiler fills the slot of an `int`, when the value came in the slot
`stale`. -/
structure Abi (w : Nat) where
  passInt : BitVec w → BitVec 32 → BitVec w
  low_passInt : ∀ stale d, (passInt stale d).setWidth 32 = d

/-- The compilers that zero-extend, for words of 64 bits. -/
def Abi.zeroExtending : Abi 64 where
  passInt _ d := d.setWidth 64
  low_passInt _ d := by simp

variable {w : Nat}

def CVal.type : CVal w → CType
  | .int _ => .int
  | .word _ => .word

/-- The slot of an argument. -/
def Abi.pass (abi : Abi w) (stale : BitVec w) : CVal w → BitVec w
  | .int d => abi.passInt stale d
  | .word x => x

/-- A parameter of a given type, read from its slot. -/
def CType.read : CType → BitVec w → CVal w
  | .int, s => .int (s.setWidth 32)
  | .word, s => .word s

/-- The implicit conversion of a value. -/
def CType.convert : CType → CVal w → CVal w
  | .int, .int d => .int d
  | .int, .word x => .int (x.setWidth 32)
  | .word, .int d => .word (d.signExtend w)
  | .word, .word x => .word x

/-! ## One parameter -/

theorem read_pass (abi : Abi w) (stale : BitVec w) (v : CVal w) :
    v.type.read (abi.pass stale v) = v := by
  cases v with
  | int d => exact congrArg CVal.int (abi.low_passInt stale d)
  | word x => rfl

/-- What a callee of type `real` finds when `v` went through a function that
reads it at type `own` and passes it on at type `typedef`. -/
def relay (abi : Abi w) (real own typedef : CType) (v : CVal w) : CVal w :=
  let slot := abi.pass 0 v
  real.read (abi.pass slot (typedef.convert (own.read slot)))

theorem relay_same (abi : Abi w) (v : CVal w) : relay abi v.type v.type v.type v = v := by
  have hc : v.type.convert v = v := by
    cases v <;> rfl
  simp only [relay, read_pass, hc]

theorem low_signExtend (hw : 32 ≤ w) (d : BitVec 32) : (d.signExtend w).setWidth 32 = d := by
  apply BitVec.eq_of_getLsbD_eq
  intro i hi
  rw [BitVec.getLsbD_setWidth, BitVec.getLsbD_signExtend]
  simp [hi, show i < w by omega]

/-- A wider type on the way does not change an `int`. -/
theorem relay_int (abi : Abi w) (hw : 32 ≤ w) (d : BitVec 32) :
    relay abi .int .int .word (.int d) = .int d := by
  simp only [relay, Abi.pass, CType.read, CType.convert, abi.low_passInt, low_signExtend hw]

/-- A word read and passed on as `int` keeps its low half. -/
theorem relay_narrowed (abi : Abi w) (x : BitVec w) :
    relay abi .word .int .int (.word x) = .word (abi.passInt x (x.setWidth 32)) := rfl

/-- A word read as `int` and passed on as a word is its low half sign-extended. -/
theorem relay_extended (abi : Abi w) (x : BitVec w) :
    relay abi .word .int .word (.word x) = .word ((x.setWidth 32).signExtend w) := rfl

/-- Sign extension gives back the words that are numbers of 32 bits. -/
theorem signExtend_low_iff (hw : 32 ≤ w) (x : BitVec w) :
    (x.setWidth 32).signExtend w = x ↔ -2 ^ 31 ≤ x.toInt ∧ x.toInt < 2 ^ 31 := by
  have hlow : (x.setWidth 32).toInt = x.toInt.bmod (2 ^ 32) := by
    rw [← BitVec.signExtend_eq_setWidth_of_le x hw,
      BitVec.toInt_signExtend_eq_toInt_bmod_of_le x hw]
  rw [← BitVec.toInt_inj, BitVec.toInt_signExtend_of_le hw, hlow, Int.bmod_def]
  omega

/-- A word of 32 bits has one slot. -/
theorem passInt_of_width (abi : Abi 32) (x : BitVec 32) : abi.passInt x (x.setWidth 32) = x := by
  have h := abi.low_passInt x x
  rw [BitVec.setWidth_eq] at h ⊢
  exact h

/-! ## Parameter lists -/

/-- `relay` for each parameter of a call. -/
def relayAll (abi : Abi w) :
    List CType → List CType → List CType → List (CVal w) → List (CVal w)
  | real :: reals, own :: owns, typedef :: typedefs, v :: vs =>
    relay abi real own typedef v :: relayAll abi reals owns typedefs vs
  | _, _, _, _ => []

end ParamSlots
