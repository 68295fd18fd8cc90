import Odbk.Lib.ByteStream

/-!
# Byte memories and pointers into an image

A partial memory of bytes, words and strings read from it, and computations that follow
pointers and record them. Proved here:

* `Memory.wordAt_iff`: where the elements of an array lie;
* `result_bind`, `exactAt_bind`: what a sequence of reads returns, and when every pointer
  it used is the base plus an offset;
* `truncAdd_eq_iff`: when an addition in fewer bits is exact.
-/

namespace ByteMemory

open ByteStream

/-! ## Reading -/

/-- The bytes of an address space; `none` is not mapped, and the null page never is. -/
structure Memory (w : Nat) where
  byte : BitVec w → Option UInt8
  null : byte 0 = none

variable {w : Nat}

def Memory.bytes (m : Memory w) : Nat → BitVec w → Option (List UInt8)
  | 0, _ => some []
  | n + 1, a =>
    match m.byte a, m.bytes n (a + 1) with
    | some b, some bs => some (b :: bs)
    | _, _ => none

/-- The word of `n` bytes at an address, the lowest byte first. -/
def Memory.word (m : Memory w) (n : Nat) (a : BitVec w) : Option (BitVec (8 * n)) :=
  (m.bytes n a).map fun bs => BitVec.ofNat _ (leNat bs)

/-- The word of `n` bytes at an index of the array at an address. -/
def Memory.WordAt (m : Memory w) (n : Nat) : BitVec w → Nat → BitVec (8 * n) → Prop
  | a, 0, x => m.word n a = some x
  | a, i + 1, x => m.WordAt n (a + BitVec.ofNat w n) i x

/-- The bytes up to the first zero byte, if it is one of the first `fuel`. -/
def Memory.stringUpTo (m : Memory w) : Nat → BitVec w → Option (List UInt8)
  | 0, _ => none
  | fuel + 1, a =>
    match m.byte a with
    | none => none
    | some b => if b = 0 then some [] else (m.stringUpTo fuel (a + 1)).map fun s => b :: s

/-- The zero-terminated string at an address. -/
def Memory.string (m : Memory w) (a : BitVec w) : Option (List UInt8) := m.stringUpTo (2 ^ w) a

theorem Memory.word_null (m : Memory w) (n : Nat) : m.word (n + 1) 0 = none := by
  rw [Memory.word, Memory.bytes, m.null]
  rfl

/-- **Arrays.** The elements of an array lie `n` bytes apart. -/
theorem Memory.wordAt_iff {m : Memory w} {n : Nat} {a : BitVec w} {i : Nat}
    {x : BitVec (8 * n)} :
    m.WordAt n a i x ↔ m.word n (a + BitVec.ofNat w (n * i)) = some x := by
  induction i generalizing a with
  | zero => rw [Memory.WordAt, Nat.mul_zero, BitVec.add_zero]
  | succ i ih =>
    have hnext : a + BitVec.ofNat w n + BitVec.ofNat w (n * i) =
        a + BitVec.ofNat w (n * (i + 1)) := by
      rw [BitVec.add_assoc, ← BitVec.ofNat_add, Nat.mul_succ, Nat.add_comm n]
    rw [Memory.WordAt, ih, hnext]

/-! ## Computations that use pointers -/

/-- A use of a pointer: the offset from the base it stands for, and its value. -/
structure Deref (w : Nat) where
  offset : Int
  address : BitVec w
  deriving DecidableEq, Repr

/-- The pointers a computation used and what it returned; `none` is an access to memory
that is not mapped. -/
structure Access (w : Nat) (α : Type) where
  log : List (Deref w)
  result : Option α

namespace Access

variable {α β : Type}

def pure (a : α) : Access w α := ⟨[], some a⟩

/-- An endless computation that uses no more pointers. -/
def diverge : Access w α := ⟨[], none⟩

def bind (x : Access w α) (f : α → Access w β) : Access w β :=
  match x.result with
  | none => ⟨x.log, none⟩
  | some a => ⟨x.log ++ (f a).log, (f a).result⟩

instance : Monad (Access w) where
  pure := Access.pure
  bind := Access.bind

@[simp] theorem result_pure (a : α) : (Pure.pure a : Access w α).result = some a := rfl

@[simp] theorem result_bind (x : Access w α) (f : α → Access w β) :
    (x >>= f).result = x.result.bind fun a => (f a).result := by
  show (Access.bind x f).result = _
  unfold Access.bind
  cases x.result <;> rfl

theorem log_bind_of_some {x : Access w α} {a : α} (h : x.result = some a) (f : α → Access w β) :
    (x >>= f).log = x.log ++ (f a).log := by
  show (Access.bind x f).log = _
  unfold Access.bind
  rw [h]

theorem log_bind_of_none {x : Access w α} (h : x.result = none) (f : α → Access w β) :
    (x >>= f).log = x.log := by
  show (Access.bind x f).log = _
  unfold Access.bind
  rw [h]

end Access

/-- A guarded computation: a fault ends it and goes no further. -/
def Access.attempt {α : Type} (x : Access w α) : Access w (Option α) := ⟨x.log, some x.result⟩

@[simp] theorem Access.result_attempt {α : Type} (x : Access w α) :
    x.attempt.result = some x.result := rfl

/-- Read a word through a pointer. -/
def Memory.readWord (m : Memory w) (n : Nat) (offset : Int) (address : BitVec w) :
    Access w (BitVec (8 * n)) :=
  ⟨[⟨offset, address⟩], m.word n address⟩

/-- Read a string through a pointer. -/
def Memory.readString (m : Memory w) (offset : Int) (address : BitVec w) :
    Access w (List UInt8) :=
  ⟨[⟨offset, address⟩], m.string address⟩

@[simp] theorem result_readWord (m : Memory w) (n : Nat) (offset : Int) (address : BitVec w) :
    (m.readWord n offset address).result = m.word n address := rfl

@[simp] theorem result_readString (m : Memory w) (offset : Int) (address : BitVec w) :
    (m.readString offset address).result = m.string address := rfl

/-! ## Exact pointers -/

/-- The pointer is the base plus its offset. -/
def Deref.Exact (base : BitVec w) (d : Deref w) : Prop :=
  d.address = base + BitVec.ofInt w d.offset

/-- Every pointer used is exact. -/
def Access.ExactAt {α : Type} (base : BitVec w) (x : Access w α) : Prop :=
  ∀ d ∈ x.log, d.Exact base

section Exact

variable {α β : Type} {base : BitVec w}

theorem exactAt_pure (a : α) : (Pure.pure a : Access w α).ExactAt base := by
  intro d hd
  cases hd

theorem exactAt_bind {x : Access w α} {f : α → Access w β} :
    (x >>= f).ExactAt base ↔
      x.ExactAt base ∧ ∀ a, x.result = some a → (f a).ExactAt base := by
  cases hx : x.result with
  | none =>
    rw [Access.ExactAt, Access.log_bind_of_none hx]
    exact ⟨fun h => ⟨h, fun a ha => by cases ha⟩, fun h => h.1⟩
  | some a =>
    rw [Access.ExactAt, Access.log_bind_of_some hx]
    constructor
    · intro h
      refine ⟨fun d hd => h d (List.mem_append_left _ hd), fun a' ha' => ?_⟩
      cases ha'
      exact fun d hd => h d (List.mem_append_right _ hd)
    · rintro ⟨hl, hr⟩ d hd
      rcases List.mem_append.mp hd with hd | hd
      · exact hl d hd
      · exact hr a rfl d hd

theorem exactAt_attempt {x : Access w α} : x.attempt.ExactAt base ↔ x.ExactAt base := Iff.rfl

theorem exactAt_readWord (m : Memory w) (n : Nat) (offset : Int) (address : BitVec w) :
    (m.readWord n offset address).ExactAt base ↔ address = base + BitVec.ofInt w offset := by
  constructor
  · exact fun h => h _ List.mem_cons_self
  · intro h d hd
    rw [List.mem_singleton.mp hd]
    exact h

theorem exactAt_readString (m : Memory w) (offset : Int) (address : BitVec w) :
    (m.readString offset address).ExactAt base ↔ address = base + BitVec.ofInt w offset := by
  constructor
  · exact fun h => h _ List.mem_cons_self
  · intro h d hd
    rw [List.mem_singleton.mp hd]
    exact h

end Exact

/-! ## Additions in fewer bits -/

/-- Add in `k` bits and widen the sum with zeros. -/
def truncAdd {k : Nat} (a : BitVec w) (b : BitVec k) : BitVec w :=
  (a.setWidth k + b).setWidth w

/-- **Truncation.** The sum is exact exactly when it fits in `k` bits. -/
theorem truncAdd_eq_iff {k : Nat} (hk : k ≤ w) (a : BitVec w) (b : BitVec k) :
    truncAdd a b = a + b.setWidth w ↔ (a + b.setWidth w).toNat < 2 ^ k := by
  have hdvd : (2 ^ k : Nat) ∣ 2 ^ w := Nat.pow_dvd_pow 2 hk
  have hle : (2 ^ k : Nat) ≤ 2 ^ w := Nat.pow_le_pow_right (by decide) hk
  have hb : b.toNat % 2 ^ w = b.toNat := Nat.mod_eq_of_lt (Nat.lt_of_lt_of_le b.isLt hle)
  have hsum : (a + b.setWidth w).toNat = (a.toNat + b.toNat) % 2 ^ w := by
    rw [BitVec.toNat_add, BitVec.toNat_setWidth, hb]
  have htrunc : (truncAdd a b).toNat = (a + b.setWidth w).toNat % 2 ^ k := by
    rw [hsum, Nat.mod_mod_of_dvd _ hdvd, truncAdd, BitVec.toNat_setWidth, BitVec.toNat_add,
      BitVec.toNat_setWidth, Nat.mod_add_mod]
    exact Nat.mod_eq_of_lt (Nat.lt_of_lt_of_le (Nat.mod_lt _ (Nat.two_pow_pos k)) hle)
  rw [← BitVec.toNat_inj, htrunc]
  constructor
  · intro h
    rw [← h]
    exact Nat.mod_lt _ (Nat.two_pow_pos k)
  · exact Nat.mod_eq_of_lt

/-! ## Images -/

/-- A memory that holds the bytes of an image at an address and nothing else. -/
def loaded (base : BitVec w) (image : List UInt8) (h : base ≠ 0)
    (hfits : base.toNat + image.length ≤ 2 ^ w) : Memory w where
  byte a := image[(a - base).toNat]?
  null := by
    rw [List.getElem?_eq_none_iff, BitVec.toNat_sub]
    have hb : base.toNat ≠ 0 := fun hz => h (BitVec.eq_of_toNat_eq (by simpa using hz))
    have hlt := base.isLt
    have hz : (0 : BitVec w).toNat = 0 := by simp
    rw [hz, Nat.add_zero, Nat.mod_eq_of_lt (by omega)]
    omega

end ByteMemory
