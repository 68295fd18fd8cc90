import Mathlib.Data.BitVec
import Mathlib.Tactic.Ring

/-!
# Byte streams

Integers of a fixed width and length-prefixed strings written to and read from lists
of bytes. Proved here:

* `leNat_leBytes`, `leBytes_leNat`: numbers below `256 ^ n` are lists of `n` bytes;
* `readWord_encode`, `readWord_eq_some`: what a reader gets of a word in its byte order
  (`ByteOrder`), and that it gets nothing past the end;
* `StringFormat.write_injective`: self-delimiting strings are told apart;
* `bigEndian`, `sevenBitString`: formats as network streams use them.
-/

namespace ByteStream

/-! ## Numbers as bytes -/

/-- The `n` lowest bytes of a number, the lowest first. -/
def leBytes : Nat → Nat → List UInt8
  | 0, _ => []
  | n + 1, v => UInt8.ofNat v :: leBytes n (v / 256)

/-- The number of a list of bytes, the lowest first. -/
def leNat : List UInt8 → Nat
  | [] => 0
  | b :: bs => b.toNat + 256 * leNat bs

@[simp] theorem length_leBytes (n v : Nat) : (leBytes n v).length = n := by
  induction n generalizing v with
  | zero => rfl
  | succ n ih => rw [leBytes, List.length_cons, ih]

theorem leNat_lt (bs : List UInt8) : leNat bs < 256 ^ bs.length := by
  induction bs with
  | nil => exact Nat.one_pos
  | cons b bs ih =>
    have hb : b.toNat < 256 := b.toNat_lt
    rw [leNat, List.length_cons, pow_succ]
    omega

theorem leNat_leBytes {n v : Nat} (h : v < 256 ^ n) : leNat (leBytes n v) = v := by
  induction n generalizing v with
  | zero =>
    have hv : v = 0 := by simpa using h
    rw [hv]
    rfl
  | succ n ih =>
    have hdiv : v / 256 < 256 ^ n := by
      rw [pow_succ] at h
      omega
    rw [leBytes, leNat, ih hdiv, UInt8.toNat_ofNat']
    omega

theorem leBytes_leNat (bs : List UInt8) : leBytes bs.length (leNat bs) = bs := by
  induction bs with
  | nil => rfl
  | cons b bs ih =>
    have hb : b.toNat < 256 := b.toNat_lt
    have hlow : UInt8.ofNat (b.toNat + 256 * leNat bs) = b := by
      apply UInt8.toNat_inj.mp
      rw [UInt8.toNat_ofNat']
      omega
    have hrest : (b.toNat + 256 * leNat bs) / 256 = leNat bs := by omega
    rw [List.length_cons, leNat, leBytes, hlow, hrest, ih]

/-! ## Words -/

/-- How words of a fixed width are written: one to one with the lists of as many bytes. -/
structure ByteOrder where
  encode : (n : Nat) → BitVec (8 * n) → List UInt8
  decode : (n : Nat) → List UInt8 → BitVec (8 * n)
  length_encode : ∀ n v, (encode n v).length = n
  decode_encode : ∀ n v, decode n (encode n v) = v
  encode_decode : ∀ n bs, bs.length = n → encode n (decode n bs) = bs

attribute [simp] ByteOrder.length_encode ByteOrder.decode_encode

/-- Read a word of `n` bytes, unless that goes past the end. -/
def readWord (B : ByteOrder) (n : Nat) (bs : List UInt8) : Option (BitVec (8 * n) × List UInt8) :=
  if n ≤ bs.length then some (B.decode n (bs.take n), bs.drop n) else none

variable {B : ByteOrder}

theorem readWord_encode (n : Nat) (v : BitVec (8 * n)) (rest : List UInt8) :
    readWord B n (B.encode n v ++ rest) = some (v, rest) := by
  have hlen := B.length_encode n v
  have hle : n ≤ (B.encode n v ++ rest).length := by
    rw [List.length_append, hlen]
    omega
  rw [readWord, if_pos hle, List.take_left' hlen, List.drop_left' hlen, B.decode_encode]

theorem readWord_eq_some {n : Nat} {bs rest : List UInt8} {v : BitVec (8 * n)} :
    readWord B n bs = some (v, rest) ↔ bs = B.encode n v ++ rest := by
  constructor
  · intro h
    unfold readWord at h
    split at h
    case isTrue hle =>
      cases h
      have hlen : (bs.take n).length = n := List.length_take_of_le hle
      rw [B.encode_decode n _ hlen, List.take_append_drop]
    case isFalse => cases h
  · rintro rfl
    exact readWord_encode n v rest

/-- Words in network byte order. -/
def bigEndian : ByteOrder where
  encode n v := (leBytes n v.toNat).reverse
  decode n bs := BitVec.ofNat _ (leNat bs.reverse)
  length_encode n v := by rw [List.length_reverse, length_leBytes]
  decode_encode n v := by
    have hlt : v.toNat < 256 ^ n := by
      have h := v.isLt
      rwa [pow_mul] at h
    rw [List.reverse_reverse, leNat_leBytes hlt, BitVec.ofNat_toNat, BitVec.setWidth_eq]
  encode_decode n bs h := by
    have hlt : leNat bs.reverse < 2 ^ (8 * n) := by
      have h' := leNat_lt bs.reverse
      rwa [List.length_reverse, h, ← show (2 ^ 8 : Nat) = 256 from rfl, ← pow_mul] at h'
    have hback := leBytes_leNat bs.reverse
    rw [List.length_reverse, h] at hback
    rw [BitVec.toNat_ofNat, Nat.mod_eq_of_lt hlt, hback, List.reverse_reverse]

/-! ## Strings -/

/-- A self-delimiting format of byte strings. -/
structure StringFormat where
  write : List UInt8 → List UInt8
  read : List UInt8 → Option (List UInt8 × List UInt8)
  read_write : ∀ m rest, read (write m ++ rest) = some (m, rest)

theorem StringFormat.write_injective (S : StringFormat) {m m' : List UInt8}
    (h : S.write m = S.write m') : m = m' := by
  have h₁ := S.read_write m []
  have h₂ := S.read_write m' []
  rw [h, h₂, Option.some.injEq, Prod.mk.injEq] at h₁
  exact h₁.1.symm

/-- A number in groups of seven bits, the lowest first; the top bit says that more
follow. -/
def sevenBit (n : Nat) : List UInt8 :=
  if n < 128 then [UInt8.ofNat n] else UInt8.ofNat (n % 128 + 128) :: sevenBit (n / 128)
termination_by n
decreasing_by omega

def readSevenBit : List UInt8 → Option (Nat × List UInt8)
  | [] => none
  | b :: bs =>
    if b.toNat < 128 then some (b.toNat, bs)
    else (readSevenBit bs).map fun r => (b.toNat - 128 + 128 * r.1, r.2)

theorem readSevenBit_sevenBit (n : Nat) (rest : List UInt8) :
    readSevenBit (sevenBit n ++ rest) = some (n, rest) := by
  induction n using Nat.strongRecOn with
  | ind n ih =>
    unfold sevenBit
    by_cases hn : n < 128
    · have hb : (UInt8.ofNat n).toNat = n := by
        rw [UInt8.toNat_ofNat']
        omega
      rw [if_pos hn, List.singleton_append, readSevenBit, hb, if_pos hn]
    · have hb : (UInt8.ofNat (n % 128 + 128)).toNat = n % 128 + 128 := by
        rw [UInt8.toNat_ofNat']
        omega
      have hge : ¬n % 128 + 128 < 128 := by omega
      have hsum : n % 128 + 128 - 128 + 128 * (n / 128) = n := by omega
      rw [if_neg hn, List.cons_append, readSevenBit, hb, if_neg hge, ih (n / 128) (by omega),
        Option.map_some, hsum]

/-- Strings behind their length in groups of seven bits. -/
def sevenBitString : StringFormat where
  write m := sevenBit m.length ++ m
  read bs := (readSevenBit bs).bind fun r =>
    if r.1 ≤ r.2.length then some (r.2.take r.1, r.2.drop r.1) else none
  read_write m rest := by
    rw [List.append_assoc, readSevenBit_sevenBit, Option.bind_some]
    have hle : m.length ≤ (m ++ rest).length := by simp
    rw [if_pos hle, List.take_left, List.drop_left]

theorem length_write_sevenBitString {m : List UInt8} (h : m.length < 128) :
    (sevenBitString.write m).length = m.length + 1 := by
  change (sevenBit m.length ++ m).length = _
  rw [sevenBit, if_pos h, List.length_append, List.length_singleton, Nat.add_comm]

end ByteStream
