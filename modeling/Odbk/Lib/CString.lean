import Mathlib.Data.List.DropRight

/-!
# C strings in buffers of a fixed size

The functions of `string.h` over buffers with a known size. A write that does not fit gives
`none`. Proved here:

* `text_eq_some_iff`: the string that a buffer holds;
* `strcpy_eq`, `strcat_eq`, `strncpy_eq`: what each function needs, and what it leaves;
* `max_lastIdx`: the later one of two searches from the right is a search for either;
* `take_lastIdx`, `drop_lastIdx`: where a search from the right cuts a list.
-/

/-- A NUL-terminated string: its characters. -/
structure CStr where
  chars : List UInt8
  noNul : 0 ∉ chars
  deriving DecidableEq

/-- A `char` array of size `n`, with any content. -/
structure Buffer (n : Nat) where
  bytes : List UInt8
  length_eq : bytes.length = n

/-- A buffer of one byte over and over. -/
def Buffer.filled {n : Nat} (c : UInt8) : Buffer n := ⟨List.replicate n c, List.length_replicate⟩

namespace CStr

@[ext] theorem ext {s t : CStr} (h : s.chars = t.chars) : s = t := by
  cases s
  cases t
  cases h
  rfl

def length (s : CStr) : Nat := s.chars.length

/-- `s + k` for a pointer to the string. -/
def drop (s : CStr) (k : Nat) : CStr :=
  ⟨s.chars.drop k, fun h => s.noNul (List.mem_of_mem_drop h)⟩

def append (s t : CStr) : CStr :=
  ⟨s.chars ++ t.chars, fun h => (List.mem_append.mp h).elim s.noNul t.noNul⟩

instance : Append CStr := ⟨append⟩

@[simp] theorem chars_append (s t : CStr) : (s ++ t).chars = s.chars ++ t.chars := rfl

theorem length_append (s t : CStr) : (s ++ t).length = s.length + t.length :=
  List.length_append

/-- The string in memory. -/
def terminated (s : CStr) : List UInt8 := s.chars ++ [0]

@[simp] theorem length_terminated (s : CStr) : s.terminated.length = s.length + 1 := by
  simp [terminated, length]

end CStr

/-! ## Searches from the right -/

namespace CString

section Search

variable {α : Type} (p q : α → Bool)

/-- The last index at which `p` holds. -/
def lastIdx : List α → Option Nat
  | [] => none
  | x :: l =>
    match lastIdx l with
    | some i => some (i + 1)
    | none => if p x then some 0 else none

/-- `strrchr` for a character other than NUL: an index, or null. -/
def strrchr (s : CStr) (c : UInt8) : Option Nat := lastIdx (fun x => x = c) s.chars

theorem lastIdx_concat (l : List α) (x : α) :
    lastIdx p (l ++ [x]) = if p x then some l.length else lastIdx p l := by
  induction l with
  | nil => rfl
  | cons y l ih =>
    rw [List.cons_append, lastIdx, ih]
    by_cases hx : p x = true
    · rw [if_pos hx, if_pos hx, List.length_cons]
    · rw [if_neg hx, if_neg hx, lastIdx]

/-- **Two searches.** The later result, null before any other, is that of one search. -/
theorem max_lastIdx (l : List α) :
    max (lastIdx p l) (lastIdx q l) = lastIdx (fun x => p x || q x) l := by
  induction l with
  | nil => rfl
  | cons x l ih =>
    rw [lastIdx, lastIdx, lastIdx, ← ih]
    cases lastIdx p l with
    | none =>
      cases lastIdx q l with
      | none => cases p x <;> cases q x <;> rfl
      | some j => cases p x <;> simp
    | some i =>
      cases lastIdx q l with
      | none => cases q x <;> simp
      | some j => simp [Nat.succ_max_succ]

theorem lastIdx_eq_none_iff {l : List α} : lastIdx p l = none ↔ ∀ x ∈ l, p x = false := by
  induction l using List.reverseRecOn with
  | nil => simp [lastIdx]
  | append_singleton l x ih =>
    rw [lastIdx_concat]
    cases hx : p x with
    | true => simp [hx]
    | false =>
      rw [if_neg Bool.false_ne_true, ih, List.forall_mem_append]
      simp [hx]

theorem lastIdx_lt {l : List α} {i : Nat} (h : lastIdx p l = some i) : i < l.length := by
  induction l generalizing i with
  | nil => cases h
  | cons x l ih =>
    rw [lastIdx] at h
    cases hl : lastIdx p l with
    | some j =>
      rw [hl] at h
      cases h
      exact Nat.succ_lt_succ (ih hl)
    | none =>
      rw [hl] at h
      simp only [Option.ite_none_right_eq_some, Option.some.injEq] at h
      rw [← h.2]
      exact Nat.succ_pos _

/-- The part up to the last hit. -/
theorem take_lastIdx {l : List α} {i : Nat} (h : lastIdx p l = some i) :
    l.take (i + 1) = l.rdropWhile fun x => !p x := by
  induction l using List.reverseRecOn with
  | nil => cases h
  | append_singleton l x ih =>
    rw [lastIdx_concat] at h
    cases hx : p x with
    | true =>
      rw [hx, if_pos rfl, Option.some.injEq] at h
      subst h
      rw [List.rdropWhile_concat_neg _ _ _ (by simp [hx])]
      exact List.take_of_length_le (by simp)
    | false =>
      rw [hx, if_neg Bool.false_ne_true] at h
      rw [List.rdropWhile_concat_pos _ _ _ (by simp [hx]), ← ih h]
      exact List.take_append_of_le_length (lastIdx_lt p h)

theorem rdropWhile_of_lastIdx_none {l : List α} (h : lastIdx p l = none) :
    (l.rdropWhile fun x => !p x) = [] := by
  rw [List.rdropWhile_eq_nil_iff]
  intro x hx
  rw [(lastIdx_eq_none_iff p).mp h x hx]
  rfl

theorem rtakeWhile_of_lastIdx_none {l : List α} (h : lastIdx p l = none) :
    (l.rtakeWhile fun x => !p x) = l := by
  rw [List.rtakeWhile_eq_self_iff]
  intro x hx
  rw [(lastIdx_eq_none_iff p).mp h x hx]
  rfl

/-- The part after the last hit. -/
theorem drop_lastIdx {l : List α} {i : Nat} (h : lastIdx p l = some i) :
    l.drop (i + 1) = l.rtakeWhile fun x => !p x := by
  have hsplit := l.rdropWhile_append_rtakeWhile (p := fun x => !p x)
  rw [← take_lastIdx p h] at hsplit
  exact List.append_cancel_left ((List.take_append_drop (i + 1) l).trans hsplit.symm)

/-- Only the second of two lists is cut if it has a hit. -/
theorem rdropWhile_append_of_mem {l l' : List α} {x : α} (hx : x ∈ l') (hp : p x = false) :
    (l ++ l').rdropWhile p = l ++ l'.rdropWhile p := by
  have hne : (l'.reverse.dropWhile p).isEmpty = false := by
    rw [List.isEmpty_eq_false_iff, ne_eq, List.dropWhile_eq_nil_iff]
    intro h
    rw [h x (List.mem_reverse.mpr hx)] at hp
    cases hp
  rw [List.rdropWhile, List.rdropWhile, List.reverse_append, List.dropWhile_append, hne,
    if_neg Bool.false_ne_true, List.reverse_append, List.reverse_reverse]

end Search

/-! ## Buffers -/

section Buffers

variable {n : Nat}

/-- `memcpy` to index `k`; `none` if the bytes do not fit. -/
def memcpy (b : Buffer n) (k : Nat) (src : List UInt8) : Option (Buffer n) :=
  if h : k + src.length ≤ n then
    some ⟨b.bytes.take k ++ src ++ b.bytes.drop (k + src.length), by
      have hb := b.length_eq
      simp only [List.length_append, List.length_take, List.length_drop]
      omega⟩
  else none

/-- The string in a buffer, if it has a NUL. -/
def text (b : Buffer n) : Option CStr :=
  if 0 ∈ b.bytes then
    some ⟨b.bytes.takeWhile fun c => c ≠ 0, fun h => by simpa using List.mem_takeWhile_imp h⟩
  else none

def strcpy (b : Buffer n) (s : CStr) : Option (Buffer n) := memcpy b 0 s.terminated

def strcat (b : Buffer n) (s : CStr) : Option (Buffer n) :=
  (text b).bind fun t => memcpy b t.length s.terminated

/-- `strncpy` cuts off or pads with NULs. -/
def strncpy (b : Buffer n) (s : CStr) (count : Nat) : Option (Buffer n) :=
  memcpy b 0 (s.chars.take count ++ List.replicate (count - s.length) 0)

/-- Every list with a NUL is a string and what follows it. -/
theorem takeWhile_append_nul {l : List UInt8} (h : 0 ∈ l) :
    ∃ rest, l = (l.takeWhile fun c => c ≠ 0) ++ 0 :: rest := by
  induction l with
  | nil => cases h
  | cons c l ih =>
    by_cases hc : c = 0
    · subst hc
      exact ⟨l, by simp⟩
    · rw [List.takeWhile_cons_of_pos (by simpa using hc)]
      obtain ⟨rest, hrest⟩ := ih ((List.mem_cons.mp h).resolve_left (Ne.symm hc))
      exact ⟨rest, congrArg (c :: ·) hrest⟩

theorem text_eq_some_iff {b : Buffer n} {s : CStr} :
    text b = some s ↔ ∃ rest, b.bytes = s.terminated ++ rest := by
  constructor
  · intro h
    unfold text at h
    split at h
    case isTrue hmem =>
      cases h
      obtain ⟨rest, hrest⟩ := takeWhile_append_nul hmem
      exact ⟨rest, hrest.trans (List.append_assoc _ [0] rest).symm⟩
    case isFalse => cases h
  · rintro ⟨rest, hb⟩
    have hne : ∀ c ∈ s.chars, decide (c ≠ 0) = true := fun c hc =>
      decide_eq_true fun h => s.noNul (h ▸ hc)
    have htake : (b.bytes.takeWhile fun c => decide (c ≠ 0)) = s.chars := by
      rw [hb, CStr.terminated, List.append_assoc, List.takeWhile_append_of_pos hne]
      simp
    have hmem : 0 ∈ b.bytes := by simp [hb, CStr.terminated]
    rw [text, if_pos hmem, Option.some.injEq]
    exact CStr.ext htake

theorem length_lt_of_text {b : Buffer n} {s : CStr} (h : text b = some s) : s.length < n := by
  obtain ⟨rest, hb⟩ := text_eq_some_iff.mp h
  have hlen := b.length_eq
  rw [hb, List.length_append, CStr.length_terminated] at hlen
  omega

theorem memcpy_eq (b : Buffer n) {k : Nat} {src : List UInt8} (h : k + src.length ≤ n) :
    ∃ b', memcpy b k src = some b' ∧
      b'.bytes = b.bytes.take k ++ src ++ b.bytes.drop (k + src.length) :=
  ⟨_, dif_pos h, rfl⟩

theorem memcpy_eq_none {b : Buffer n} {k : Nat} {src : List UInt8} (h : n < k + src.length) :
    memcpy b k src = none := by
  rw [memcpy, dif_neg (by omega)]

/-- A string written behind the first characters of a buffer. -/
theorem memcpy_terminated {b : Buffer n} {t s : CStr} {k : Nat} (h : b.bytes.take k = t.chars)
    (hk : k = t.length) (hfit : t.length + s.length < n) :
    ∃ b', memcpy b k s.terminated = some b' ∧ text b' = some (t ++ s) := by
  have hle : k + s.terminated.length ≤ n := by
    rw [CStr.length_terminated]
    omega
  obtain ⟨b', hb', hbytes⟩ := memcpy_eq b hle
  refine ⟨b', hb', text_eq_some_iff.mpr ⟨b.bytes.drop (k + s.terminated.length), ?_⟩⟩
  rw [hbytes, h]
  simp only [CStr.terminated, CStr.chars_append, List.append_assoc]

theorem strcpy_eq (b : Buffer n) {s : CStr} (h : s.length < n) :
    ∃ b', strcpy b s = some b' ∧ text b' = some s := by
  have he : (⟨[], List.not_mem_nil⟩ : CStr) ++ s = s := CStr.ext rfl
  have hb := memcpy_terminated (b := b) (t := ⟨[], List.not_mem_nil⟩) (s := s) (k := 0) rfl rfl
    (by rw [show CStr.length ⟨[], _⟩ = 0 from rfl]; omega)
  rwa [he] at hb

theorem strcpy_eq_none (b : Buffer n) {s : CStr} (h : n ≤ s.length) : strcpy b s = none :=
  memcpy_eq_none (by rw [CStr.length_terminated]; omega)

theorem strcat_eq {b : Buffer n} {t s : CStr} (hb : text b = some t)
    (h : t.length + s.length < n) : ∃ b', strcat b s = some b' ∧ text b' = some (t ++ s) := by
  obtain ⟨rest, hbytes⟩ := text_eq_some_iff.mp hb
  have htake : b.bytes.take t.length = t.chars := by
    rw [hbytes, CStr.terminated, List.append_assoc, CStr.length, List.take_left]
  rw [strcat, hb, Option.bind_some]
  exact memcpy_terminated htake rfl h

theorem strcat_eq_none {b : Buffer n} {t s : CStr} (hb : text b = some t)
    (h : n ≤ t.length + s.length) : strcat b s = none := by
  rw [strcat, hb, Option.bind_some]
  exact memcpy_eq_none (by rw [CStr.length_terminated]; omega)

/-- Over a whole buffer `strncpy` fits, and leaves a string if there is room for its NUL. -/
theorem strncpy_eq (b : Buffer n) (s : CStr) :
    ∃ b', strncpy b s n = some b' ∧ text b' = if s.length < n then some s else none := by
  have hlen : 0 + (s.chars.take n ++ List.replicate (n - s.length) (0 : UInt8)).length = n := by
    simp only [List.length_append, List.length_take, List.length_replicate, CStr.length]
    omega
  obtain ⟨b', hb', hbytes⟩ := memcpy_eq b hlen.le
  refine ⟨b', hb', ?_⟩
  rw [hlen, List.drop_of_length_le b.length_eq.le, List.append_nil, List.take_zero,
    List.nil_append] at hbytes
  by_cases h : s.length < n
  · rw [if_pos h, text_eq_some_iff]
    obtain ⟨k, hk⟩ : ∃ k, n - s.length = k + 1 := ⟨n - s.length - 1, by omega⟩
    refine ⟨List.replicate k 0, ?_⟩
    rw [hbytes, hk, List.take_of_length_le (show s.chars.length ≤ n from h.le),
      List.replicate_succ, CStr.terminated, List.append_assoc]
    rfl
  · -- all bytes are characters of the string
    have hno : 0 ∉ b'.bytes := by
      rw [hbytes, Nat.sub_eq_zero_of_le (by omega), List.replicate_zero, List.append_nil]
      exact fun hmem => s.noNul (List.mem_of_mem_take hmem)
    rw [if_neg h, text, if_neg hno]

end Buffers

end CString
