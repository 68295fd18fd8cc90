import Mathlib.Data.Nat.Find
import Mathlib.Order.WellFounded
import Odbk.Lib.DoWhile
import Odbk.PeImage

/-!
# `odbk_sfmt`

`vsnprintf` is a parameter: what it stores and returns at each call. Memory is taken to
suffice. Proved here:

* `retry_iterate`: the buffer and the result after any number of retries;
* `sfmt_eq_some_iff`: the function returns the result of the first call that succeeds;
* `sfmt_terminates_iff`: when the function returns, whatever `vsnprintf` does;
* `sfmt_exact_iff`: for each convention of `vsnprintf`, when it returns the text;
* `sfmtExact_iff`: the same in plain numbers, wherever `size_t` does not wrap.
-/

namespace Odbk

/-! ## The code -/

/-- The outcomes of `vsnprintf`: what the array given to call `k` holds afterwards, for
its size, and the result. -/
structure Vsnprintf where
  call : Nat → Nat → List UInt8 × Int
  length_stored : ∀ k size, (call k size).1.length = size

/-- The local variables of `odbk_sfmt`, and how many calls there were. -/
structure Formatting where
  buffer : List UInt8
  nret : Int
  calls : Nat

/-- `std::string::resize` -/
def resize (buffer : List UInt8) (n : Nat) : List UInt8 :=
  buffer.take n ++ List.replicate (n - buffer.length) 0

/-- `nret = vsnprintf(&buffer.front(), buffer.length() + 1, format, args)`. The byte that is
stored behind the last character is not part of the string. -/
def Vsnprintf.format (v : Vsnprintf) (calls : Nat) (buffer : List UInt8) : Formatting :=
  let outcome := v.call calls (buffer.length + 1)
  ⟨outcome.1.take buffer.length, outcome.2, calls + 1⟩

/-- `buffer.length() * 3 / 2` in `size_t` -/
def grow (b : Build) (length : Nat) : Nat := length * 3 % 2 ^ b.bits / 2

/-- The body of the loop. -/
def retry (b : Build) (v : Vsnprintf) (s : Formatting) : Formatting :=
  v.format s.calls (resize s.buffer (grow b s.buffer.length))

/-- `odbk_sfmt`, with at most `fuel` passes of its loop. -/
def odbkSfmt (b : Build) (v : Vsnprintf) (fuel : Nat) : Option (List UInt8) :=
  let s := v.format 0 (List.replicate 256 0)
  if s.nret ≥ 0 then
    if s.nret.toNat < s.buffer.length then some (resize s.buffer s.nret.toNat)
    else if s.nret.toNat > s.buffer.length then
      -- VS2015/2017 or later
      some (v.format s.calls (resize s.buffer s.nret.toNat)).buffer
    else some s.buffer
  else
    -- VS2013 or earlier, and the glibc of Unix systems
    (DoWhile.run (retry b v) (fun s => s.nret < 0) fuel s).map fun s =>
      resize s.buffer s.nret.toNat

/-! ## Attempts -/

/-- The length of the buffer after `k` retries. -/
def size (b : Build) (k : Nat) : Nat := (grow b)^[k] 256

/-- What call `k` leaves if all calls before it have failed. -/
def attempt (b : Build) (v : Vsnprintf) (k : Nat) : Formatting :=
  ⟨(v.call k (size b k + 1)).1.take (size b k), (v.call k (size b k + 1)).2, k + 1⟩

/-- Call `k` is the first one whose result is not negative. -/
structure FirstSuccess (b : Build) (v : Vsnprintf) (k : Nat) : Prop where
  success : 0 ≤ (attempt b v k).nret
  failed : ∀ j < k, (attempt b v j).nret < 0

/-- What the function returns where call `k` is the first one to succeed. -/
def result (b : Build) (v : Vsnprintf) (k : Nat) : List UInt8 :=
  let nret := (attempt b v k).nret.toNat
  if k = 0 ∧ nret > 256 then (v.call 1 (nret + 1)).1.take nret
  else resize (attempt b v k).buffer nret

section Attempts

variable (b : Build) (v : Vsnprintf)

@[simp] theorem length_resize (buffer : List UInt8) (n : Nat) : (resize buffer n).length = n := by
  simp only [resize, List.length_append, List.length_take, List.length_replicate]
  omega

theorem format_of_length {buffer : List UInt8} {n : Nat} (h : buffer.length = n) (calls : Nat) :
    v.format calls buffer =
      ⟨(v.call calls (n + 1)).1.take n, (v.call calls (n + 1)).2, calls + 1⟩ := by
  subst h
  rfl

theorem length_attempt (k : Nat) : (attempt b v k).buffer.length = size b k := by
  rw [attempt, List.length_take, v.length_stored]
  omega

theorem format_first : v.format 0 (List.replicate 256 0) = attempt b v 0 :=
  format_of_length v List.length_replicate 0

/-- **Step lemma**: a retry after call `k` is call `k + 1`. -/
theorem retry_attempt (k : Nat) : retry b v (attempt b v k) = attempt b v (k + 1) := by
  have hsize : size b (k + 1) = grow b (size b k) := Function.iterate_succ_apply' (grow b) k 256
  rw [retry, length_attempt, ← hsize]
  exact format_of_length v (length_resize _ _) (k + 1)

theorem retry_iterate (k : Nat) : (retry b v)^[k] (attempt b v 0) = attempt b v k := by
  induction k with
  | zero => rfl
  | succ k ih => rw [Function.iterate_succ_apply', ih, retry_attempt]

variable {b v}

theorem FirstSuccess.unique {k k' : Nat} (h : FirstSuccess b v k) (h' : FirstSuccess b v k') :
    k = k' := by
  rcases Nat.lt_trichotomy k k' with hlt | heq | hgt
  · exact absurd (h'.failed k hlt) (not_lt.mpr h.success)
  · exact heq
  · exact absurd (h.failed k' hgt) (not_lt.mpr h'.success)

theorem exists_firstSuccess_iff :
    (∃ k, FirstSuccess b v k) ↔ ∃ k, 0 ≤ (v.call k (size b k + 1)).2 := by
  constructor
  · rintro ⟨k, hk⟩
    exact ⟨k, hk.success⟩
  · intro h
    refine ⟨Nat.find h, Nat.find_spec h, fun j hj => ?_⟩
    exact not_le.mp (Nat.find_min h hj)

/-- The loop ends with pass `k` where call `k + 1` is the first to succeed. -/
theorem endsAt_iff {k : Nat} (h : (attempt b v 0).nret < 0) :
    DoWhile.EndsAt (retry b v) (fun s => s.nret < 0) (attempt b v 0) k ↔
      FirstSuccess b v (k + 1) := by
  constructor
  · rintro ⟨hstops, hruns⟩
    rw [retry_iterate, decide_eq_false_iff_not, not_lt] at hstops
    refine ⟨hstops, fun j hj => ?_⟩
    cases j with
    | zero => exact h
    | succ j =>
      have hrun := hruns j (by omega)
      rwa [retry_iterate, decide_eq_true_eq] at hrun
  · intro hs
    refine ⟨?_, fun j hj => ?_⟩
    · rw [retry_iterate, decide_eq_false_iff_not, not_lt]
      exact hs.success
    · rw [retry_iterate, decide_eq_true_eq]
      exact hs.failed (j + 1) (by omega)

/-- A first call that succeeds is followed by at most one more. -/
theorem odbkSfmt_first (h : 0 ≤ (attempt b v 0).nret) (fuel : Nat) :
    odbkSfmt b v fuel = some (result b v 0) := by
  have hlen : (attempt b v 0).buffer.length = 256 := length_attempt b v 0
  simp only [odbkSfmt, format_first b v, if_pos h, hlen, result, true_and]
  rcases Nat.lt_trichotomy (attempt b v 0).nret.toNat 256 with hlt | heq | hgt
  · rw [if_pos hlt, if_neg (by omega)]
  · rw [heq, if_neg (lt_irrefl _), if_neg (lt_irrefl _), if_neg (lt_irrefl _), resize, hlen,
      Nat.sub_self, List.replicate_zero, List.append_nil, List.take_of_length_le hlen.le]
  · rw [if_neg (by omega), if_pos hgt, if_pos hgt, format_of_length v (length_resize _ _)]
    rfl

/-- **The function**: it returns the result of the first call that succeeds. -/
theorem sfmt_eq_some_iff (b : Build) (v : Vsnprintf) (text : List UInt8) :
    (∃ fuel, odbkSfmt b v fuel = some text) ↔
      ∃ k, FirstSuccess b v k ∧ text = result b v k := by
  by_cases h : 0 ≤ (attempt b v 0).nret
  · have hzero : FirstSuccess b v 0 := ⟨h, fun _ hj => absurd hj (Nat.not_lt_zero _)⟩
    simp only [odbkSfmt_first h, exists_const, Option.some.injEq]
    constructor
    · rintro rfl
      exact ⟨0, hzero, rfl⟩
    · rintro ⟨k, hk, rfl⟩
      rw [hk.unique hzero]
  · have hcode : ∀ fuel, odbkSfmt b v fuel =
        (DoWhile.run (retry b v) (fun s => s.nret < 0) fuel (attempt b v 0)).map fun s =>
          resize s.buffer s.nret.toNat := by
      intro fuel
      simp only [odbkSfmt, format_first b v, ge_iff_le, if_neg h]
    have hresult : ∀ k, resize (attempt b v (k + 1)).buffer (attempt b v (k + 1)).nret.toNat =
        result b v (k + 1) := by
      intro k
      rw [result, if_neg (fun hk => Nat.succ_ne_zero k hk.1)]
    simp only [hcode, Option.map_eq_some_iff, DoWhile.run_eq_some_iff, endsAt_iff (not_le.mp h),
      retry_iterate]
    constructor
    · rintro ⟨fuel, _, ⟨k, _, hk, rfl⟩, rfl⟩
      exact ⟨k + 1, hk, hresult k⟩
    · rintro ⟨k, hk, rfl⟩
      cases k with
      | zero => exact absurd hk.success h
      | succ k => exact ⟨k + 1, _, ⟨k, Nat.lt_succ_self k, hk, rfl⟩, hresult k⟩

end Attempts

theorem sfmt_returns_iff (b : Build) (v : Vsnprintf) :
    (∃ fuel text, odbkSfmt b v fuel = some text) ↔ ∃ k, FirstSuccess b v k := by
  rw [exists_comm]
  simp only [sfmt_eq_some_iff]
  constructor
  · rintro ⟨_, k, hk, _⟩
    exact ⟨k, hk⟩
  · rintro ⟨k, hk⟩
    exact ⟨_, k, hk, rfl⟩

/-- **Termination.** The function returns exactly when its first call of `vsnprintf` or
some retry has a result that is not negative. -/
theorem sfmt_terminates_iff (b : Build) (v : Vsnprintf) :
    (∃ fuel text, odbkSfmt b v fuel = some text) ↔ ∃ k, 0 ≤ (v.call k (size b k + 1)).2 :=
  (sfmt_returns_iff b v).trans exists_firstSuccess_iff

/-- A `vsnprintf` that cannot encode its arguments, whatever the size. -/
def encodingError : Vsnprintf where
  call _ size := (List.replicate size 0, -1)
  length_stored _ _ := List.length_replicate

/-- After an encoding error the loop goes on without end. -/
theorem encodingError_loops :
    ¬ ∃ fuel text, odbkSfmt .x64 encodingError fuel = some text := by
  rw [sfmt_returns_iff]
  rintro ⟨k, hk⟩
  exact absurd hk.success (show ¬ (0 : Int) ≤ -1 by decide)

/-! ## Conventions -/

/-- What `vsnprintf` does with a text that is too long for its array. -/
inductive Convention where
  | c99 | oldMsvc | oldGlibc
  deriving DecidableEq, Repr

/-- What a call for the text `s` with an array of `c` characters, `c > 0`, leaves and
returns. -/
def Convention.Outcome (s : List UInt8) (c : Nat) (r : List UInt8 × Int) : Convention → Prop
  | .c99 => (∃ rest, r.1 = s.take (c - 1) ++ 0 :: rest) ∧ r.2 = s.length
  | .oldMsvc =>
    (s.length < c → (∃ rest, r.1 = s ++ 0 :: rest) ∧ r.2 = s.length) ∧
      (s.length = c → r.1 = s ∧ r.2 = s.length) ∧ (s.length > c → r.2 < 0)
  | .oldGlibc =>
    (∃ rest, r.1 = s.take (c - 1) ++ 0 :: rest) ∧
      r.2 = if s.length < c then (s.length : Int) else -1

/-- Every call with room for a character follows the convention. -/
def Vsnprintf.Follows (v : Vsnprintf) (conv : Convention) (s : List UInt8) : Prop :=
  ∀ k c, 0 < c → conv.Outcome s c (v.call k c)

/-- A call with an array of `c` characters returns the length of the text. -/
def Convention.Reports (s : List UInt8) (c : Nat) : Convention → Prop
  | .c99 => True
  | .oldMsvc => s.length ≤ c
  | .oldGlibc => s.length < c

section Conventions

variable {b : Build} {v : Vsnprintf} {conv : Convention} {s : List UInt8}

theorem nret_of_reports (h : v.Follows conv s) (k : Nat) {c : Nat} (hc : 0 < c)
    (hr : conv.Reports s c) : (v.call k c).2 = s.length := by
  have ho := h k c hc
  cases conv with
  | c99 => exact ho.2
  | oldMsvc =>
    rcases Nat.lt_or_eq_of_le hr with hlt | heq
    · exact (ho.1 hlt).2
    · exact (ho.2.1 heq).2
  | oldGlibc => exact ho.2.trans (if_pos hr)

theorem nret_of_not_reports (h : v.Follows conv s) (k : Nat) {c : Nat} (hc : 0 < c)
    (hr : ¬ conv.Reports s c) : (v.call k c).2 < 0 := by
  have ho := h k c hc
  cases conv with
  | c99 => exact absurd trivial hr
  | oldMsvc => exact ho.2.2 (not_le.mp hr)
  | oldGlibc =>
    have hnret : (v.call k c).2 = -1 := ho.2.trans (if_neg hr)
    rw [hnret]
    decide

theorem toNat_nret (h : v.Follows conv s) {k : Nat} (hr : conv.Reports s (size b k + 1)) :
    (attempt b v k).nret.toNat = s.length := by
  rw [attempt, nret_of_reports h k (Nat.succ_pos _) hr, Int.toNat_natCast]

/-- A text that fits is stored. -/
theorem stored_of_lt (h : v.Follows conv s) (k : Nat) {c : Nat} (hlt : s.length < c) :
    ∃ rest, (v.call k c).1 = s ++ 0 :: rest := by
  have ho := h k c (by omega)
  have htake : s.take (c - 1) = s := List.take_of_length_le (by omega)
  cases conv with
  | c99 => exact htake ▸ ho.1
  | oldMsvc => exact (ho.1 hlt).1
  | oldGlibc => exact htake ▸ ho.1

theorem firstSuccess_iff_reports (h : v.Follows conv s) (k : Nat) :
    FirstSuccess b v k ↔
      conv.Reports s (size b k + 1) ∧ ∀ j < k, ¬ conv.Reports s (size b j + 1) := by
  have hiff : ∀ j, 0 ≤ (attempt b v j).nret ↔ conv.Reports s (size b j + 1) := by
    intro j
    constructor
    · intro hn
      by_contra hr
      exact absurd hn (not_le.mpr (nret_of_not_reports h j (Nat.succ_pos _) hr))
    · intro hr
      rw [attempt, nret_of_reports h j (Nat.succ_pos _) hr]
      exact Int.natCast_nonneg _
  constructor
  · rintro ⟨hs, hf⟩
    exact ⟨(hiff k).mp hs, fun j hj hr => absurd ((hiff j).mpr hr) (not_le.mpr (hf j hj))⟩
  · rintro ⟨hs, hf⟩
    exact ⟨(hiff k).mpr hs, fun j hj => not_le.mp fun hn => hf j hj ((hiff j).mp hn)⟩

/-- A NUL for the last character gives the same text if that is a NUL. -/
theorem dropLast_append_nul_iff : s.dropLast ++ [0] = s ↔ s.getLast? = some 0 := by
  constructor
  · intro h
    rw [← h, List.getLast?_concat]
  · intro h
    exact List.dropLast_append_getLast? 0 h

/-- A buffer with room for the text gives the text. -/
theorem result_of_room (h : v.Follows conv s) {k : Nat}
    (hr : conv.Reports s (size b k + 1)) (hroom : s.length ≤ size b k) : result b v k = s := by
  have hn := toNat_nret h hr
  obtain ⟨rest, hstored⟩ := stored_of_lt h k (Nat.lt_succ_of_le hroom)
  have hno : ¬ (k = 0 ∧ s.length > 256) := by
    rintro ⟨rfl, hgt⟩
    exact absurd hroom (not_le.mpr hgt)
  rw [result, hn, if_neg hno, resize, length_attempt, Nat.sub_eq_zero_of_le hroom,
    List.replicate_zero, List.append_nil, attempt, hstored, List.take_take, min_eq_left hroom,
    List.take_left]

/-- The first call is followed by one that has room for the text. -/
theorem result_zero (h : v.Follows conv s) (hr : conv.Reports s 257) : result b v 0 = s := by
  by_cases hroom : s.length ≤ 256
  · exact result_of_room h hr hroom
  · have hn : (attempt b v 0).nret.toNat = s.length := toNat_nret h hr
    obtain ⟨rest, hstored⟩ := stored_of_lt h 1 (Nat.lt_succ_self s.length)
    rw [result, hn, if_pos ⟨rfl, not_le.mp hroom⟩, hstored, List.take_left]

/-- A text that fills the array, no NUL behind it, loses its last character. -/
theorem result_full (h : v.Follows .oldMsvc s) {k : Nat} (hlen : s.length = size b (k + 1) + 1) :
    result b v (k + 1) = s.dropLast ++ [0] := by
  have ho := h (k + 1) (size b (k + 1) + 1) (Nat.succ_pos _)
  have hstored : (v.call (k + 1) (size b (k + 1) + 1)).1 = s := (ho.2.1 hlen).1
  have hn : (attempt b v (k + 1)).nret.toNat = s.length := toNat_nret h hlen.le
  have hbuffer : (attempt b v (k + 1)).buffer = s.dropLast := by
    rw [attempt, hstored, List.dropLast_eq_take, hlen]
    rfl
  have hshort : s.length - s.dropLast.length = 1 := by
    rw [List.length_dropLast]
    omega
  rw [result, hn, if_neg (fun hk => Nat.succ_ne_zero k hk.1), hbuffer, resize, hshort,
    List.take_of_length_le (by rw [List.length_dropLast]; omega)]
  rfl

/-- The first call that reports gives the text, unless it fills the array of a retry. -/
theorem result_eq_iff (h : v.Follows conv s) {k : Nat} (hk : FirstSuccess b v k) :
    result b v k = s ↔ k = 0 ∨ s.length ≤ size b k ∨ s.getLast? = some 0 := by
  obtain ⟨hr, hf⟩ := (firstSuccess_iff_reports h k).mp hk
  cases k with
  | zero => exact iff_of_true (result_zero h hr) (Or.inl rfl)
  | succ k =>
    by_cases hroom : s.length ≤ size b (k + 1)
    · exact iff_of_true (result_of_room h hr hroom) (Or.inr (Or.inl hroom))
    · cases conv with
      | c99 => exact absurd trivial (hf 0 (Nat.succ_pos k))
      | oldMsvc =>
        have hlen : s.length = size b (k + 1) + 1 :=
          le_antisymm hr (Nat.succ_le_of_lt (not_le.mp hroom))
        rw [result_full h hlen, dropLast_append_nul_iff]
        simp [hroom]
      | oldGlibc => exact absurd (Nat.le_of_lt_succ hr) hroom

end Conventions

/-- When the text comes back as it is. The first convention always gives it. Under the other
two the buffer has to grow to it, and under the second one the first array of a retry that
holds it has to have room for its NUL, or the text a NUL at its end. -/
def SfmtExact (b : Build) (s : List UInt8) : Convention → Prop
  | .c99 => True
  | .oldMsvc => ∃ k, s.length ≤ size b k + 1 ∧ (∀ j < k, size b j + 1 < s.length) ∧
      (k = 0 ∨ s.length ≤ size b k ∨ s.getLast? = some 0)
  | .oldGlibc => ∃ k, s.length ≤ size b k

/-- **Formatting.** The function returns the text exactly under this condition. -/
theorem sfmt_exact_iff (b : Build) {v : Vsnprintf} {conv : Convention} {s : List UInt8}
    (h : v.Follows conv s) :
    (∃ fuel, odbkSfmt b v fuel = some s) ↔ SfmtExact b s conv := by
  have hcode : (∃ fuel, odbkSfmt b v fuel = some s) ↔
      ∃ k, FirstSuccess b v k ∧ (k = 0 ∨ s.length ≤ size b k ∨ s.getLast? = some 0) := by
    rw [sfmt_eq_some_iff]
    refine exists_congr fun k => and_congr_right fun hk => ?_
    rw [eq_comm, result_eq_iff h hk]
  rw [hcode]
  simp only [firstSuccess_iff_reports h]
  cases conv with
  | c99 =>
    exact iff_of_true ⟨0, ⟨trivial, fun _ hj => absurd hj (Nat.not_lt_zero _)⟩, Or.inl rfl⟩ trivial
  | oldMsvc =>
    simp only [Convention.Reports, SfmtExact, not_le, and_assoc]
  | oldGlibc =>
    constructor
    · rintro ⟨k, ⟨hr, _⟩, _⟩
      exact ⟨k, Nat.le_of_lt_succ hr⟩
    · intro hsize
      refine ⟨Nat.find hsize, ⟨Nat.lt_succ_of_le (Nat.find_spec hsize), fun j hj hr => ?_⟩,
        Or.inr (Or.inl (Nat.find_spec hsize))⟩
      exact Nat.find_min hsize hj (Nat.le_of_lt_succ hr)

/-! ## Sizes -/

/-- The lengths of the buffer in numbers of any size. -/
def growth (k : Nat) : Nat := (fun n => n * 3 / 2)^[k] 256

theorem growth_succ (k : Nat) : growth (k + 1) = growth k * 3 / 2 :=
  Function.iterate_succ_apply' _ k 256

theorem le_growth (k : Nat) : 256 ≤ growth k := by
  induction k with
  | zero => exact le_refl 256
  | succ k ih =>
    rw [growth_succ]
    omega

theorem growth_strictMono : StrictMono growth := by
  refine strictMono_nat_of_lt_succ fun k => ?_
  have hle := le_growth k
  rw [growth_succ]
  omega

section Sizes

variable {b : Build} {s : List UInt8}

/-- Before `size_t` wraps, the buffer grows as numbers do. -/
theorem size_eq_growth {k : Nat} (h : growth k * 2 + 1 < 2 ^ b.bits) : size b k = growth k := by
  induction k with
  | zero => rfl
  | succ k ih =>
    have hlt := growth_strictMono (Nat.lt_succ_self k)
    have hsize : size b (k + 1) = grow b (size b k) := Function.iterate_succ_apply' (grow b) k 256
    rw [growth_succ] at h
    rw [hsize, ih (by omega), grow, Nat.mod_eq_of_lt (by omega), growth_succ]

/-- The buffer grows to every length that does not make `size_t` wrap. -/
theorem exists_size (b : Build) {n : Nat} (h : n * 3 ≤ 2 ^ b.bits) :
    ∃ k, n ≤ growth k ∧ (∀ j < k, growth j < n) ∧ ∀ j ≤ k, size b j = growth j := by
  have hex : ∃ k, n ≤ growth k := ⟨n, growth_strictMono.le_apply⟩
  refine ⟨Nat.find hex, Nat.find_spec hex, fun j hj => not_le.mp (Nat.find_min hex hj), ?_⟩
  intro j hj
  refine size_eq_growth ?_
  have hmono : growth j ≤ growth (Nat.find hex) := growth_strictMono.monotone hj
  cases hk : Nat.find hex with
  | zero =>
    rw [hk] at hmono
    have hbits : 2 ^ 32 ≤ 2 ^ b.bits := Nat.pow_le_pow_right (by decide) b.le_bits
    have hzero : growth 0 = 256 := rfl
    omega
  | succ k =>
    -- the length before is too short, and three times that does not wrap
    have hshort : growth k < n := not_le.mp (Nat.find_min hex (by omega))
    rw [hk, growth_succ] at hmono
    omega

/-- **Texts that do not make `size_t` wrap**: all texts in a 64 bit build. Old glibc gives
them back, and an old MSVC those that are not one longer than the buffer of a retry. -/
theorem sfmtExact_iff (h : s.length * 3 ≤ 2 ^ b.bits) :
    SfmtExact b s .oldGlibc ∧
      (SfmtExact b s .oldMsvc ↔
        ∀ k, s.length = growth (k + 1) + 1 → s.getLast? = some 0) := by
  constructor
  · obtain ⟨k, hk, _, hsize⟩ := exists_size b h
    exact ⟨k, hsize k le_rfl ▸ hk⟩
  · obtain ⟨k, hk, hfirst, hsize⟩ := exists_size b (n := s.length - 1) (by omega)
    have hone : SfmtExact b s .oldMsvc ↔
        k = 0 ∨ s.length ≤ growth k ∨ s.getLast? = some 0 := by
      constructor
      · rintro ⟨k', hk', hmin, hc⟩
        have heq : k' = k := by
          rcases Nat.lt_trichotomy k' k with hlt | heq | hgt
          · have hshort := hfirst k' hlt
            rw [hsize k' hlt.le] at hk'
            omega
          · exact heq
          · have hlong := hmin k hgt
            rw [hsize k le_rfl] at hlong
            omega
        subst heq
        rwa [hsize k' le_rfl] at hc
      · intro hc
        refine ⟨k, ?_, fun j hj => ?_, ?_⟩
        · rw [hsize k le_rfl]
          omega
        · have hshort := hfirst j hj
          rw [hsize j hj.le]
          omega
        · rwa [hsize k le_rfl]
    rw [hone]
    constructor
    · rintro hc k' hk'
      have heq : k = k' + 1 := by
        refine le_antisymm (Nat.not_lt.mp fun hlt => ?_) ?_
        · have hshort := hfirst (k' + 1) hlt
          omega
        · exact growth_strictMono.le_iff_le.mp (by omega)
      rcases hc with hzero | hroom | hnul
      · omega
      · rw [heq] at hroom
        omega
      · exact hnul
    · intro hall
      cases k with
      | zero => exact Or.inl rfl
      | succ k =>
        by_cases hroom : s.length ≤ growth (k + 1)
        · exact Or.inr (Or.inl hroom)
        · exact Or.inr (Or.inr (hall k (by omega)))

end Sizes

/-! ## One `vsnprintf` of each convention -/

/-- What is stored of a text in an array of `c` characters. -/
def Convention.stored (conv : Convention) (s : List UInt8) (c : Nat) : List UInt8 :=
  if conv = .oldMsvc ∧ s.length = c then s
  else ((s ++ List.replicate c 0).take (c - 1) ++ [0]).take c

theorem Convention.length_stored (conv : Convention) (s : List UInt8) (c : Nat) :
    (conv.stored s c).length = c := by
  unfold Convention.stored
  split
  case isTrue h => exact h.2
  case isFalse =>
    simp only [List.length_take, List.length_append, List.length_replicate, List.length_singleton]
    omega

/-- A `vsnprintf` of a convention that fills its array with NULs. -/
def Convention.vsnprintf (conv : Convention) (s : List UInt8) : Vsnprintf where
  call _ c := (conv.stored s c,
    match conv with
    | .c99 => s.length
    | .oldMsvc => if s.length ≤ c then s.length else -1
    | .oldGlibc => if s.length < c then s.length else -1)
  length_stored _ c := conv.length_stored s c

theorem stored_eq (conv : Convention) {s : List UInt8} {c : Nat} (hc : 0 < c)
    (h : ¬ (conv = .oldMsvc ∧ s.length = c)) :
    ∃ rest, conv.stored s c = s.take (c - 1) ++ 0 :: rest := by
  refine ⟨(List.replicate c 0).take (c - 1 - s.length), ?_⟩
  have hlen : ((s ++ List.replicate c (0 : UInt8)).take (c - 1) ++ [0]).length ≤ c := by
    simp only [List.length_append, List.length_take, List.length_replicate, List.length_singleton]
    omega
  rw [Convention.stored, if_neg h, List.take_of_length_le hlen, List.take_append,
    List.take_replicate, List.append_assoc, ← List.replicate_succ', List.replicate_succ]

theorem follows_vsnprintf (conv : Convention) (s : List UInt8) :
    (conv.vsnprintf s).Follows conv s := by
  intro k c hc
  cases conv with
  | c99 => exact ⟨stored_eq .c99 hc (fun h => Convention.noConfusion h.1), rfl⟩
  | oldGlibc => exact ⟨stored_eq .oldGlibc hc (fun h => Convention.noConfusion h.1), rfl⟩
  | oldMsvc =>
    refine ⟨fun hlt => ⟨?_, if_pos hlt.le⟩, fun heq => ⟨if_pos ⟨rfl, heq⟩, if_pos heq.le⟩,
      fun hgt => ?_⟩
    · obtain ⟨rest, hrest⟩ := stored_eq .oldMsvc hc fun h => absurd h.2 hlt.ne
      rw [List.take_of_length_le (by omega)] at hrest
      exact ⟨rest, hrest⟩
    · have hnret : ((Convention.oldMsvc.vsnprintf s).call k c).2 = -1 := if_neg (not_le.mpr hgt)
      rw [hnret]
      decide

/-- With an old MSVC a text of 500 characters comes back after two retries. -/
theorem sfmt_exact_iff_retry :
    Vsnprintf.Follows (Convention.oldMsvc.vsnprintf (List.replicate 500 97)) .oldMsvc
        (List.replicate 500 97) ∧
      ∃ fuel, odbkSfmt .x64 (Convention.oldMsvc.vsnprintf (List.replicate 500 97)) fuel =
        some (List.replicate 500 97) := by
  have h := follows_vsnprintf .oldMsvc (List.replicate 500 97)
  have hlen : (List.replicate 500 (97 : UInt8)).length = 500 := List.length_replicate
  refine ⟨h, (sfmt_exact_iff .x64 h).mpr ⟨2, ?_⟩⟩
  rw [hlen]
  decide

/-- With an old MSVC a text of 385 characters, one more than the buffer after one retry,
comes back with a NUL for its last character. -/
theorem long_text_loses_last :
    Vsnprintf.Follows (Convention.oldMsvc.vsnprintf (List.replicate 385 97)) .oldMsvc
        (List.replicate 385 97) ∧
      (∃ fuel, odbkSfmt .x64 (Convention.oldMsvc.vsnprintf (List.replicate 385 97)) fuel =
        some (List.replicate 384 97 ++ [0])) ∧
      ¬ ∃ fuel, odbkSfmt .x64 (Convention.oldMsvc.vsnprintf (List.replicate 385 97)) fuel =
        some (List.replicate 385 97) := by
  have h := follows_vsnprintf .oldMsvc (List.replicate 385 97)
  have hsize : size .x64 1 = 384 := rfl
  have hlen : (List.replicate 385 (97 : UInt8)).length = 385 := List.length_replicate
  have hk : FirstSuccess .x64 (Convention.oldMsvc.vsnprintf (List.replicate 385 97)) 1 := by
    rw [firstSuccess_iff_reports h]
    refine ⟨(hlen.trans (by rw [hsize])).le, fun j hj => ?_⟩
    rw [Nat.lt_one_iff.mp hj, Convention.Reports, hlen]
    decide
  have hresult : result .x64 (Convention.oldMsvc.vsnprintf (List.replicate 385 97)) 1 =
      (List.replicate 385 97).dropLast ++ [0] :=
    result_full h (k := 0) (hlen.trans (by rw [hsize]))
  refine ⟨h, ?_, ?_⟩
  · rw [sfmt_eq_some_iff]
    refine ⟨1, hk, ?_⟩
    rw [hresult, List.dropLast_replicate]
  · rw [sfmt_eq_some_iff]
    rintro ⟨k, hk', htext⟩
    rw [hk'.unique hk] at htext
    -- the last character is not a NUL
    have hnul := (result_eq_iff h hk).mp htext.symm
    rw [hsize, hlen, List.getLast?_replicate] at hnul
    revert hnul
    decide

end Odbk
