import Mathlib.Data.List.Basic

/-!
# Reading a stream frame by frame

A `Reader` takes one frame off the front of a stream. Proved here:

* `drain_append`: the frames of a stream do not depend on how much of it is there when
  reading begins, so a part of it gives the first of them (`drain_prefix`);
* `received_eq`: a receiver that keeps what is left over gets the same frames however the
  stream is cut into chunks;
* `drain_encoded`: frames written one after the other are read back.
-/

namespace Framing

variable {α β : Type}

/-- How a frame is taken off the front of a stream, `none` while it is not complete. What
follows a frame does not change it, and taking it off leaves less. -/
structure Reader (α β : Type) where
  next : List α → Option (β × List α)
  stable : ∀ {xs b rest}, next xs = some (b, rest) → ∀ more,
    next (xs ++ more) = some (b, rest ++ more)
  shrinks : ∀ {xs b rest}, next xs = some (b, rest) → rest.length < xs.length

namespace Reader

/-- All frames that can be taken off, and what is left over. -/
def drain (R : Reader α β) (xs : List α) : List β × List α :=
  match _h : R.next xs with
  | none => ([], xs)
  | some (b, rest) => (b :: (drain R rest).1, (drain R rest).2)
termination_by xs.length
decreasing_by all_goals exact R.shrinks _h

/-- A receiver: the frames so far and the bytes it has kept, after one more chunk. -/
def receive (R : Reader α β) (s : List β × List α) (chunk : List α) : List β × List α :=
  (s.1 ++ (R.drain (s.2 ++ chunk)).1, (R.drain (s.2 ++ chunk)).2)

/-- What a receiver has after some chunks. -/
def received (R : Reader α β) (chunks : List (List α)) : List β × List α :=
  chunks.foldl R.receive ([], [])

variable {R : Reader α β}

theorem drain_of_none {xs : List α} (h : R.next xs = none) : R.drain xs = ([], xs) := by
  rw [drain]
  split
  · rfl
  case h_2 b rest h' =>
    rw [h] at h'
    cases h'

theorem drain_of_some {xs rest : List α} {b : β} (h : R.next xs = some (b, rest)) :
    R.drain xs = (b :: (R.drain rest).1, (R.drain rest).2) := by
  rw [drain]
  split
  case h_1 h' =>
    rw [h] at h'
    cases h'
  case h_2 b' rest' h' =>
    rw [h] at h'
    cases h'
    rfl

/-- **Reading later.** Reading a stream is reading a part of it and then what that left
over together with the rest. -/
theorem drain_append (xs ys : List α) :
    R.drain (xs ++ ys) =
      ((R.drain xs).1 ++ (R.drain ((R.drain xs).2 ++ ys)).1,
        (R.drain ((R.drain xs).2 ++ ys)).2) := by
  induction hn : xs.length using Nat.strongRecOn generalizing xs with
  | ind n ih =>
    cases h : R.next xs with
    | none =>
      rw [drain_of_none h]
      rfl
    | some r =>
      obtain ⟨b, rest⟩ := r
      have hlt : rest.length < n := hn ▸ R.shrinks h
      rw [drain_of_some (R.stable h ys), drain_of_some h, ih rest.length hlt rest rfl]
      rfl

/-- The part of a stream that is there gives the first of its frames. -/
theorem drain_prefix {xs ys : List α} (h : xs <+: ys) : (R.drain xs).1 <+: (R.drain ys).1 := by
  obtain ⟨more, rfl⟩ := h
  rw [drain_append]
  exact List.prefix_append _ _

/-- **Chunks.** However a stream is cut, a receiver gets the frames of the whole. -/
theorem received_eq (chunks : List (List α)) : R.received chunks = R.drain chunks.flatten := by
  have key : ∀ xs, chunks.foldl R.receive (R.drain xs) = R.drain (xs ++ chunks.flatten) := by
    induction chunks with
    | nil =>
      intro xs
      simp
    | cons chunk chunks ih =>
      intro xs
      have hone : R.receive (R.drain xs) chunk = R.drain (xs ++ chunk) :=
        (drain_append xs chunk).symm
      rw [List.foldl_cons, hone, ih, List.flatten_cons, List.append_assoc]
  cases hnext : R.next [] with
  | none =>
    have h := key []
    rwa [drain_of_none hnext, List.nil_append] at h
  | some r =>
    -- nothing is shorter than nothing
    exact absurd (R.shrinks hnext) (Nat.not_lt_zero _)

/-- **Frames written one after the other** are read back, whatever follows them. -/
theorem drain_encoded {γ : Type} {encode : γ → List α} {frame : γ → β} (cs : List γ)
    (h : ∀ c ∈ cs, ∀ rest, R.next (encode c ++ rest) = some (frame c, rest)) (tail : List α) :
    R.drain ((cs.map encode).flatten ++ tail) =
      (cs.map frame ++ (R.drain tail).1, (R.drain tail).2) := by
  induction cs with
  | nil => simp
  | cons c cs ih =>
    have hc := h c List.mem_cons_self ((cs.map encode).flatten ++ tail)
    rw [List.map_cons, List.flatten_cons, List.append_assoc, drain_of_some hc,
      ih fun c' hc' => h c' (List.mem_cons_of_mem _ hc'), List.map_cons, List.cons_append]

end Reader

end Framing
