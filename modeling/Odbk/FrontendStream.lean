import Odbk.Session
import Odbk.Lib.Framing

/-!
# What a frontend can read

The length in front of a frame lets a receiver that keeps incomplete bytes find the
frames of a stream. Proved here:

* `next_frameBytes`: such a receiver takes a frame off the front of what follows it;
* `bytesTo_session`: the bytes written to a transport are the frames of the lines printed
  while it was the current one;
* `messages_delivered`: the receiver gets back these lines, once each and in order, and
  never a torn one.
-/

namespace Odbk

open ByteStream Framing

/-! ## A receiver of frames -/

section Frames

variable (B : ByteOrder) (S : StringFormat)

/-- The frame at the front of a stream: as many bytes as the length in front says. -/
def nextFrame (xs : List UInt8) : Option (List UInt8 × List UInt8) :=
  (readWord B 4 xs).bind fun r =>
    if 0 < r.1.toNat ∧ r.1.toNat ≤ xs.length then some (xs.take r.1.toNat, xs.drop r.1.toNat)
    else none

theorem nextFrame_eq_some {xs frame rest : List UInt8} (h : nextFrame B xs = some (frame, rest)) :
    ∃ len : BitVec (8 * 4), ∃ more, xs = B.encode 4 len ++ more ∧ 0 < len.toNat ∧
      len.toNat ≤ xs.length ∧ frame = xs.take len.toNat ∧ rest = xs.drop len.toNat := by
  obtain ⟨⟨len, more⟩, hread, hlen⟩ := Option.bind_eq_some_iff.mp h
  split at hlen
  case isTrue hc =>
    cases hlen
    exact ⟨len, more, readWord_eq_some.mp hread, hc.1, hc.2, rfl, rfl⟩
  case isFalse => cases hlen

/-- Frames with their length in front, as a reader of streams. -/
def lengthFrames : Reader UInt8 (List UInt8) where
  next := nextFrame B
  stable := by
    intro xs frame rest h more
    obtain ⟨len, tail, hxs, hpos, hle, rfl, rfl⟩ := nextFrame_eq_some B h
    have hread : readWord B 4 (xs ++ more) = some (len, tail ++ more) := by
      rw [hxs, List.append_assoc]
      exact readWord_encode 4 len (tail ++ more)
    have hle' : len.toNat ≤ (xs ++ more).length := by
      rw [List.length_append]
      omega
    rw [nextFrame, hread, Option.bind_some, if_pos ⟨hpos, hle'⟩,
      List.take_append_of_le_length hle, List.drop_append_of_le_length hle]
  shrinks := by
    intro xs frame rest h
    obtain ⟨len, tail, _, hpos, hle, _, rfl⟩ := nextFrame_eq_some B h
    rw [List.length_drop]
    omega

theorem length_frameBytes (version : BitVec 32) (cmd : BitVec 8) (payload : List UInt8) :
    (frameBytes B version cmd payload).length = 9 + payload.length := by
  simp only [frameBytes, List.length_append, B.length_encode]
  omega

/-- **One frame** whose length fits its field is taken off the front. -/
theorem next_frameBytes (version : BitVec 32) (cmd : BitVec 8) {payload : List UInt8}
    (hfit : 9 + payload.length < 2 ^ 32) (rest : List UInt8) :
    (lengthFrames B).next (frameBytes B version cmd payload ++ rest) =
      some (frameBytes B version cmd payload, rest) := by
  have hlen := length_frameBytes B version cmd payload
  have hnat : (BitVec.ofNat 32 (9 + payload.length)).toNat =
      (frameBytes B version cmd payload).length := by
    rw [BitVec.toNat_ofNat, Nat.mod_eq_of_lt hfit, hlen]
  have hread : readWord B 4 (frameBytes B version cmd payload ++ rest) =
      some (BitVec.ofNat 32 (9 + payload.length),
        B.encode 4 version ++ (B.encode 1 cmd ++ payload) ++ rest) := by
    rw [frameBytes, List.append_assoc]
    exact readWord_encode 4 _ _
  have hcond : 0 < (BitVec.ofNat 32 (9 + payload.length)).toNat ∧
      (BitVec.ofNat 32 (9 + payload.length)).toNat ≤
        (frameBytes B version cmd payload ++ rest).length := by
    rw [hnat, List.length_append]
    omega
  change nextFrame B _ = _
  rw [nextFrame, hread, Option.bind_some, if_pos hcond, hnat, List.take_left' rfl,
    List.drop_left' rfl]

/-- The text of a frame that is a message of this version. -/
def messageText (frame : List UInt8) : Option (List UInt8) :=
  (readHead B frame).bind fun r =>
    if r.1 = (odbkpVersion, evMessage) then (S.read r.2).map Prod.fst else none

theorem messageText_odbkpCreateMsg (type : BitVec 32) (msg : List UInt8) :
    messageText B S (odbkpCreateMsg B S type msg) = some msg := by
  have hread := S.read_write msg []
  rw [List.append_nil] at hread
  rw [odbkpCreateMsg_eq, messageText, readHead_frameBytes, Option.bind_some, if_pos rfl, hread,
    Option.map_some]

theorem next_odbkpCreateMsg (type : BitVec 32) {msg : List UInt8}
    (hfit : 9 + (S.write msg).length < 2 ^ 32) (rest : List UInt8) :
    (lengthFrames B).next (odbkpCreateMsg B S type msg ++ rest) =
      some (odbkpCreateMsg B S type msg, rest) := by
  rw [odbkpCreateMsg_eq]
  exact next_frameBytes B odbkpVersion evMessage hfit rest

end Frames

/-! ## What is written to a transport -/

section Session

variable {T : Type} [DecidableEq T] (B : ByteOrder) (S : StringFormat)

/-- The bytes that actions write to a transport. -/
def bytesTo (t : T) (actions : List (SessionAction T)) : List UInt8 :=
  actions.flatMap fun
    | .write vfd data => if vfd = some t then data else []
    | .read _ => []

omit [DecidableEq T] in
/-- The type and the text of a line printed. -/
def SessionEvent.line : SessionEvent T → Option (BitVec 32 × List UInt8)
  | .print type msg => some (type, msg)
  | _ => none

/-- The lines printed while the transport is the current one. -/
def printedTo (t : T) : Option T → List (SessionEvent T) → List (BitVec 32 × List UInt8)
  | _, [] => []
  | vfd, e :: es =>
    (if vfd = some t then e.line.toList else []) ++ printedTo t (sessionStep B S vfd e).1 es

theorem bytesTo_append (t : T) (l l' : List (SessionAction T)) :
    bytesTo t (l ++ l') = bytesTo t l ++ bytesTo t l' := by
  simp [bytesTo]

/-- **Bytes and lines.** Where nothing but lines is sent, the bytes written to a transport
are the frames of the lines printed to it. -/
theorem bytesTo_session (t : T) {es : List (SessionEvent T)}
    (hlines : ∀ data, .send data ∉ es) (vfd : Option T) :
    bytesTo t (session B S vfd es) =
      ((printedTo B S t vfd es).map fun c => odbkpCreateMsg B S c.1 c.2).flatten := by
  induction es generalizing vfd with
  | nil => rfl
  | cons e es ih =>
    have hrest := ih (fun data h => hlines data (List.mem_cons_of_mem _ h))
      (sessionStep B S vfd e).1
    rw [session, bytesTo_append, hrest, printedTo, List.map_append, List.flatten_append]
    congr 1
    cases e with
    | print type msg =>
      change bytesTo t [.write vfd (odbkpCreateMsg B S type msg)] = _
      by_cases hv : vfd = some t
      · simp [bytesTo, SessionEvent.line, hv]
      · simp [bytesTo, hv]
    | send data => exact absurd List.mem_cons_self (hlines data)
    | connectResponse status transport =>
      simp only [sessionStep, SessionEvent.line]
      split <;> simp [bytesTo]
    | packet bytes => simp [sessionStep, SessionEvent.line, bytesTo]
    | connectionLost status transport => simp [sessionStep, SessionEvent.line, bytesTo]

/-- The frames of the lines printed are all there is in the bytes. -/
theorem drain_session (t : T) {es : List (SessionEvent T)} (hlines : ∀ data, .send data ∉ es)
    (hfit : ∀ c ∈ printedTo B S t none es, 9 + (S.write c.2).length < 2 ^ 32) :
    (lengthFrames B).drain (bytesTo t (session B S none es)) =
      ((printedTo B S t none es).map fun c => odbkpCreateMsg B S c.1 c.2, []) := by
  have h := Reader.drain_encoded (R := lengthFrames B) (printedTo B S t none es)
    (fun c hc rest => next_odbkpCreateMsg B S c.1 (hfit c hc) rest) []
  have hnil : (lengthFrames B).drain [] = ([], []) := Reader.drain_of_none rfl
  rw [hnil, List.append_nil, List.append_nil, ← bytesTo_session B S t hlines none] at h
  exact h

theorem map_messageText (cs : List (BitVec 32 × List UInt8)) :
    (cs.map fun c => odbkpCreateMsg B S c.1 c.2).map (messageText B S) =
      cs.map fun c => some c.2 := by
  rw [List.map_map]
  exact List.map_congr_left fun c _ => messageText_odbkpCreateMsg B S c.1 c.2

/-- A receiver of the bytes, however they are cut. -/
theorem received_session (t : T) {es : List (SessionEvent T)} (hlines : ∀ data, .send data ∉ es)
    (hfit : ∀ c ∈ printedTo B S t none es, 9 + (S.write c.2).length < 2 ^ 32)
    (cut : Cut (bytesTo t (session B S none es))) :
    ((lengthFrames B).received cut.packets).1.map (messageText B S) =
        (printedTo B S t none es).map (fun c => some c.2) ∧
      ((lengthFrames B).received cut.packets).2 = [] := by
  rw [Reader.received_eq, cut.flatten, drain_session B S t hlines hfit]
  exact ⟨map_messageText B S _, rfl⟩

/-- **Delivery.** In any run of events in which nothing but lines is sent, and for every
transport to which only lines that fit their frame are printed: however the bytes written
to it are cut, a receiver that goes by the lengths gets back the lines printed while it
was the current one, once each and in order, with nothing left over, and any first part of
the bytes gives the first of these lines. -/
theorem messages_delivered (t : T) {es : List (SessionEvent T)}
    (hlines : ∀ data, .send data ∉ es)
    (hfit : ∀ c ∈ printedTo B S t none es, 9 + (S.write c.2).length < 2 ^ 32) :
    (∀ cut : Cut (bytesTo t (session B S none es)),
      ((lengthFrames B).received cut.packets).1.map (messageText B S) =
          (printedTo B S t none es).map (fun c => some c.2) ∧
        ((lengthFrames B).received cut.packets).2 = []) ∧
      ∀ xs, xs <+: bytesTo t (session B S none es) →
        ((lengthFrames B).drain xs).1.map (messageText B S) <+:
          (printedTo B S t none es).map fun c => some c.2 := by
  refine ⟨received_session B S t hlines hfit, fun xs hxs => ?_⟩
  have hpre := (Reader.drain_prefix (R := lengthFrames B) hxs).map (messageText B S)
  rw [drain_session B S t hlines hfit, map_messageText] at hpre
  exact hpre

/-- An information and an error to a frontend that is connected. -/
theorem messages_delivered_two :
    (∀ cut : Cut (bytesTo 1 (session bigEndian sevenBitString none
          [.connectResponse 0 1, .print 0 [72, 105, 13, 10], .print 2 [66, 121, 101, 13, 10]])),
      ((lengthFrames bigEndian).received cut.packets).1.map
          (messageText bigEndian sevenBitString) =
            [some [72, 105, 13, 10], some [66, 121, 101, 13, 10]] ∧
        ((lengthFrames bigEndian).received cut.packets).2 = []) ∧
      ∀ xs, xs <+: bytesTo 1 (session bigEndian sevenBitString none
          [.connectResponse 0 1, .print 0 [72, 105, 13, 10], .print 2 [66, 121, 101, 13, 10]]) →
        ((lengthFrames bigEndian).drain xs).1.map (messageText bigEndian sevenBitString) <+:
          [some [72, 105, 13, 10], some [66, 121, 101, 13, 10]] := by
  refine messages_delivered bigEndian sevenBitString (1 : Nat) (by simp) fun c hc => ?_
  rcases List.mem_pair.mp hc with rfl | rfl
  · rw [length_write_sevenBitString (by decide)]
    decide
  · rw [length_write_sevenBitString (by decide)]
    decide

end Session

end Odbk
