import Odbk.Process
import Odbk.Lib.ByteStream
import Mathlib.Data.Set.Basic

/-!
# Frames of the debug protocol

A frame is its length, the protocol version, a command and a payload. The byte order
and the format of strings are those of the network library, taken as parameters.
Proved here:

* `readHead_frameBytes`, `odbkpCreateMsg_read`: the receiver reads back the version and
  the command of a frame, and the payload of a message gives back its text;
* `frames_lossless_iff`: when the frames of a set of messages tell them apart;
* `severity_lost`: two messages with one frame.
-/

namespace Odbk

open ByteStream

/-- `ODBKP_VERSION` -/
def odbkpVersion : BitVec 32 := 0x100

/-- `proto_code::EV_MESSAGE` -/
def evMessage : BitVec 8 := 7

/-- `ODBKM_INFO`, `ODBKM_WARN`, `ODBKM_ERROR` -/
def MsgType.code : MsgType → BitVec 32
  | .info => 0
  | .warn => 1
  | .error => 2

section Frames

variable (B : ByteOrder) (S : StringFormat)

/-- `odbkp_create_msg`: the type is not written. -/
def odbkpCreateMsg (_type : BitVec 32) (msg : List UInt8) : List UInt8 :=
  let obs := B.encode 4 odbkpVersion ++ B.encode 1 evMessage ++ S.write msg
  -- `push32` reserves the place of the length, `pop32` fills it in
  B.encode 4 (BitVec.ofNat 32 (4 + obs.length)) ++ obs

/-- What the packet handler of `odbk_core::init` reads, and the bytes behind it; `none`
if a read goes past the end. -/
def readHead (packet : List UInt8) : Option ((BitVec 32 × BitVec 8) × List UInt8) := do
  -- skip length field
  let ibs := packet.drop 4
  let (protoVersion, ibs) ← readWord B 4 ibs
  let (cmd, ibs) ← readWord B 1 ibs
  return ((protoVersion, cmd), ibs)

/-- A frame with the length of the whole in front. -/
def frameBytes (version : BitVec 32) (cmd : BitVec 8) (payload : List UInt8) : List UInt8 :=
  B.encode 4 (BitVec.ofNat 32 (9 + payload.length)) ++
    (B.encode 4 version ++ (B.encode 1 cmd ++ payload))

theorem odbkpCreateMsg_eq (type : BitVec 32) (msg : List UInt8) :
    odbkpCreateMsg B S type msg = frameBytes B odbkpVersion evMessage (S.write msg) := by
  have hlen : 4 + (B.encode 4 odbkpVersion ++ B.encode 1 evMessage ++ S.write msg).length =
      9 + (S.write msg).length := by
    rw [List.length_append, List.length_append, B.length_encode, B.length_encode]
    omega
  rw [odbkpCreateMsg, hlen, frameBytes, List.append_assoc]

theorem readHead_frameBytes (version : BitVec 32) (cmd : BitVec 8) (payload : List UInt8) :
    readHead B (frameBytes B version cmd payload) = some ((version, cmd), payload) := by
  have hskip : (frameBytes B version cmd payload).drop 4 =
      B.encode 4 version ++ (B.encode 1 cmd ++ payload) :=
    List.drop_left' (B.length_encode 4 _)
  simp only [readHead, hskip, readWord_encode, Option.bind_eq_bind, Option.bind_some,
    Option.pure_def]

/-- **What a message frame keeps**: the version, the command and the text. -/
theorem odbkpCreateMsg_read (type : BitVec 32) (msg rest : List UInt8) :
    (readHead B (odbkpCreateMsg B S type msg ++ rest)).map (fun r => (r.1, S.read r.2)) =
      some ((odbkpVersion, evMessage), some (msg, rest)) := by
  have hframe : odbkpCreateMsg B S type msg ++ rest =
      B.encode 4 (BitVec.ofNat 32 (9 + (S.write msg).length)) ++
        (B.encode 4 odbkpVersion ++ (B.encode 1 evMessage ++ (S.write msg ++ rest))) := by
    rw [odbkpCreateMsg_eq, frameBytes]
    simp only [List.append_assoc]
  have hskip : (odbkpCreateMsg B S type msg ++ rest).drop 4 =
      B.encode 4 odbkpVersion ++ (B.encode 1 evMessage ++ (S.write msg ++ rest)) := by
    rw [hframe]
    exact List.drop_left' (B.length_encode 4 _)
  simp only [readHead, hskip, readWord_encode, Option.bind_eq_bind, Option.bind_some,
    Option.pure_def, Option.map_some, S.read_write]

/-- Frames lose nothing of the calls: some way of reading payloads gives back the
version, the command, the type and the text of each, and different calls have different
frames. -/
def Lossless (calls : Set (BitVec 32 × List UInt8)) : Prop :=
  (∃ readPayload : List UInt8 → Option (BitVec 32 × List UInt8), ∀ c ∈ calls,
      (readHead B (odbkpCreateMsg B S c.1 c.2)).map (fun r => (r.1, readPayload r.2)) =
        some ((odbkpVersion, evMessage), some c)) ∧
    ∀ c ∈ calls, ∀ c' ∈ calls, c ≠ c' →
      odbkpCreateMsg B S c.1 c.2 ≠ odbkpCreateMsg B S c'.1 c'.2

/-- **Frames.** They lose nothing exactly when no two of the calls have one text and
different types. -/
theorem frames_lossless_iff (calls : Set (BitVec 32 × List UInt8)) :
    Lossless B S calls ↔ ∀ c ∈ calls, ∀ c' ∈ calls, c.2 = c'.2 → c.1 = c'.1 := by
  classical
  constructor
  · rintro ⟨_, hframes⟩ c hc c' hc' hmsg
    by_contra htype
    refine hframes c hc c' hc' (fun heq => htype (congrArg Prod.fst heq)) ?_
    rw [odbkpCreateMsg_eq, odbkpCreateMsg_eq, hmsg]
  · intro htypes
    have hread : ∀ c : BitVec 32 × List UInt8, readHead B (odbkpCreateMsg B S c.1 c.2) =
        some ((odbkpVersion, evMessage), S.write c.2) := by
      intro c
      rw [odbkpCreateMsg_eq, readHead_frameBytes]
    refine ⟨⟨fun payload =>
      if h : ∃ c ∈ calls, S.write c.2 = payload then some h.choose else none, ?_⟩, ?_⟩
    · intro c hc
      have hex : ∃ c' ∈ calls, S.write c'.2 = S.write c.2 := ⟨c, hc, rfl⟩
      obtain ⟨hmem, hwrite⟩ := hex.choose_spec
      have hmsg : hex.choose.2 = c.2 := S.write_injective hwrite
      have hsame : hex.choose = c := Prod.ext (htypes _ hmem c hc hmsg) hmsg
      have hchoice : (if h : ∃ c' ∈ calls, S.write c'.2 = S.write c.2 then some h.choose
          else none) = some c := by rw [dif_pos hex, hsame]
      rw [hread, Option.map_some]
      exact congrArg (fun r => some ((odbkpVersion, evMessage), r)) hchoice
    · intro c hc c' hc' hne heq
      have hheads := hread c
      rw [heq, hread c', Option.some.injEq, Prod.mk.injEq] at hheads
      have hmsg : c'.2 = c.2 := S.write_injective hheads.2
      exact hne (Prod.ext (htypes c hc c' hc' hmsg.symm) hmsg.symm)

end Frames

/-- An error and an information with one text. -/
theorem severity_lost :
    ¬Lossless bigEndian sevenBitString
      {(MsgType.error.code, "failed\r\n".toUTF8.toList),
        (MsgType.info.code, "failed\r\n".toUTF8.toList)} := by
  rintro ⟨_, hframes⟩
  exact hframes _ (Or.inl rfl) _ (Or.inr rfl) (fun h => absurd (congrArg Prod.fst h) (by decide))
    rfl

end Odbk
