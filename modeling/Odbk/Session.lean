import Odbk.Proto
import Mathlib.Data.List.Forall2

/-!
# The session with the frontend

The core keeps the transport of the frontend in `vfd_`, sends every line of the log to
it and reads a version and a command from each packet. Proved here:

* `vfdAfter_eq_some`: `vfd_` is the transport accepted last, whatever was lost;
* `sends_live_iff`: when every send of a run of events is to a transport that is up;
* `readHead_iff`, `reception_iff`: when the commands read from the packets of a stream
  are those of the frames in it.
-/

namespace Odbk

open ByteStream

/-- An event of the network, or a call of `print` or `send`. -/
inductive SessionEvent (T : Type) where
  | packet (bytes : List UInt8)
  | connectResponse (status : Int) (transport : T)
  | connectionLost (status : Int) (transport : T)
  | print (type : BitVec 32) (msg : List UInt8)
  | send (data : List UInt8)
  deriving DecidableEq, Repr

/-- A call of `service_.write`, or the version and command read from a packet (`none`:
a read went past its end). -/
inductive SessionAction (T : Type) where
  | write (vfd : Option T) (data : List UInt8)
  | read (head : Option (BitVec 32 × BitVec 8))
  deriving DecidableEq, Repr

section Core

variable {T : Type} (B : ByteOrder) (S : StringFormat)

/-- `odbk_core::send` -/
def coreSend (vfd : Option T) (data : List UInt8) : List (SessionAction T) :=
  [.write vfd data]

/-- `odbk_core::print` -/
def corePrint (vfd : Option T) (type : BitVec 32) (msg : List UInt8) : List (SessionAction T) :=
  coreSend vfd (odbkpCreateMsg B S type msg)

/-- The event handler of `odbk_core::init`, `print` and `send`: the new `vfd_` and what
is done. -/
def sessionStep (vfd : Option T) : SessionEvent T → Option T × List (SessionAction T)
  | .packet bytes => (vfd, [.read ((readHead B bytes).map Prod.fst)])
  | .connectResponse status transport =>
    if status = 0 then (some transport, []) else (vfd, [])
  -- the loss is only logged
  | .connectionLost _ _ => (vfd, [])
  | .print type msg => (vfd, corePrint B S vfd type msg)
  | .send data => (vfd, coreSend vfd data)

/-- `vfd_` after `init` and a run of events. -/
def vfdAfter (es : List (SessionEvent T)) : Option T :=
  es.foldl (fun vfd e => (sessionStep B S vfd e).1) none

/-- Everything done in a run of events. -/
def session (vfd : Option T) : List (SessionEvent T) → List (SessionAction T)
  | [] => []
  | e :: es => (sessionStep B S vfd e).2 ++ session (sessionStep B S vfd e).1 es

end Core

/-! ## The current transport -/

section Transport

variable {T : Type} {B : ByteOrder} {S : StringFormat}

theorem vfd_step (vfd : Option T) (e : SessionEvent T) :
    (∃ t, e = .connectResponse 0 t ∧ (sessionStep B S vfd e).1 = some t) ∨
      (∀ t, e ≠ .connectResponse 0 t) ∧ (sessionStep B S vfd e).1 = vfd := by
  cases e with
  | connectResponse status t =>
    by_cases hs : status = 0
    · subst hs
      exact Or.inl ⟨t, rfl, rfl⟩
    · refine Or.inr ⟨fun t' h => hs (SessionEvent.connectResponse.inj h).1, ?_⟩
      rw [sessionStep, if_neg hs]
  | packet bytes => exact Or.inr ⟨by simp, rfl⟩
  | connectionLost status t => exact Or.inr ⟨by simp, rfl⟩
  | print type msg => exact Or.inr ⟨by simp, rfl⟩
  | send data => exact Or.inr ⟨by simp, rfl⟩

/-- The last event that accepted a transport is the one of `t`. -/
def AcceptedLast (t : T) (a b : List (SessionEvent T)) (es : List (SessionEvent T)) : Prop :=
  es = a ++ .connectResponse 0 t :: b ∧ ∀ t', .connectResponse 0 t' ∉ b

theorem vfd_run (es : List (SessionEvent T)) (vfd : Option T) :
    ((∀ t, .connectResponse 0 t ∉ es) ∧
        es.foldl (fun vfd e => (sessionStep B S vfd e).1) vfd = vfd) ∨
      ∃ a t b, AcceptedLast t a b es ∧
        es.foldl (fun vfd e => (sessionStep B S vfd e).1) vfd = some t := by
  induction es generalizing vfd with
  | nil => exact Or.inl ⟨by simp, rfl⟩
  | cons e es ih =>
    rw [List.foldl_cons]
    rcases ih (sessionStep B S vfd e).1 with ⟨hno, hv⟩ | ⟨a, t, b, ⟨hes, hb⟩, hv⟩
    · rcases vfd_step (B := B) (S := S) vfd e with ⟨t, rfl, hstep⟩ | ⟨hne, hstep⟩
      · exact Or.inr ⟨[], t, es, ⟨rfl, hno⟩, hv.trans hstep⟩
      · refine Or.inl ⟨fun t ht => ?_, hv.trans hstep⟩
        rcases List.mem_cons.mp ht with heq | ht
        · exact hne t heq.symm
        · exact hno t ht
    · exact Or.inr ⟨e :: a, t, b, ⟨by rw [hes, List.cons_append], hb⟩, hv⟩

/-- **`vfd_`** is the transport accepted last. -/
theorem vfdAfter_eq_some {es : List (SessionEvent T)} {t : T} :
    vfdAfter B S es = some t ↔ ∃ a b, AcceptedLast t a b es := by
  have huniq : ∀ a b t' a' b', AcceptedLast t a b es → AcceptedLast t' a' b' es → t' = t := by
    rintro a b t' a' b' ⟨hes, hb⟩ ⟨hes', hb'⟩
    rw [hes] at hes'
    rcases List.append_eq_append_iff.mp hes' with ⟨c, hc, hc'⟩ | ⟨c, hc, hc'⟩
    · cases c with
      | nil => cases hc'; rfl
      | cons x c =>
        cases hc'
        exact absurd (by simp) (hb t')
    · cases c with
      | nil => cases hc'; rfl
      | cons x c =>
        cases hc'
        exact absurd (by simp) (hb' t)
  rcases vfd_run (B := B) (S := S) es none with ⟨hno, hv⟩ | ⟨a, t', b, hlast, hv⟩
  · rw [vfdAfter, hv]
    constructor
    · intro h
      cases h
    · rintro ⟨a, b, hes, _⟩
      exact absurd (by simp [hes]) (hno t)
  · rw [vfdAfter, hv, Option.some.injEq]
    constructor
    · rintro rfl
      exact ⟨a, b, hlast⟩
    · rintro ⟨a', b', hlast'⟩
      exact huniq a' b' t' a b hlast' hlast

/-- The transport was accepted and not lost since. -/
def Live (t : T) (es : List (SessionEvent T)) : Prop :=
  ∃ a b, es = a ++ .connectResponse 0 t :: b ∧ ∀ status, .connectionLost status t ∉ b

/-- A frontend was accepted, and the one accepted last was not lost since. -/
def LastIsUp (es : List (SessionEvent T)) : Prop :=
  ∃ a t b, AcceptedLast t a b es ∧ ∀ status, .connectionLost status t ∉ b

theorem AcceptedLast.live_iff {t : T} {a b es : List (SessionEvent T)}
    (h : AcceptedLast t a b es) : Live t es ↔ ∀ status, .connectionLost status t ∉ b := by
  constructor
  · rintro ⟨a', b', hes', hlost⟩ status hmem
    -- the connection that is up was accepted no later than the last one
    have hes := h.1.symm.trans hes'
    rcases List.append_eq_append_iff.mp hes with ⟨c, hc, hc'⟩ | ⟨c, hc, hc'⟩
    · cases c with
      | nil =>
        cases hc'
        exact hlost status hmem
      | cons x c =>
        cases hc'
        exact absurd (by simp) (h.2 t)
    · cases c with
      | nil =>
        cases hc'
        exact hlost status hmem
      | cons x c =>
        cases hc'
        exact hlost status (by simp [hmem])
  · exact fun hlost => ⟨a, b, h.1, hlost⟩

theorem lastIsUp_iff (es : List (SessionEvent T)) :
    LastIsUp es ↔ ∃ t, vfdAfter B S es = some t ∧ Live t es := by
  constructor
  · rintro ⟨a, t, b, hlast, hlost⟩
    exact ⟨t, vfdAfter_eq_some.mpr ⟨a, b, hlast⟩, hlast.live_iff.mpr hlost⟩
  · rintro ⟨t, hv, hlive⟩
    obtain ⟨a, b, hlast⟩ := vfdAfter_eq_some.mp hv
    exact ⟨a, t, b, hlast, hlast.live_iff.mp hlive⟩

/-- The event is a call that sends. -/
def SessionEvent.sends : SessionEvent T → Bool
  | .print _ _ => true
  | .send _ => true
  | _ => false

theorem write_mem_iff {vfd w : Option T} {e : SessionEvent T} :
    (∃ data, .write w data ∈ (sessionStep B S vfd e).2) ↔ e.sends = true ∧ w = vfd := by
  cases e with
  | connectResponse status t =>
    simp only [sessionStep, SessionEvent.sends]
    split <;> simp
  | packet bytes => simp [sessionStep, SessionEvent.sends]
  | connectionLost status t => simp [sessionStep, SessionEvent.sends]
  | print type msg => simp [sessionStep, SessionEvent.sends, corePrint, coreSend]
  | send data => simp [sessionStep, SessionEvent.sends, coreSend]

end Transport

/-- Every write of a run passes a transport that is up. -/
def SendsLive {T : Type} (B : ByteOrder) (S : StringFormat) (es : List (SessionEvent T)) : Prop :=
  ∀ pre e post, es = pre ++ e :: post → ∀ vfd data,
    .write vfd data ∈ (sessionStep B S (vfdAfter B S pre) e).2 → ∃ t, vfd = some t ∧ Live t pre

/-- **Session.** Every send of a run is to a transport that is up exactly when at each of
them the frontend accepted last is. -/
theorem sends_live_iff {T : Type} (B : ByteOrder) (S : StringFormat)
    (es : List (SessionEvent T)) :
    SendsLive B S es ↔
      ∀ pre e post, es = pre ++ e :: post → e.sends = true → LastIsUp pre := by
  constructor
  · intro hlive pre e post hes hsends
    obtain ⟨data, hw⟩ := write_mem_iff.mpr ⟨hsends, rfl⟩
    exact (lastIsUp_iff pre).mpr (hlive pre e post hes _ data hw)
  · intro hup pre e post hes vfd data hw
    obtain ⟨hsends, rfl⟩ := write_mem_iff.mp ⟨data, hw⟩
    exact (lastIsUp_iff pre).mp (hup pre e post hes hsends)

/-- A line of the log before any frontend came, and one after it went. -/
theorem sends_to_null_and_lost :
    ¬SendsLive (T := Nat) bigEndian sevenBitString [.print MsgType.warn.code []] ∧
      ¬SendsLive bigEndian sevenBitString
        [.connectResponse 0 1, .connectionLost 10054 1, .print MsgType.warn.code []] := by
  constructor
  · intro h
    obtain ⟨t, ht, _⟩ := h [] _ [] rfl none _ List.mem_cons_self
    cases ht
  · intro h
    obtain ⟨t, ht, a, b, hes, hlost⟩ :=
      h [.connectResponse 0 1, .connectionLost 10054 1] _ [] rfl (some 1) _ List.mem_cons_self
    cases ht
    cases a with
    | nil =>
      cases hes
      exact hlost 10054 List.mem_cons_self
    | cons x a =>
      have hrest := (List.cons.inj hes).2
      cases a with
      | nil => cases hrest
      | cons y a => simp at hrest

/-! ## Reception -/

section Reception

variable {T : Type} {B : ByteOrder} {S : StringFormat}

/-- What the packet handler reads are the five bytes behind the length. -/
theorem readHead_iff {packet : List UInt8} {version : BitVec 32} {cmd : BitVec 8} :
    (readHead B packet).map Prod.fst = some (version, cmd) ↔
      (packet.drop 4).take 5 = B.encode 4 version ++ B.encode 1 cmd := by
  constructor
  · intro h
    unfold readHead at h
    cases h₁ : readWord B 4 (packet.drop 4) with
    | none => simp [h₁] at h
    | some r =>
      obtain ⟨v, rest⟩ := r
      cases h₂ : readWord B 1 rest with
      | none => simp [h₁, h₂] at h
      | some r' =>
        obtain ⟨c, rest'⟩ := r'
        simp only [h₁, h₂, Option.bind_eq_bind, Option.bind_some, Option.pure_def, Option.map_some,
          Option.some.injEq, Prod.mk.injEq] at h
        obtain ⟨rfl, rfl⟩ := h
        rw [readWord_eq_some] at h₁ h₂
        rw [h₁, h₂, ← List.append_assoc]
        exact List.take_left' (by simp)
  · intro h
    have hsplit : packet.drop 4 =
        B.encode 4 version ++ (B.encode 1 cmd ++ (packet.drop 4).drop 5) := by
      rw [← List.append_assoc, ← h, List.take_append_drop]
    simp only [readHead]
    rw [hsplit]
    simp only [readWord_encode, Option.bind_eq_bind, Option.bind_some, Option.pure_def,
      Option.map_some]

theorem session_packets (vfd : Option T) (packets : List (List UInt8)) :
    session B S vfd (packets.map .packet) =
      packets.map fun p => .read ((readHead B p).map Prod.fst) := by
  induction packets with
  | nil => rfl
  | cons p packets ih =>
    rw [List.map_cons, session, List.map_cons, sessionStep, ih]
    rfl

/-- A well-formed frame: its length fits the field in front. -/
structure Frame where
  version : BitVec 32
  cmd : BitVec 8
  payload : List UInt8
  fits : 9 + payload.length < 2 ^ 32

def Frame.bytes (B : ByteOrder) (f : Frame) : List UInt8 :=
  frameBytes B f.version f.cmd f.payload

theorem Frame.head_bytes (B : ByteOrder) (f : Frame) :
    ((f.bytes B).drop 4).take 5 = B.encode 4 f.version ++ B.encode 1 f.cmd := by
  rw [← readHead_iff, Frame.bytes, readHead_frameBytes, Option.map_some]

/-- A way of cutting a stream into packets. -/
structure Cut (stream : List UInt8) where
  packets : List (List UInt8)
  nonempty : ∀ p ∈ packets, p ≠ []
  flatten : packets.flatten = stream

/-- The handler reads the versions and commands of the frames, once each and in order,
and never past the end of a packet. -/
def ReadsFrames (T : Type) (B : ByteOrder) (S : StringFormat) (frames : List Frame)
    (packets : List (List UInt8)) : Prop :=
  ∀ vfd : Option T, session B S vfd (packets.map .packet) =
    frames.map fun f => .read (some (f.version, f.cmd))

/-- There are as many packets as frames, and each has the five bytes of its frame's
version and command where they stand in the frame. -/
def HeadsInPlace (B : ByteOrder) (frames : List Frame) (packets : List (List UInt8)) : Prop :=
  List.Forall₂ (fun (p : List UInt8) f => (p.drop 4).take 5 = ((f.bytes B).drop 4).take 5)
    packets frames

theorem headsInPlace_frames (B : ByteOrder) (frames : List Frame) :
    HeadsInPlace B frames (frames.map (Frame.bytes B)) := by
  unfold HeadsInPlace
  rw [List.forall₂_map_left_iff]
  exact List.forall₂_same.mpr fun _ _ => rfl

/-- **Reception.** However the stream of some frames is cut, the handler reads the
commands of the frames exactly when their heads are in place in the packets. -/
theorem reception_iff (T : Type) (B : ByteOrder) (S : StringFormat) (frames : List Frame)
    (cut : Cut (frames.map (Frame.bytes B)).flatten) :
    ReadsFrames T B S frames cut.packets ↔ HeadsInPlace B frames cut.packets := by
  have hone : ∀ p f, (SessionAction.read ((readHead B p).map Prod.fst) : SessionAction T) =
      .read (some (f.version, f.cmd)) ↔ (p.drop 4).take 5 = ((Frame.bytes B f).drop 4).take 5 := by
    intro p f
    rw [SessionAction.read.injEq, readHead_iff, f.head_bytes]
  have hmap : HeadsInPlace B frames cut.packets ↔
      cut.packets.map (fun p => (SessionAction.read ((readHead B p).map Prod.fst) :
        SessionAction T)) = frames.map fun f => .read (some (f.version, f.cmd)) := by
    rw [← List.forall₂_eq_eq_eq, List.forall₂_map_left_iff, List.forall₂_map_right_iff]
    simp only [hone]
    rfl
  rw [hmap]
  constructor
  · intro h
    rw [← h none, session_packets]
  · intro h vfd
    rw [session_packets]
    exact h

/-- Two frames in one packet: the second command is not read. -/
theorem second_command_missed :
    ∃ (frames : List Frame) (cut : Cut (frames.map (Frame.bytes bigEndian)).flatten),
      frames.map Frame.cmd = [8, 9] ∧ cut.packets.length = 1 ∧
        ¬ReadsFrames Unit bigEndian sevenBitString frames cut.packets := by
  let frames : List Frame := [⟨odbkpVersion, 8, [], by decide⟩, ⟨odbkpVersion, 9, [], by decide⟩]
  refine ⟨frames, ⟨[(frames.map (Frame.bytes bigEndian)).flatten], ?_, by simp⟩, rfl, rfl, ?_⟩
  · intro p hp
    rw [List.mem_singleton.mp hp]
    decide
  · intro h
    have hlen := congrArg List.length (h none)
    rw [session_packets] at hlen
    simp [frames] at hlen

end Reception

end Odbk
