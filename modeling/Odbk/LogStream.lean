import Odbk.LoadModel
import Odbk.Format
import Odbk.FrontendStream

/-!
# The log on its way to a frontend

A line that is logged goes through `odbk_sfmt`, and what this returns is printed. Proved
here:

* `sfmtExact_iff_of_first`: the text comes back as it is exactly when the first call of
  `vsnprintf` that succeeds gives it;
* `sfmt_line`: `odbk_sfmt` returns for every line, and changes it exactly where an old MSVC
  fills the buffer of a retry with it;
* `log_delivered`: a frontend that connects before a run of loads and installs reads the
  lines that the run logs, unless one of them is such a line.
-/

namespace Odbk

open ByteStream Framing

/-! ## Formatting -/

/-- The bytes of a line of the log. -/
def LogMessage.bytes (m : LogMessage) : List UInt8 := m.content.toUTF8.data.toList

theorem getLast?_bytes {m : LogMessage} (h : m.Terminated) : m.bytes.getLast? = some 10 := by
  obtain ⟨text, ht⟩ := h
  have hbytes : m.bytes = text.toUTF8.data.toList ++ [13, 10] := by
    rw [LogMessage.bytes, ht]
    change (text ++ "\r\n").toByteArray.data.toList = _
    rw [String.toByteArray_append, ByteArray.toList_data_append]
    rfl
  rw [hbytes, List.getLast?_append]
  rfl

section Lines

variable {b : Build} {v : Vsnprintf} {conv : Convention} {s : List UInt8}

/-- The condition for the text to come back says so of the first call that succeeds. -/
theorem sfmtExact_iff_of_first (h : v.Follows conv s) {k : Nat} (hk : FirstSuccess b v k) :
    SfmtExact b s conv ↔ result b v k = s := by
  rw [result_eq_iff h hk]
  obtain ⟨hr, hf⟩ := (firstSuccess_iff_reports h k).mp hk
  cases conv with
  | c99 =>
    have hzero : k = 0 := by
      by_contra hne
      exact hf 0 (Nat.pos_of_ne_zero hne) trivial
    exact iff_of_true trivial (Or.inl hzero)
  | oldMsvc =>
    constructor
    · rintro ⟨k', hk', hmin, hc⟩
      have hfirst : FirstSuccess b v k' := (firstSuccess_iff_reports h k').mpr
        ⟨hk', fun j hj => not_le.mpr (hmin j hj)⟩
      rwa [hk.unique hfirst]
    · exact fun hc => ⟨k, hr, fun j hj => not_le.mp (hf j hj), hc⟩
  | oldGlibc =>
    have hroom : s.length ≤ size b k := Nat.le_of_lt_succ hr
    exact iff_of_true ⟨k, hroom⟩ (Or.inr (Or.inl hroom))

/-- A text that does not make `size_t` wrap is formatted. -/
theorem exists_firstSuccess (h : v.Follows conv s) (hlen : s.length * 3 ≤ 2 ^ b.bits) :
    ∃ k, FirstSuccess b v k := by
  obtain ⟨k, hk, _, hsize⟩ := exists_size b hlen
  have hr : conv.Reports s (size b k + 1) := by
    rw [hsize k le_rfl]
    cases conv with
    | c99 => trivial
    | oldMsvc => exact hk.trans (Nat.le_succ _)
    | oldGlibc => exact Nat.lt_succ_of_le hk
  refine exists_firstSuccess_iff.mpr ⟨k, ?_⟩
  rw [nret_of_reports h k (Nat.succ_pos _) hr]
  exact Int.natCast_nonneg _

end Lines

/-- With an old MSVC the text and no NUL fill the array of a retry. -/
def FillsRetry (conv : Convention) (s : List UInt8) : Prop :=
  conv = .oldMsvc ∧ ∃ k, s.length = growth (k + 1) + 1

/-- What `odbk_sfmt` may return for a line. -/
def FormattedAs (b : Build) (conv : Convention) (m : LogMessage) (content : List UInt8) : Prop :=
  ∃ v : Vsnprintf, v.Follows conv m.bytes ∧ ∃ fuel, odbkSfmt b v fuel = some content

/-- **Lines through `odbk_sfmt`.** It returns for every line, and what it returns is the line
unless an old MSVC fills an array with it. -/
theorem sfmt_line {b : Build} {conv : Convention} {m : LogMessage} (hm : m.Terminated)
    (hlen : m.bytes.length * 3 ≤ 2 ^ b.bits) :
    (∀ v : Vsnprintf, v.Follows conv m.bytes → ∃ fuel content, odbkSfmt b v fuel = some content) ∧
      ∀ content, FormattedAs b conv m content → (content = m.bytes ↔ ¬FillsRetry conv m.bytes) := by
  have hlast := getLast?_bytes hm
  have hexact : SfmtExact b m.bytes conv ↔ ¬FillsRetry conv m.bytes := by
    obtain ⟨hglibc, hmsvc⟩ := sfmtExact_iff hlen
    cases conv with
    | c99 => exact iff_of_true trivial fun h => Convention.noConfusion h.1
    | oldGlibc => exact iff_of_true hglibc fun h => Convention.noConfusion h.1
    | oldMsvc =>
      rw [hmsvc, hlast]
      simp [FillsRetry]
  constructor
  · exact fun v hv => (sfmt_returns_iff b v).mpr (exists_firstSuccess hv hlen)
  · rintro content ⟨v, hv, hreturns⟩
    obtain ⟨k, hk, rfl⟩ := (sfmt_eq_some_iff b v content).mp hreturns
    rw [← sfmtExact_iff_of_first hv hk, hexact]

/-! ## Delivery -/

/-- What the log macros print for lines of the log. -/
def Printed (b : Build) (conv : Convention) (log : List LogMessage)
    (cs : List (BitVec 32 × List UInt8)) : Prop :=
  List.Forall₂ (fun m c => c.1 = m.type.code ∧ FormattedAs b conv m c.2) log cs

theorem exists_printed {b : Build} (conv : Convention) {log : List LogMessage}
    (hlog : ∀ m ∈ log, m.Terminated ∧ m.bytes.length * 3 ≤ 2 ^ b.bits) :
    ∃ cs, Printed b conv log cs := by
  induction log with
  | nil => exact ⟨[], .nil⟩
  | cons m log ih =>
    obtain ⟨cs, hcs⟩ := ih fun m' hm' => hlog m' (List.mem_cons_of_mem _ hm')
    obtain ⟨hm, hlen⟩ := hlog m List.mem_cons_self
    have hv := follows_vsnprintf conv m.bytes
    obtain ⟨fuel, content, hc⟩ := (sfmt_line hm hlen).1 _ hv
    exact ⟨(m.type.code, content) :: cs, .cons ⟨rfl, _, hv, fuel, hc⟩ hcs⟩

/-- What is printed are the lines exactly when none of them fills an array. -/
theorem printed_eq_iff {b : Build} {conv : Convention} {log : List LogMessage}
    {cs : List (BitVec 32 × List UInt8)} (hcs : Printed b conv log cs)
    (hlog : ∀ m ∈ log, m.Terminated ∧ m.bytes.length * 3 ≤ 2 ^ b.bits) :
    cs.map Prod.snd = log.map LogMessage.bytes ↔ ∀ m ∈ log, ¬FillsRetry conv m.bytes := by
  induction hcs with
  | nil => simp
  | @cons m c log cs hc _ ih =>
    obtain ⟨hm, hlen⟩ := hlog m List.mem_cons_self
    rw [List.map_cons, List.map_cons, List.cons.injEq, (sfmt_line hm hlen).2 c.2 hc.2,
      ih fun m' hm' => hlog m' (List.mem_cons_of_mem _ hm'), List.forall_mem_cons]

section Session

variable {T : Type} [DecidableEq T] (B : ByteOrder) (S : StringFormat)

omit [DecidableEq T] in
/-- Calls of `print`, one after the other. -/
def printCalls (T : Type) (cs : List (BitVec 32 × List UInt8)) : List (SessionEvent T) :=
  cs.map fun c => .print c.1 c.2

omit [DecidableEq T] in
theorem send_not_mem_printCalls (cs : List (BitVec 32 × List UInt8)) (data : List UInt8) :
    SessionEvent.send data ∉ printCalls T cs := by
  intro h
  obtain ⟨c, _, he⟩ := List.mem_map.mp h
  cases he

theorem printedTo_append (t : T) (es es' : List (SessionEvent T)) (vfd : Option T) :
    printedTo B S t vfd (es ++ es') = printedTo B S t vfd es ++
      printedTo B S t (es.foldl (fun vfd e => (sessionStep B S vfd e).1) vfd) es' := by
  induction es generalizing vfd with
  | nil => rfl
  | cons e es ih =>
    rw [List.cons_append, printedTo, printedTo, ih, List.append_assoc, List.foldl_cons]

omit [DecidableEq T] in
theorem vfd_printCalls (cs : List (BitVec 32 × List UInt8)) (vfd : Option T) :
    (printCalls T cs).foldl (fun vfd e => (sessionStep B S vfd e).1) vfd = vfd := by
  induction cs with
  | nil => rfl
  | cons c cs ih => exact ih

theorem printedTo_printCalls (t : T) (cs : List (BitVec 32 × List UInt8)) (vfd : Option T) :
    printedTo B S t vfd (printCalls T cs) = if vfd = some t then cs else [] := by
  induction cs with
  | nil => simp [printCalls, printedTo]
  | cons c cs ih =>
    have hcons : printCalls T (c :: cs) = .print c.1 c.2 :: printCalls T cs := rfl
    have hstep : (sessionStep B S vfd (.print c.1 c.2)).1 = vfd := rfl
    rw [hcons, printedTo, hstep, ih]
    by_cases hv : vfd = some t
    · simp [hv, SessionEvent.line]
    · simp [hv]

/-- Of lines printed before and after it connects, a frontend gets those after. -/
theorem printedTo_connected (t : T) (before after : List (BitVec 32 × List UInt8)) :
    printedTo B S t none (printCalls T before ++ .connectResponse 0 t :: printCalls T after) =
      after := by
  rw [printedTo_append, printedTo_printCalls, if_neg (by simp), vfd_printCalls, printedTo]
  have hstep : (sessionStep B S none (.connectResponse 0 t)).1 = some t := rfl
  rw [hstep, printedTo_printCalls, if_pos rfl, if_neg (by simp)]
  rfl

/-- The frontend's texts, however its bytes are cut. -/
theorem received_connected (t : T) (before : List (BitVec 32 × List UInt8))
    {after : List (BitVec 32 × List UInt8)}
    (hfit : ∀ c ∈ after, 9 + (S.write c.2).length < 2 ^ 32)
    (cut : Cut (bytesTo t (session B S none
      (printCalls T before ++ .connectResponse 0 t :: printCalls T after)))) :
    ((lengthFrames B).received cut.packets).1.map (messageText B S) =
        after.map (fun c => some c.2) ∧
      ((lengthFrames B).received cut.packets).2 = [] := by
  have hprinted := printedTo_connected B S t before after
  have hlines : ∀ data, SessionEvent.send data ∉
      printCalls T before ++ SessionEvent.connectResponse 0 t :: printCalls T after := by
    intro data hmem
    rcases List.mem_append.mp hmem with hmem | hmem
    · exact send_not_mem_printCalls before data hmem
    · rcases List.mem_cons.mp hmem with he | hmem
      · cases he
      · exact send_not_mem_printCalls after data hmem
  have h := received_session B S t hlines (fun c hc => hfit c (hprinted ▸ hc)) cut
  rwa [hprinted] at h

/-- **The log of a run.** A frontend connects, and then loads and installs run. Each line
they log is formatted, whatever the convention of `vsnprintf`, and however its bytes are cut
the frontend reads as many texts as there are lines. They are the lines logged, in order and
nothing before them, exactly when none of these fills an array. -/
theorem log_delivered {core : OdbkCore} {l : List (World × Handle)} {p q : Process}
    (run : BackendRun core p l q) (b : Build) (conv : Convention) (t : T)
    (before : List (BitVec 32 × List UInt8)) :
    ∃ logged, q.log = p.log ++ logged ∧
      ((∀ m ∈ logged, m.bytes.length * 3 ≤ 2 ^ b.bits) →
        (∃ after, Printed b conv logged after) ∧
          ∀ after, Printed b conv logged after →
            (∀ c ∈ after, 9 + (S.write c.2).length < 2 ^ 32) →
            ∀ cut : Cut (bytesTo t (session B S none
              (printCalls T before ++ .connectResponse 0 t :: printCalls T after))),
              (((lengthFrames B).received cut.packets).1.map (messageText B S) =
                  logged.map (fun m => some m.bytes) ↔
                ∀ m ∈ logged, ¬FillsRetry conv m.bytes) ∧
              ((lengthFrames B).received cut.packets).2 = []) := by
  obtain ⟨logged, hlog, hends⟩ := log_run run
  refine ⟨logged, hlog, fun hlen => ?_⟩
  have hall : ∀ m ∈ logged, m.Terminated ∧ m.bytes.length * 3 ≤ 2 ^ b.bits :=
    fun m hm => ⟨hends m hm, hlen m hm⟩
  refine ⟨exists_printed conv hall, fun after hafter hfit cut => ?_⟩
  obtain ⟨htexts, hleft⟩ := received_connected B S t before hfit cut
  refine ⟨?_, hleft⟩
  have hread : after.map (fun c => some c.2) = (after.map Prod.snd).map some :=
    List.map_map.symm
  have hlines : logged.map (fun m => some m.bytes) = (logged.map LogMessage.bytes).map some :=
    List.map_map.symm
  rw [htexts, ← printed_eq_iff hafter hall, hread, hlines,
    (List.map_injective_iff.mpr (Option.some_injective _)).eq_iff]

/-- The line that refuses a module with one function of the API. -/
def refusedLine : LogMessage := ⟨.error, warning1004 .luaNewstate ++ "\r\n"⟩

/-- The frontend reads it. -/
theorem log_delivered_refused :
    ∃ p, BackendRun ⟨0, 0⟩ (Process.fresh fun _ => true)
        [(World.exporting [("lua_gettop", 4096)], 1)] p ∧
      ∃ after, Printed .x64 .c99 p.log after ∧
        ∀ cut : Cut (bytesTo 1 (session bigEndian sevenBitString none
            (printCalls Nat [] ++ .connectResponse 0 1 :: printCalls Nat after))),
          ((lengthFrames bigEndian).received cut.packets).1.map
              (messageText bigEndian sevenBitString) = [some refusedLine.bytes] := by
  have hload := odbkLoadLuaInternal_module (World.exporting [("lua_gettop", 4096)]) ⟨0, 0⟩
    (show (1 : Handle) ≠ nullptr by decide) (Process.fresh fun _ => true)
  have run := BackendRun.load hload (.nil _)
  obtain ⟨logged, hlog, hread⟩ :=
    log_delivered bigEndian sevenBitString run .x64 .c99 (1 : Nat) []
  have hlogged : logged = [refusedLine] := hlog.symm
  subst hlogged
  have hshort : refusedLine.bytes.length < 128 := by decide +kernel
  have hlen : ∀ m ∈ [refusedLine], m.bytes.length * 3 ≤ 2 ^ Build.bits .x64 := by
    intro m hm
    rw [List.mem_singleton.mp hm]
    have hbits : 2 ^ Build.bits .x64 = 18446744073709551616 := rfl
    omega
  have hends : ∀ m ∈ [refusedLine],
      m.Terminated ∧ m.bytes.length * 3 ≤ 2 ^ Build.bits .x64 := fun m hm =>
    ⟨⟨warning1004 .luaNewstate, by rw [List.mem_singleton.mp hm]; rfl⟩, hlen m hm⟩
  have hnone : ∀ m ∈ [refusedLine], ¬FillsRetry .c99 m.bytes :=
    fun _ _ h => Convention.noConfusion h.1
  obtain ⟨⟨after, hafter⟩, htexts⟩ := hread hlen
  have hsame := (printed_eq_iff hafter hends).mpr hnone
  refine ⟨_, run, after, hafter, fun cut =>
    ((htexts after hafter (fun c hc => ?_) cut).1).mpr hnone⟩
  have hmem : c.2 ∈ after.map Prod.snd := List.mem_map_of_mem hc
  rw [hsame] at hmem
  rw [List.mem_singleton.mp hmem, length_write_sevenBitString hshort]
  omega

end Session

end Odbk
