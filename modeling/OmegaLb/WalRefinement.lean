import OmegaLb.StepRun
import OmegaLb.WalRecords

/-! The log as a list: without faults, Replay returns the written entries whose number
was not passed to Commit since, in write order. The file holds one line for each entry
of a list, and its offset stands at the end before every append. -/
namespace OmegaLb.RingWal
open GoText (Bytes ascii)
open Utf8 (coerceValid Valid validAscii)
open StepRun (Run Guarded Answers Allowed perform performRun runTrace)

/-! ### What the log is for -/

abbrev Event := Call × Outcome

def Step : RingWAL → Event → RingWAL → Prop := Answers RingWAL.call

structure Logged where
  history : List Event
  wal : RingWAL

def Logged.call (s : Logged) (c : Call) : Logged × Outcome :=
  let (wal, outcome) := s.wal.call c
  (⟨s.history ++ [(c, outcome)], wal⟩, outcome)

def Logged.start (content : Bytes) : Logged := ⟨[], newRingWAL content⟩

abbrev LoggedStep : Logged → Event → Logged → Prop := Answers Logged.call

theorem loggedStep {s t : Logged} {e : Event} (step : LoggedStep s e t) :
    t.history = s.history ++ [e] ∧ Step s.wal e t.wal := by
  obtain ⟨c, r⟩ := e
  have target : t = (s.call c).1 := (congrArg Prod.fst step).symm
  have result : r = (s.call c).2 := (congrArg Prod.snd step).symm
  subst target result
  exact ⟨rfl, rfl⟩

def passed (seq : UInt64) (trace : List Event) : Bool :=
  trace.any fun e => match e.1 with
    | .commit q _ => q = seq
    | _ => false

def written : Event → Option WALEntry
  | (.write op backendID vnodes _ _, .wrote (.ok seq)) => some ⟨seq, op, backendID, vnodes, false⟩
  | _ => none

/-- The entries written whose number has not been passed to Commit since, in write order. -/
def uncommitted : List Event → List WALEntry
  | [] => []
  | e :: rest =>
    match written e with
    | some entry => if passed entry.seq rest then uncommitted rest else entry :: uncommitted rest
    | none => uncommitted rest

def Faultless (w : RingWAL) : Event → Prop
  | (.write op backendID vnodes cut sync, _) =>
    cut = none ∧ sync = true ∧ Valid op ∧ Short (w.nextEntry op backendID vnodes)
  | (.commit _ io, _) => io = .clean
  | (.checkpoint io, _) => io = .clean
  | _ => True

theorem passedSnoc (seq : UInt64) (trace : List Event) (e : Event) :
    passed seq (trace ++ [e]) = (passed seq trace || passed seq [e]) := by
  simp [passed]

theorem uncommittedSnoc (trace : List Event) (e : Event) :
    uncommitted (trace ++ [e]) =
      (uncommitted trace).filter (fun entry => !passed entry.seq [e]) ++ (written e).toList := by
  induction trace with
  | nil =>
    simp only [List.nil_append, uncommitted]
    cases written e <;> simp [passed]
  | cons first trace ih =>
    rw [List.cons_append, uncommitted, ih, uncommitted]
    cases written first with
    | none => rfl
    | some entry =>
      simp only [passedSnoc]
      cases passed entry.seq trace <;> cases now : passed entry.seq [e] <;> simp [now]

theorem uncommittedOther (trace : List Event) {e : Event} (other : ∀ seq io, e.1 ≠ .commit seq io) :
    uncommitted (trace ++ [e]) = uncommitted trace ++ (written e).toList := by
  have never (seq : UInt64) : passed seq [e] = false := by
    obtain ⟨c, r⟩ := e
    cases c with
    | commit q io => exact absurd rfl (other q io)
    | _ => rfl
  simp [uncommittedSnoc, never]

theorem uncommittedCommit (trace : List Event) (seq : UInt64) (io : RewriteIo) (r : Outcome) :
    uncommitted (trace ++ [(.commit seq io, r)]) = (uncommitted trace).filter fun e => e.seq ≠ seq := by
  have now (e : WALEntry) : passed e.seq [(.commit seq io, r)] = decide (e.seq = seq) := by
    simp [passed, eq_comm]
  simp [uncommittedSnoc, now, written]

/-! ### The file represents the list -/

def Represents (log : List WALEntry) (w : RingWAL) : Prop :=
  ∃ entries, w.f = ⟨encode entries, (encode entries).length⟩ ∧
    (∀ e ∈ entries, Short e ∧ Valid e.op) ∧ pending entries = log

theorem storedValid {e : WALEntry} (valid : Valid e.op) : e.stored = e := by
  rw [WALEntry.stored, coerceValid valid]

theorem readAllRepresented {entries : List WALEntry} (good : ∀ e ∈ entries, Short e ∧ Valid e.op)
    (offset : Nat) : readAll ⟨encode entries, offset⟩ =
      (⟨encode entries, (encode entries).length⟩, entries, none) := by
  have same : entries.map WALEntry.stored = entries :=
    (List.map_congr_left fun e member => storedValid (good e member).2).trans (List.map_id entries)
  rw [readAllEncode (fun e member => (good e member).1), same]

theorem newRepresents : Represents [] (newRingWAL []) := ⟨[], rfl, by simp, rfl⟩

theorem writeClean (w : RingWAL) (op : Bytes) (backendID : UInt32) (vnodes : Int64) :
    w.write op backendID vnodes none true =
      (⟨w.f.write (line (w.nextEntry op backendID vnodes)), w.seq + 1⟩, .ok (w.seq + 1)) := rfl

theorem writeRepresents {log : List WALEntry} {w : RingWAL} (represents : Represents log w)
    {op : Bytes} {backendID : UInt32} {vnodes : Int64} (valid : Valid op)
    (short : Short (w.nextEntry op backendID vnodes)) :
    (w.write op backendID vnodes none true).2 = .ok (w.seq + 1) ∧
      Represents (log ++ [w.nextEntry op backendID vnodes]) (w.write op backendID vnodes none true).1 := by
  obtain ⟨entries, file, good, live⟩ := represents
  have atEnd : AtEnd w.f := by rw [file]; rfl
  have appended := writeAtEnd atEnd (line (w.nextEntry op backendID vnodes))
  rw [writeClean, appended, file]
  refine ⟨rfl, entries ++ [w.nextEntry op backendID vnodes], by rw [encodeSnoc], ?_, ?_⟩
  · intro e member
    rcases List.mem_append.mp member with inside | last
    · exact good e inside
    · rw [List.mem_singleton.mp last]
      exact ⟨short, valid⟩
  · rw [pending, List.filter_append, ← pending, live]
    rfl

theorem pendingMark (seq : UInt64) (entries : List WALEntry) :
    pending (entries.map (mark seq)) = (pending entries).filter fun e => e.seq ≠ seq := by
  induction entries with
  | nil => rfl
  | cons e entries ih =>
    simp only [pending] at ih
    by_cases same : e.seq = seq
    · cases marked : e.committed <;> simp [pending, mark, same, marked, ih]
    · cases marked : e.committed <;> simp [pending, mark, same, marked, ih]

theorem pendingTwice (entries : List WALEntry) : pending (pending entries) = pending entries := by
  simp [pending, List.filter_filter]

theorem commitRepresents {log : List WALEntry} {w : RingWAL} (represents : Represents log w)
    (seq : UInt64) : (w.commit seq .clean).2 = none ∧
      Represents (log.filter fun e => e.seq ≠ seq) (w.commit seq .clean).1 := by
  obtain ⟨entries, file, good, live⟩ := represents
  have outcome : w.commit seq .clean =
      (⟨⟨encode (entries.map (mark seq)), (encode (entries.map (mark seq))).length⟩, w.seq⟩, none) := by
    rw [RingWAL.commit, file, readAllRepresented good]
    simp only [rewriteClean]
  rw [outcome]
  refine ⟨rfl, entries.map (mark seq), rfl, fun e member => ?_, by rw [pendingMark, live]⟩
  -- a line that fitted before fits with its mark
  obtain ⟨old, inside, rfl⟩ := List.mem_map.mp member
  refine ⟨markShort seq (good old inside).1, ?_⟩
  have op : (mark seq old).op = old.op := by
    rw [mark]
    split <;> rfl
  rw [op]
  exact (good old inside).2

theorem checkpointRepresents {log : List WALEntry} {w : RingWAL} (represents : Represents log w) :
    (w.checkpoint .clean).2 = none ∧ Represents log (w.checkpoint .clean).1 := by
  obtain ⟨entries, file, good, live⟩ := represents
  have outcome : w.checkpoint .clean =
      (⟨⟨encode (pending entries), (encode (pending entries)).length⟩, w.seq⟩, none) := by
    rw [RingWAL.checkpoint, file, readAllRepresented good]
    simp only [rewriteClean]
  rw [outcome]
  exact ⟨rfl, pending entries, rfl, fun e member => good e (List.mem_filter.mp member).1,
    by rw [pendingTwice, live]⟩

theorem replayRepresents {log : List WALEntry} {w : RingWAL} (represents : Represents log w) :
    w.replay.2 = .ok log ∧ Represents log w.replay.1 := by
  obtain ⟨entries, file, good, live⟩ := represents
  have outcome : w.replay =
      (⟨⟨encode entries, (encode entries).length⟩, w.seq⟩, .ok (pending entries)) := by
    rw [RingWAL.replay, file, readAllRepresented good]
  rw [outcome, live]
  exact ⟨rfl, entries, rfl, good, live⟩

theorem reopenRepresents {log : List WALEntry} {w : RingWAL} (represents : Represents log w) :
    Represents log w.reopen := by
  obtain ⟨entries, file, good, live⟩ := represents
  have outcome : w.reopen =
      ⟨⟨encode entries, (encode entries).length⟩, highestSeq entries⟩ := by
    rw [RingWAL.reopen, file, newRingWAL, readAllRepresented good]
  rw [outcome]
  exact ⟨entries, rfl, good, live⟩

theorem stepRepresents {trace : List Event} {w next : RingWAL} {e : Event}
    (represents : Represents (uncommitted trace) w) (faultless : Faultless w e)
    (step : Step w e next) : Represents (uncommitted (trace ++ [e])) next := by
  obtain ⟨c, r⟩ := e
  have target : next = (w.call c).1 := (congrArg Prod.fst step).symm
  have result : r = (w.call c).2 := (congrArg Prod.snd step).symm
  subst target result
  cases c with
  | write op backendID vnodes cut sync =>
    obtain ⟨rfl, rfl, valid, short⟩ := faultless
    rw [uncommittedOther trace (by simp)]
    exact (writeRepresents represents valid short).2
  | commit seq io =>
    cases faultless
    rw [uncommittedCommit]
    exact (commitRepresents represents seq).2
  | checkpoint io =>
    cases faultless
    rw [uncommittedOther trace (by simp)]
    simpa [written, RingWAL.call] using (checkpointRepresents represents).2
  | replay =>
    rw [uncommittedOther trace (by simp)]
    simpa [written, RingWAL.call] using (replayRepresents represents).2
  | reopen =>
    rw [uncommittedOther trace (by simp)]
    simpa [written, RingWAL.call] using reopenRepresents represents

theorem runRepresents {trace : List Event} {w : RingWAL}
    (run : Run (Guarded Faultless Step) (newRingWAL []) trace w) :
    Represents (uncommitted trace) w := by
  have start : Represents (uncommitted []) (newRingWAL []) := newRepresents
  have kept (es : List Event) (s : RingWAL) (e : Event) (t : RingWAL)
      (held : Represents (uncommitted es) s) (taken : Guarded Faultless Step s e t) :
      Represents (uncommitted (es ++ [e])) t := stepRepresents held taken.1 taken.2
  have last := runTrace kept run [] start
  rwa [List.nil_append] at last

theorem replayRefinesList {trace : List Event} {w : RingWAL}
    (run : Run (Guarded Faultless Step) (newRingWAL []) trace w) :
    w.replay.2 = .ok (uncommitted trace) ∧
    (∀ seq, (∀ e ∈ uncommitted trace, e.seq ≠ seq) →
      (w.commit seq .clean).1.replay.2 = .ok (uncommitted trace)) ∧
    (w.checkpoint .clean).1.replay.2 = .ok (uncommitted trace) := by
  have represents := runRepresents run
  refine ⟨(replayRepresents represents).1, fun seq unknown => ?_,
    (replayRepresents (checkpointRepresents represents).2).1⟩
  have kept := (replayRepresents (commitRepresents represents seq).2).1
  have same : (uncommitted trace).filter (fun e => e.seq ≠ seq) = uncommitted trace :=
    List.filter_eq_self.mpr fun e member => by simpa using unknown e member
  rwa [same] at kept

def restartCalls : List Call :=
  [.write (ascii "add") 1 150 none true, .write (ascii "remove") 2 0 none true, .commit 1 .clean,
    .reopen]

theorem restartReplays : (perform RingWAL.call (newRingWAL []) restartCalls).2.replay.2 =
    .ok [⟨2, ascii "remove", 2, 0, false⟩] := by
  have allowed : Allowed Faultless RingWAL.call (newRingWAL []) restartCalls :=
    ⟨⟨rfl, rfl, validAscii (by decide), by decide +kernel⟩,
      ⟨rfl, rfl, validAscii (by decide), by decide +kernel⟩, rfl, trivial, trivial⟩
  have replayed := (replayRefinesList (performRun allowed)).1
  have left : uncommitted (perform RingWAL.call (newRingWAL []) restartCalls).1 =
      [⟨2, ascii "remove", 2, 0, false⟩] := by decide +kernel
  exact replayed.trans (congrArg Except.ok left)

end OmegaLb.RingWal
