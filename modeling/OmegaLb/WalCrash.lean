import OmegaLb.WalRefinement

/-! Stopping inside Commit and Checkpoint. The rewrite is its disk operations in order, one
for each byte; the process may stop before, between or after them. Right after the
truncation the only copy of the log is gone. -/
namespace OmegaLb.RingWal
open GoText (Bytes ascii)
open StepRun (Run Guarded perform)
open LineScan (Fits)

inductive DiskOp where
  | truncate
  | seek
  | put (b : UInt8)
  | sync
  deriving DecidableEq, Repr

def File.apply (f : File) : DiskOp → File
  | .truncate => f.truncate
  | .seek => f.seekStart
  | .put b => f.write [b]
  | .sync => f

def rewriteOps (entries : List WALEntry) : List DiskOp :=
  .truncate :: .seek :: (encode entries).map .put ++ [.sync]

/-- What a call does to the disk that reads the log and rewrites it. -/
def rewritingOps (w : RingWAL) (keep : List WALEntry → List WALEntry) : List DiskOp :=
  match readAll w.f with
  | (_, _, some _) => []
  | (_, entries, none) => rewriteOps (keep entries)

def commitOps (w : RingWAL) (seq : UInt64) : List DiskOp := rewritingOps w (List.map (mark seq))

def checkpointOps (w : RingWAL) : List DiskOp := rewritingOps w pending

def stopped (f : File) (ops : List DiskOp) (n : Nat) : File := (ops.take n).foldl File.apply f

def Kept (before : List WALEntry) (f : File) : Prop :=
  before = [] ∨ ∃ after, (newRingWAL f.content).replay.2 = .ok after ∧ before.Sublist after

/-! ### The operations are those of the calls -/

theorem putsAtEnd {f : File} (atEnd : AtEnd f) (bytes : Bytes) :
    (bytes.map DiskOp.put).foldl File.apply f = f.write bytes := by
  induction bytes generalizing f with
  | nil => simp [File.write]
  | cons b bytes ih =>
    have one := writeAtEnd atEnd [b]
    have next : AtEnd ⟨f.content ++ [b], (f.content ++ [b]).length⟩ := rfl
    have rest := ih next
    rw [List.map_cons, List.foldl_cons, File.apply, one, rest, writeAtEnd next, writeAtEnd atEnd]
    simp

theorem rewriteOpsRun (f : File) (entries : List WALEntry) :
    (rewriteOps entries).foldl File.apply f = (rewrite f entries .clean).1 := by
  have empty : AtEnd f.truncate.seekStart := rfl
  have printed := putsAtEnd empty (encode entries)
  have opened : (rewriteOps entries).foldl File.apply f =
      ((encode entries).map DiskOp.put).foldl File.apply f.truncate.seekStart := by
    simp [rewriteOps, File.apply]
  rw [opened, printed, rewriteClean, writeAtEnd empty]
  rfl

theorem commitOpsRun (w : RingWAL) (seq : UInt64) :
    (commitOps w seq).foldl File.apply (readAll w.f).1 = (w.commit seq .clean).1.f := by
  rw [commitOps, rewritingOps, RingWAL.commit]
  rcases readAll w.f with ⟨f, entries, _ | err⟩
  · exact rewriteOpsRun _ _
  · rfl

theorem checkpointOpsRun (w : RingWAL) :
    (checkpointOps w).foldl File.apply (readAll w.f).1 = (w.checkpoint .clean).1.f := by
  rw [checkpointOps, rewritingOps, RingWAL.checkpoint]
  rcases readAll w.f with ⟨f, entries, _ | err⟩
  · exact rewriteOpsRun _ _
  · rfl

/-! ### Stopping points -/

def walOf (entries : List WALEntry) (offset : Nat) (seq : UInt64) : RingWAL :=
  ⟨⟨encode entries, offset⟩, seq⟩

theorem runFile {trace : List Event} {w : RingWAL}
    (run : Run (Guarded Faultless Step) (newRingWAL []) trace w) :
    ∃ entries, w = walOf entries (encode entries).length w.seq ∧ pending entries = uncommitted trace := by
  obtain ⟨entries, file, _, live⟩ := runRepresents run
  rcases w with ⟨f, seq⟩
  cases file
  exact ⟨entries, rfl, live⟩

def commitStopped (w : RingWAL) (seq : UInt64) (n : Nat) : File :=
  stopped (readAll w.f).1 (commitOps w seq) n

def checkpointStopped (w : RingWAL) (n : Nat) : File :=
  stopped (readAll w.f).1 (checkpointOps w) n

theorem keptTooLong {before : List WALEntry} {f : File}
    (long : ¬ Fits maxScanTokenSize f.content) (kept : Kept before f) : before = [] := by
  rcases kept with none | ⟨after, replayed, _⟩
  · exact none
  · have same : (newRingWAL f.content).f.content = f.content := rfl
    obtain ⟨offset, entries, found⟩ :=
      @readAllTooLong (newRingWAL f.content).f (by rw [same]; exact long)
    rw [RingWAL.replay, found] at replayed
    contradiction

theorem keptEmpty {before : List WALEntry} {f : File} (empty : f.content = [])
    (kept : Kept before f) : before = [] := by
  rcases kept with none | ⟨after, replayed, sub⟩
  · exact none
  · rw [empty] at replayed
    cases Except.ok.inj replayed
    exact List.sublist_nil.mp sub

theorem stoppedLoses {w : RingWAL} {before : List WALEntry} {keep : List WALEntry → List WALEntry}
    (kept : ∀ n, Kept before (stopped (readAll w.f).1 (rewritingOps w keep) n)) : before = [] := by
  by_cases fits : Fits maxScanTokenSize w.f.content
  · -- stopped between the truncation and the seek
    have truncated := kept 1
    rw [rewritingOps, readAllFits fits] at truncated
    exact keptEmpty rfl truncated
  · obtain ⟨offset, entries, found⟩ := readAllTooLong fits
    refine keptTooLong ?_ (kept 0)
    rw [found]
    exact fits

theorem stopKeepsExact (entries : List WALEntry) (offset : Nat) (counter seq : UInt64) :
    ((∀ n, Kept (((pending entries).filter fun e => e.seq ≠ seq).map WALEntry.stored)
        (commitStopped (walOf entries offset counter) seq n)) ↔
      ∀ e ∈ pending entries, e.seq = seq) ∧
    ((∀ n, Kept ((pending entries).map WALEntry.stored)
        (checkpointStopped (walOf entries offset counter) n)) ↔ pending entries = []) := by
  refine ⟨⟨fun kept e member => ?_, fun only n => ?_⟩, ⟨fun kept => ?_, fun none n => ?_⟩⟩
  · have nothing := List.map_eq_nil_iff.mp (stoppedLoses kept)
    have other := List.filter_eq_nil_iff.mp nothing e member
    simpa using other
  · refine .inl (List.map_eq_nil_iff.mpr (List.filter_eq_nil_iff.mpr fun e member => ?_))
    simpa using only e member
  · exact List.map_eq_nil_iff.mp (stoppedLoses kept)
  · exact .inl (List.map_eq_nil_iff.mpr none)

theorem stoppedAfterLines (f : File) {written rest : List WALEntry}
    (short : ∀ e ∈ written, Short e) :
    (newRingWAL (stopped f (rewriteOps (written ++ rest)) ((encode written).length + 2)).content).replay.2 =
      .ok (pending (written.map WALEntry.stored)) := by
  have empty : AtEnd f.truncate.seekStart := rfl
  have left : (stopped f (rewriteOps (written ++ rest)) ((encode written).length + 2)).content =
      encode written := by
    have cut : (rewriteOps (written ++ rest)).take ((encode written).length + 2) =
        .truncate :: .seek :: (encode written).map .put := by
      simp [rewriteOps, encode]
    rw [stopped, cut]
    have printed := putsAtEnd empty (encode written)
    rw [writeAtEnd empty] at printed
    have opened : (DiskOp.truncate :: .seek :: (encode written).map .put).foldl File.apply f =
        ((encode written).map DiskOp.put).foldl File.apply f.truncate.seekStart := rfl
    rw [opened, printed]
    rfl
  have found := readAllEncode short (newRingWAL (encode written)).f.offset
  have whole : (newRingWAL (encode written)).f =
      ⟨encode written, (newRingWAL (encode written)).f.offset⟩ := rfl
  rw [left, RingWAL.replay, whole, found]

def pairCalls : List Call :=
  [.write (ascii "add") 1 150 none true, .write (ascii "add") 2 150 none true]

theorem truncatedLosesPending :
    (perform RingWAL.call (newRingWAL []) pairCalls).2.replay.2 =
      .ok [⟨1, ascii "add", 1, 150, false⟩, ⟨2, ascii "add", 2, 150, false⟩] ∧
    (newRingWAL (commitStopped (perform RingWAL.call (newRingWAL []) pairCalls).2 1 1).content).replay.2 =
      .ok [] ∧
    ¬ Kept [⟨2, ascii "add", 2, 150, false⟩]
      (commitStopped (perform RingWAL.call (newRingWAL []) pairCalls).2 1 1) := by
  have nothing : (commitStopped (perform RingWAL.call (newRingWAL []) pairCalls).2 1 1).content = [] := by
    decide +kernel
  refine ⟨by decide +kernel, by rw [nothing]; rfl, fun kept => ?_⟩
  exact absurd (keptEmpty nothing kept) (List.cons_ne_nil _ _)

end OmegaLb.RingWal
