import OmegaLb.WalRefinement

/-! Acknowledged entries and torn lines. Write appends at the offset whatever stands there: a
record behind the bytes of an unfinished line is one line with them and is skipped by the
reader. Where each acknowledged record starts its own line, and no line outgrows the scanner,
it is replayed until its number is committed. -/
namespace OmegaLb.RingWal
open GoText (Bytes ascii)
open Json (isSpace)
open Utf8 (Valid coerceValid validCoerce)
open LineScan
open StepRun (Run Guarded Allowed perform performRun guardedInvariant)

def RewriteSafe (io : RewriteIo) (entries : List WALEntry) : Prop :=
  io.truncate = true → (∀ n, io.cut n = none) ∧ ∀ e ∈ entries, Short e

/-- The bytes of a Write leave no line too long, and an acknowledged one finds only space after
the last newline; Commit and Checkpoint rewrite safely, if they can read the file. -/
def Unharmed (s : Logged) : Event → Prop
  | (.write op backendID vnodes cut sync, _) =>
    Fits maxScanTokenSize
      (s.wal.f.content ++ printed cut (line (s.wal.nextEntry op backendID vnodes))) ∧
    (cut = none → sync = true → (split s.wal.f.content).2.all isSpace = true)
  | (.commit seq io, _) => ∀ f entries, readAll s.wal.f = (f, entries, none) →
      RewriteSafe io (entries.map (mark seq))
  | (.checkpoint io, _) => ∀ f entries, readAll s.wal.f = (f, entries, none) →
      RewriteSafe io (pending entries)
  | _ => True

def complete (content : Bytes) : List WALEntry := entriesOf ((split content).1.map dropCR)

/-- A file that can be read is read to its end, and the acknowledged entries are pending on
its ended lines. -/
structure Intact (s : Logged) : Prop where
  atEnd : Fits maxScanTokenSize s.wal.f.content → AtEnd s.wal.f
  readable : uncommitted s.history ≠ [] → Fits maxScanTokenSize s.wal.f.content
  kept : ((uncommitted s.history).map WALEntry.stored).Sublist (pending (complete s.wal.f.content))

/-! ### Lines and entries -/

theorem storedTwice (e : WALEntry) : e.stored.stored = e.stored := by
  simp only [WALEntry.stored, coerceValid (validCoerce e.op)]

theorem storedMapTwice (entries : List WALEntry) :
    (entries.map WALEntry.stored).map WALEntry.stored = entries.map WALEntry.stored := by
  rw [List.map_map]
  exact List.map_congr_left fun e _ => storedTwice e

theorem pendingStored (entries : List WALEntry) :
    pending (entries.map WALEntry.stored) = (pending entries).map WALEntry.stored := by
  simp only [pending, List.filter_map]
  rfl

theorem pendingAppend (front back : List WALEntry) :
    pending (front ++ back) = pending front ++ pending back := List.filter_append front back

theorem printedLine (cut : Option Nat) (e : WALEntry) :
    printed cut (line e) = line e ∨ Breakless (printed cut (line e)) := by
  cases cut with
  | none => exact .inl rfl
  | some n =>
    by_cases whole : (line e).length ≤ n
    · exact .inl (List.take_of_length_le whole)
    · have part : n ≤ (marshal e).length := by
        simp only [line, List.length_append, List.length_singleton] at whole
        omega
      refine .inr fun member => marshalBreakless e ?_
      rw [printed, line, List.take_append_of_le_length part] at member
      exact List.mem_of_mem_take member

theorem completePart (content : Bytes) {part : Bytes} (clean : Breakless part) :
    complete (content ++ part) = complete content := by
  rw [complete, splitAppend content clean, complete]

theorem completeLine (content : Bytes) (e : WALEntry) : complete (content ++ line e) =
    complete content ++ entriesOf [dropCR ((split content).2 ++ marshal e)] := by
  rw [complete, line, splitAppendLine content (marshalBreakless e), complete, List.map_append,
    entriesOfAppend]
  rfl

theorem completeEncode (entries : List WALEntry) :
    complete (encode entries) = entries.map WALEntry.stored := by
  rw [complete, splitEncode, List.map_map]
  exact entriesOfRecords entries

theorem tokensComplete (content : Bytes) : ∃ last, entriesOf (tokens content) = complete content ++ last :=
  ⟨_, entriesOfAppend _ _⟩

theorem fitsPrinted {content : Bytes} {cut : Option Nat} {e : WALEntry}
    (fits : Fits maxScanTokenSize (content ++ printed cut (line e))) :
    Fits maxScanTokenSize content := by
  rcases printedLine cut e with whole | part
  · rw [whole] at fits
    exact fitsAppendLine (marshalBreakless e) fits
  · exact fitsAppend part fits

theorem completePrinted (content : Bytes) (cut : Option Nat) (e : WALEntry) :
    (pending (complete content)).Sublist (pending (complete (content ++ printed cut (line e)))) := by
  rcases printedLine cut e with whole | part
  · rw [whole, completeLine, pendingAppend]
    exact List.sublist_append_left _ _
  · rw [completePart content part]

/-! ### One call -/

theorem writeFile (w : RingWAL) (op : Bytes) (backendID : UInt32) (vnodes : Int64)
    (cut : Option Nat) (sync : Bool) : (w.write op backendID vnodes cut sync).1.f =
      w.f.write (printed cut (line (w.nextEntry op backendID vnodes))) := by
  rw [RingWAL.write]
  split
  · rfl
  · split <;> rfl

theorem writeWritten (w : RingWAL) (op : Bytes) (backendID : UInt32) (vnodes : Int64)
    (cut : Option Nat) (sync : Bool) :
    written (.write op backendID vnodes cut sync,
      .wrote (w.write op backendID vnodes cut sync).2) =
        if cut = none ∧ sync = true then some (w.nextEntry op backendID vnodes) else none := by
  cases cut <;> cases sync <;> rfl

theorem writeIntact {s : Logged} (held : Intact s) {op : Bytes} {backendID : UInt32}
    {vnodes : Int64} {cut : Option Nat} {sync : Bool}
    (fits : Fits maxScanTokenSize
      (s.wal.f.content ++ printed cut (line (s.wal.nextEntry op backendID vnodes))))
    (blank : cut = none → sync = true → (split s.wal.f.content).2.all isSpace = true) :
    Intact (s.call (.write op backendID vnodes cut sync)).1 := by
  have before := fitsPrinted fits
  have file := (writeFile s.wal op backendID vnodes cut sync).trans (writeAtEnd (held.atEnd before) _)
  have history : uncommitted (s.call (.write op backendID vnodes cut sync)).1.history =
      uncommitted s.history ++ (if cut = none ∧ sync = true then
        some (s.wal.nextEntry op backendID vnodes) else none).toList := by
    rw [← writeWritten]
    exact uncommittedOther s.history (by simp)
  have same : (s.call (.write op backendID vnodes cut sync)).1.wal.f =
      ⟨s.wal.f.content ++ printed cut (line (s.wal.nextEntry op backendID vnodes)),
        (s.wal.f.content ++ printed cut (line (s.wal.nextEntry op backendID vnodes))).length⟩ := file
  refine ⟨fun _ => by rw [same]; rfl, fun _ => by rw [same]; exact fits, ?_⟩
  rw [history, same]
  by_cases acknowledged : cut = none ∧ sync = true
  · obtain ⟨rfl, rfl⟩ := acknowledged
    -- what stands before the record on its line is blank
    have own := entriesOfRecord (List.all_eq_true.mp (blank rfl rfl)) (s.wal.nextEntry op backendID vnodes)
    rw [if_pos ⟨rfl, rfl⟩, printed, completeLine, own, pendingAppend, List.map_append]
    exact held.kept.append (List.Sublist.refl _)
  · rw [if_neg acknowledged]
    simpa using held.kept.trans (completePrinted s.wal.f.content cut _)

theorem pendingOfTokens {content : Bytes} {log : List WALEntry}
    (kept : log.Sublist (pending (complete content))) :
    log.Sublist (pending (entriesOf (tokens content))) := by
  obtain ⟨last, whole⟩ := tokensComplete content
  rw [whole, pendingAppend]
  exact kept.trans (List.sublist_append_left _ _)

theorem rewriteSafeFile {f : File} {entries : List WALEntry} {io : RewriteIo}
    (safe : RewriteSafe io entries) (atEnd : AtEnd f) :
    AtEnd (rewrite f entries io).1 ∧
      ((rewrite f entries io).1.content = f.content ∨
        (rewrite f entries io).1.content = encode entries ∧ ∀ e ∈ entries, Short e) := by
  rw [rewrite]
  split
  · rename_i truncated
    obtain ⟨whole, short⟩ := safe truncated
    have full : io.cut = fun _ => none := funext whole
    have empty : AtEnd f.truncate.seekStart := rfl
    rw [full, printLinesAtEnd empty]
    exact ⟨rfl, .inr ⟨rfl, short⟩⟩
  · exact ⟨atEnd, .inl rfl⟩

theorem rewriteKeeps {content : Bytes} {log rewritten : List WALEntry} {io : RewriteIo}
    (fits : Fits maxScanTokenSize content) (safe : RewriteSafe io rewritten)
    (old : log.Sublist (pending (complete content)))
    (new : log.Sublist (pending (rewritten.map WALEntry.stored))) :
    AtEnd (rewrite ⟨content, content.length⟩ rewritten io).1 ∧
      Fits maxScanTokenSize (rewrite ⟨content, content.length⟩ rewritten io).1.content ∧
      log.Sublist (pending (complete (rewrite ⟨content, content.length⟩ rewritten io).1.content)) := by
  have start : AtEnd ⟨content, content.length⟩ := rfl
  obtain ⟨atEnd, same | ⟨whole, short⟩⟩ := rewriteSafeFile safe start
  · rw [same]
    exact ⟨atEnd, fits, old⟩
  · rw [whole, completeEncode]
    exact ⟨atEnd, encodeFits.mpr short, new⟩

theorem unreadableNone {s : Logged} (held : Intact s)
    (long : ¬ Fits maxScanTokenSize s.wal.f.content) : uncommitted s.history = [] := by
  by_contra some
  exact long (held.readable some)

theorem unreadableIntact {t : Logged} (long : ¬ Fits maxScanTokenSize t.wal.f.content)
    (none : uncommitted t.history = []) : Intact t :=
  ⟨fun fits => absurd fits long, fun some => absurd none some, by rw [none]; exact List.nil_sublist _⟩

theorem rewritingIntact {s t : Logged} (held : Intact s) {rewritten : List WALEntry} (io : RewriteIo)
    (read : Fits maxScanTokenSize s.wal.f.content →
      t.wal.f = (rewrite ⟨s.wal.f.content, s.wal.f.content.length⟩ rewritten io).1 ∧
        RewriteSafe io rewritten)
    (unread : ¬ Fits maxScanTokenSize s.wal.f.content → t.wal.f.content = s.wal.f.content)
    (fewer : (uncommitted t.history).Sublist (uncommitted s.history))
    (again : ((uncommitted t.history).map WALEntry.stored).Sublist
      (pending (rewritten.map WALEntry.stored))) : Intact t := by
  by_cases fits : Fits maxScanTokenSize s.wal.f.content
  · obtain ⟨file, safe⟩ := read fits
    obtain ⟨atEnd, readable, kept⟩ :=
      rewriteKeeps fits safe ((fewer.map WALEntry.stored).trans held.kept) again
    rw [← file] at atEnd readable kept
    exact ⟨fun _ => atEnd, fun _ => readable, kept⟩
  · rw [unreadableNone held fits] at fewer
    exact unreadableIntact (by rw [unread fits]; exact fits) (List.sublist_nil.mp fewer)

theorem commitIntact {s : Logged} (held : Intact s) {seq : UInt64} {io : RewriteIo}
    (safe : ∀ f entries, readAll s.wal.f = (f, entries, none) →
      RewriteSafe io (entries.map (mark seq))) : Intact (s.call (.commit seq io)).1 := by
  have history : uncommitted (s.call (.commit seq io)).1.history =
      (uncommitted s.history).filter fun e => e.seq ≠ seq := uncommittedCommit s.history seq io _
  have fewer : (uncommitted (s.call (.commit seq io)).1.history).Sublist (uncommitted s.history) := by
    rw [history]
    exact List.filter_sublist
  -- the rewrite stores what was stored already
  have again : ((uncommitted (s.call (.commit seq io)).1.history).map WALEntry.stored).Sublist
      (pending (((entriesOf (tokens s.wal.f.content)).map (mark seq)).map WALEntry.stored)) := by
    have kept := ((pendingOfTokens held.kept).filter fun e => e.seq ≠ seq).map WALEntry.stored
    have stable : (((uncommitted s.history).map WALEntry.stored).filter fun e => e.seq ≠ seq).map
        WALEntry.stored = ((uncommitted s.history).filter fun e => e.seq ≠ seq).map WALEntry.stored := by
      rw [List.filter_map, storedMapTwice]
      rfl
    rw [stable] at kept
    rwa [history, pendingStored, pendingMark]
  refine rewritingIntact held io (fun fits => ?_) (fun long => ?_) fewer again
  · have found := readAllFits fits
    exact ⟨by simp only [Logged.call, RingWAL.call, RingWAL.commit, found], safe _ _ found⟩
  · obtain ⟨offset, entries, found⟩ := readAllTooLong long
    simp only [Logged.call, RingWAL.call, RingWAL.commit, found]

theorem checkpointIntact {s : Logged} (held : Intact s) {io : RewriteIo}
    (safe : ∀ f entries, readAll s.wal.f = (f, entries, none) → RewriteSafe io (pending entries)) :
    Intact (s.call (.checkpoint io)).1 := by
  have history : uncommitted (s.call (.checkpoint io)).1.history = uncommitted s.history :=
    (uncommittedOther s.history (by simp)).trans (List.append_nil _)
  have again : ((uncommitted (s.call (.checkpoint io)).1.history).map WALEntry.stored).Sublist
      (pending ((pending (entriesOf (tokens s.wal.f.content))).map WALEntry.stored)) := by
    have kept := (pendingOfTokens held.kept).map WALEntry.stored
    rw [storedMapTwice] at kept
    rwa [history, pendingStored, pendingTwice]
  refine rewritingIntact held io (fun fits => ?_) (fun long => ?_) (history ▸ List.Sublist.refl _) again
  · have found := readAllFits fits
    exact ⟨by simp only [Logged.call, RingWAL.call, RingWAL.checkpoint, found], safe _ _ found⟩
  · obtain ⟨offset, entries, found⟩ := readAllTooLong long
    simp only [Logged.call, RingWAL.call, RingWAL.checkpoint, found]

theorem readAtEnd {f : File} (fits : Fits maxScanTokenSize f.content) : AtEnd (readAll f).1 := by
  rw [readAllFits fits]
  rfl

theorem readIntact {s t : Logged} (held : Intact s) (file : t.wal.f.content = s.wal.f.content)
    (atEnd : Fits maxScanTokenSize s.wal.f.content → AtEnd t.wal.f)
    (history : uncommitted t.history = uncommitted s.history) : Intact t := by
  refine ⟨?_, ?_, ?_⟩
  · rw [file]
    exact atEnd
  · rw [file, history]
    exact held.readable
  · rw [file, history]
    exact held.kept

theorem replayIntact {s : Logged} (held : Intact s) : Intact (s.call .replay).1 := by
  have file : (s.call .replay).1.wal.f = (readAll s.wal.f).1 := by
    simp only [Logged.call, RingWAL.call, RingWAL.replay]
    split <;> (rename_i found; rw [found])
  exact readIntact held (by rw [file]; rfl) (fun fits => by rw [file]; exact readAtEnd fits)
    ((uncommittedOther s.history (by simp)).trans (List.append_nil _))

theorem reopenIntact {s : Logged} (held : Intact s) : Intact (s.call .reopen).1 := by
  have file : (s.call .reopen).1.wal.f = (readAll ⟨s.wal.f.content, 0⟩).1 := rfl
  exact readIntact held (by rw [file]; rfl) (fun fits => by rw [file]; exact readAtEnd fits)
    ((uncommittedOther s.history (by simp)).trans (List.append_nil _))

theorem startIntact (content : Bytes) : Intact (Logged.start content) :=
  ⟨fun fits => @readAtEnd ⟨content, 0⟩ fits, fun some => absurd rfl some, List.nil_sublist _⟩

theorem stepIntact {s t : Logged} {e : Event} (held : Intact s) (unharmed : Unharmed s e)
    (step : LoggedStep s e t) : Intact t := by
  obtain ⟨c, r⟩ := e
  have target : t = (s.call c).1 := (congrArg Prod.fst step).symm
  subst target
  cases c with
  | write op backendID vnodes cut sync => exact writeIntact held unharmed.1 unharmed.2
  | commit seq io => exact commitIntact held unharmed
  | checkpoint io => exact checkpointIntact held unharmed
  | replay => exact replayIntact held
  | reopen => exact reopenIntact held

/-! ### Runs -/

theorem intactReplays {s : Logged} (held : Intact s) {e : WALEntry} (acked : e ∈ uncommitted s.history) :
    ∃ entries, s.wal.replay.2 = .ok entries ∧ e.stored ∈ entries ∧ (Valid e.op → e ∈ entries) := by
  have fits := held.readable (List.ne_nil_of_mem acked)
  have member := (pendingOfTokens held.kept).subset (List.mem_map_of_mem acked)
  refine ⟨pending (entriesOf (tokens s.wal.f.content)), ?_, member, fun valid => ?_⟩
  · simp only [RingWAL.replay, readAllFits fits]
  · rwa [storedValid valid] at member

theorem acknowledgedReplayed {content : Bytes} {trace : List Event} {s : Logged}
    (run : Run (Guarded Unharmed LoggedStep) (Logged.start content) trace s) :
    ∀ e ∈ uncommitted s.history, ∃ entries, s.wal.replay.2 = .ok entries ∧ e.stored ∈ entries ∧
      (Valid e.op → e ∈ entries) := by
  have held := guardedInvariant (fun _ _ _ held unharmed step => stepIntact held unharmed step) run
    (startIntact content)
  exact fun e acked => intactReplays held acked

def tornContent : Bytes := ascii "\x7b\"seq\":1"

def mendedCalls : List Call :=
  [.checkpoint .clean, .write (ascii "add") 1 150 none true, .write (ascii "add") 2 150 (some 12) true,
    .reopen]

theorem mendedReplays : ∃ entries,
    (perform Logged.call (Logged.start tornContent) mendedCalls).2.wal.replay.2 = .ok entries ∧
      ⟨1, ascii "add", 1, 150, false⟩ ∈ entries := by
  have allowed : Allowed Unharmed Logged.call (Logged.start tornContent) mendedCalls := by
    refine ⟨fun f entries found => ?_, ⟨by decide +kernel, fun _ _ => by decide +kernel⟩,
      ⟨by decide +kernel, fun cut => by contradiction⟩, trivial, trivial⟩
    have none : (readAll (Logged.start tornContent).wal.f).2.1 = [] := by decide +kernel
    rw [found] at none
    cases none
    exact fun _ => ⟨fun _ => rfl, fun _ member => absurd member List.not_mem_nil⟩
  have acked : ⟨1, ascii "add", 1, 150, false⟩ ∈
      uncommitted (perform Logged.call (Logged.start tornContent) mendedCalls).2.history := by
    decide +kernel
  obtain ⟨entries, replayed, _, member⟩ := acknowledgedReplayed (performRun allowed) _ acked
  exact ⟨entries, replayed, member (Utf8.validAscii (by decide))⟩

theorem tornLineSwallows :
    uncommitted ((Logged.start tornContent).call (.write (ascii "add") 1 150 none true)).1.history =
      [⟨1, ascii "add", 1, 150, false⟩] ∧
    ((Logged.start tornContent).call (.write (ascii "add") 1 150 none true)).1.wal.replay.2 = .ok [] ∧
    ¬ ∀ e ∈ uncommitted
        ((Logged.start tornContent).call (.write (ascii "add") 1 150 none true)).1.history,
      ∃ entries, ((Logged.start tornContent).call
        (.write (ascii "add") 1 150 none true)).1.wal.replay.2 = .ok entries ∧ e.stored ∈ entries := by
  have acked : uncommitted
      ((Logged.start tornContent).call (.write (ascii "add") 1 150 none true)).1.history =
        [⟨1, ascii "add", 1, 150, false⟩] := by decide +kernel
  have replayed : ((Logged.start tornContent).call
      (.write (ascii "add") 1 150 none true)).1.wal.replay.2 = .ok [] := by decide +kernel
  refine ⟨acked, replayed, fun all => ?_⟩
  obtain ⟨entries, found, member⟩ := all _ (by rw [acked]; exact List.mem_cons_self)
  rw [replayed] at found
  cases Except.ok.inj found
  exact List.not_mem_nil member

end OmegaLb.RingWal
