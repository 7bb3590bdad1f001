import OmegaLb.WalRefinement

/-! The numbers Write returns. The counter is rebuilt from the entries left in the file, so
it keeps ascending exactly as long as no reopening has forgotten an issued number; a
Checkpoint may remove the entry that remembered it. -/
namespace OmegaLb.RingWal
open GoText (Bytes ascii)
open StepRun (Run Guarded Allowed perform performRun guardedInvariant)

def issued (history : List Event) : List UInt64 := (history.filterMap written).map WALEntry.seq

def Recovers (s : Logged) : Event → Prop
  | (.write _ _ _ _ _, _) => s.wal.seq.toNat + 1 < 2 ^ 64
  | (.reopen, _) => ∀ n ∈ issued s.history, ∃ e ∈ (readAll s.wal.f).2.1, n ≤ e.seq
  | _ => True

instance Recovers.decide (s : Logged) : ∀ e, Decidable (Recovers s e)
  | (.write _ _ _ _ _, _) => inferInstanceAs (Decidable (s.wal.seq.toNat + 1 < 2 ^ 64))
  | (.reopen, _) =>
    decidable_of_iff
      ((issued s.history).all fun n => (readAll s.wal.f).2.1.any fun e => n ≤ e.seq) (by simp [Recovers])
  | (.commit _ _, _) | (.checkpoint _, _) | (.replay, _) => .isTrue trivial

def Ascending (s : Logged) : Prop :=
  (issued s.history).Pairwise (· < ·) ∧ ∀ n ∈ issued s.history, n ≤ s.wal.seq

theorem issuedSnoc (history : List Event) (e : Event) :
    issued (history ++ [e]) = issued history ++ (written e).toList.map WALEntry.seq := by
  simp only [issued, List.filterMap_append, List.map_append]
  cases h : written e <;> simp [h]

theorem highestSeqStart (entries : List WALEntry) (start : UInt64) :
    start ≤ entries.foldl (fun seq e => if e.seq > seq then e.seq else seq) start ∧
      ∀ e ∈ entries, e.seq ≤ entries.foldl (fun seq e => if e.seq > seq then e.seq else seq) start := by
  induction entries generalizing start with
  | nil => exact ⟨UInt64.le_refl start, by simp⟩
  | cons first entries ih =>
    obtain ⟨low, rest⟩ := ih (if first.seq > start then first.seq else start)
    have both : start ≤ (if first.seq > start then first.seq else start) ∧
        first.seq ≤ (if first.seq > start then first.seq else start) := by
      split
      · rename_i above
        exact ⟨UInt64.le_of_lt above, UInt64.le_refl _⟩
      · rename_i below
        exact ⟨UInt64.le_refl _, UInt64.not_lt.mp below⟩
    refine ⟨UInt64.le_trans both.1 low, fun e member => ?_⟩
    rcases List.mem_cons.mp member with rfl | inside
    · exact UInt64.le_trans both.2 low
    · exact rest e inside

theorem highestSeqAbove {entries : List WALEntry} {e : WALEntry} (member : e ∈ entries) :
    e.seq ≤ highestSeq entries := (highestSeqStart entries 0).2 e member

theorem highestSeqBelow {entries : List WALEntry} {n : UInt64} (positive : 0 < n)
    (below : ∀ e ∈ entries, e.seq < n) : highestSeq entries < n := by
  have each : ∀ start, start < n →
      entries.foldl (fun seq e => if e.seq > seq then e.seq else seq) start < n := by
    induction entries with
    | nil => exact fun start small => small
    | cons first entries ih =>
      intro start small
      refine ih (fun e member => below e (List.mem_cons_of_mem first member)) _ ?_
      show (if first.seq > start then first.seq else start) < n
      split
      · exact below first List.mem_cons_self
      · exact small
  exact each 0 positive

theorem nextAbove {w : RingWAL} (room : w.seq.toNat + 1 < 2 ^ 64) : w.seq < w.seq + 1 := by
  rw [UInt64.lt_iff_toNat_lt, UInt64.toNat_add]
  simp
  omega

theorem callSeq (w : RingWAL) (c : Call) :
    (w.call c).1.seq = match c with
      | .write _ _ _ _ _ => w.seq + 1
      | .reopen => highestSeq (readAll w.f).2.1
      | _ => w.seq := by
  cases c with
  | write op backendID vnodes cut sync =>
    simp only [RingWAL.call, RingWAL.write]
    split
    · rfl
    · split <;> rfl
  | commit seq io =>
    simp only [RingWAL.call, RingWAL.commit]
    split <;> rfl
  | checkpoint io =>
    simp only [RingWAL.call, RingWAL.checkpoint]
    split <;> rfl
  | replay =>
    simp only [RingWAL.call, RingWAL.replay]
    split <;> rfl
  | reopen => rfl

theorem writtenSeq {w : RingWAL} {c : Call} {entry : WALEntry}
    (wrote : written (c, (w.call c).2) = some entry) :
    entry.seq = w.seq + 1 ∧ ∃ op backendID vnodes cut sync, c = .write op backendID vnodes cut sync := by
  cases c with
  | write op backendID vnodes cut sync =>
    refine ⟨?_, op, backendID, vnodes, cut, sync, rfl⟩
    simp only [RingWAL.call, RingWAL.write] at wrote
    split at wrote
    · contradiction
    · split at wrote
      · cases Option.some.inj wrote
        rfl
      · contradiction
  | commit seq io => contradiction
  | checkpoint io => contradiction
  | replay => contradiction
  | reopen => contradiction

theorem startAscending (content : Bytes) : Ascending (Logged.start content) :=
  ⟨List.Pairwise.nil, fun _ member => absurd member List.not_mem_nil⟩

theorem counterKept {s : Logged} (held : Ascending s) {c : Call} {r : Outcome}
    (recovers : Recovers s (c, r)) :
    ∀ n ∈ issued s.history, n ≤ (s.wal.call c).1.seq := by
  intro n member
  rw [callSeq]
  cases c with
  | write => exact UInt64.le_trans (held.2 n member) (UInt64.le_of_lt (nextAbove recovers))
  | reopen =>
    obtain ⟨e, found, above⟩ := recovers n member
    exact UInt64.le_trans above (highestSeqAbove found)
  | commit => exact held.2 n member
  | checkpoint => exact held.2 n member
  | replay => exact held.2 n member

theorem stepAscending {s t : Logged} {e : Event} (held : Ascending s) (recovers : Recovers s e)
    (step : LoggedStep s e t) : Ascending t := by
  obtain ⟨history, taken⟩ := loggedStep step
  obtain ⟨c, r⟩ := e
  have target : t.wal = (s.wal.call c).1 := (congrArg Prod.fst taken).symm
  have result : r = (s.wal.call c).2 := (congrArg Prod.snd taken).symm
  have grows : ∀ n ∈ issued s.history, n ≤ t.wal.seq := by
    rw [target]
    exact counterKept held recovers
  rw [Ascending, history, issuedSnoc]
  cases wrote : written (c, r) with
  | none => simpa using ⟨held.1, grows⟩
  | some entry =>
    rw [result] at wrote
    obtain ⟨number, op, backendID, vnodes, cut, sync, rfl⟩ := writtenSeq wrote
    have last : t.wal.seq = entry.seq := by rw [target, callSeq, number]
    have above : ∀ n ∈ issued s.history, n < entry.seq := by
      intro n member
      rw [number]
      exact UInt64.lt_of_le_of_lt (held.2 n member) (nextAbove recovers)
    refine ⟨List.pairwise_append.mpr ⟨held.1, by simp, ?_⟩, fun n member => ?_⟩
    · simpa using above
    · rcases List.mem_append.mp member with inside | new
      · exact grows n inside
      · have same : n = entry.seq := by simpa using new
        rw [last, same]
        exact UInt64.le_refl _

theorem issuedIncrease {content : Bytes} {trace : List Event} {s : Logged}
    (run : Run (Guarded Recovers LoggedStep) (Logged.start content) trace s) :
    (issued s.history).Pairwise (· < ·) :=
  (guardedInvariant (fun _ _ _ held recovers step => stepAscending held recovers step) run
    (startAscending content)).1

theorem forgottenReissues {s : Logged} {n : UInt64} (was : n ∈ issued s.history) (positive : 0 < n)
    (forgotten : ∀ e ∈ (readAll s.wal.f).2.1, e.seq < n) (op : Bytes) (backendID : UInt32)
    (vnodes : Int64) : ¬ (issued ((s.call .reopen).1.call
      (.write op backendID vnodes none true)).1.history).Pairwise (· < ·) := by
  intro increasing
  have low := highestSeqBelow positive forgotten
  have numbers : issued ((s.call .reopen).1.call (.write op backendID vnodes none true)).1.history =
      issued s.history ++ [highestSeq (readAll s.wal.f).2.1 + 1] := by
    have opened : issued (s.call .reopen).1.history = issued s.history := by
      simp [Logged.call, issuedSnoc, RingWAL.call, written]
    have wrote : issued ((s.call .reopen).1.call (.write op backendID vnodes none true)).1.history =
        issued (s.call .reopen).1.history ++ [(s.call .reopen).1.wal.seq + 1] := issuedSnoc _ _
    rw [wrote, opened]
    rfl
  rw [numbers] at increasing
  have above := (List.pairwise_append.mp increasing).2.2 n was _ List.mem_cons_self
  rw [UInt64.lt_iff_toNat_lt] at low above
  have bound := n.toNat_lt
  rw [UInt64.toNat_add, UInt64.toNat_one] at above
  omega

def rememberedCalls : List Call :=
  [.write (ascii "add") 1 150 none true, .write (ascii "remove") 2 0 none true, .commit 1 .clean,
    .checkpoint .clean, .reopen, .write (ascii "add") 3 150 none true]

theorem rememberedIncrease : issued (perform Logged.call (Logged.start []) rememberedCalls).2.history =
    [1, 2, 3] ∧
      (issued (perform Logged.call (Logged.start []) rememberedCalls).2.history).Pairwise (· < ·) := by
  have allowed : Allowed Recovers Logged.call (Logged.start []) rememberedCalls := by decide +kernel
  exact ⟨by decide +kernel, issuedIncrease (performRun allowed)⟩

def forgottenCalls : List Call :=
  [.write (ascii "add") 1 150 none true, .commit 1 .clean, .checkpoint .clean, .reopen,
    .write (ascii "remove") 2 0 none true]

theorem forgottenNumberReturns :
    issued (perform Logged.call (Logged.start []) forgottenCalls).2.history = [1, 1] ∧
      ¬ (issued (perform Logged.call (Logged.start []) forgottenCalls).2.history).Pairwise (· < ·) ∧
      ((perform Logged.call (Logged.start []) forgottenCalls).2.wal.commit 1 .clean).1.replay.2 =
        .ok [] := by
  have numbers : issued (perform Logged.call (Logged.start []) forgottenCalls).2.history = [1, 1] := by
    decide +kernel
  refine ⟨numbers, ?_, by decide +kernel⟩
  rw [numbers]
  decide

end OmegaLb.RingWal
