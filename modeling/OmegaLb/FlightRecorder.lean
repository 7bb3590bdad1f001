import OmegaLb.BoundedRing
import OmegaLb.EventFormat

/-! The flight recorder of flight_recorder.go. What it logs is left out; the number of writes does
not reach 2^63. -/
namespace OmegaLb.Observability
open BoundedRing (Holds holdsBack holdsEmpty holdsPush lastLength lastOf wrapBack)
open EventFormat (Sample Time)

def ringbufCapacity : Nat := 10000

structure RoutingDecision where
  timestamp : Time
  backendID : UInt32
  latencyNs : UInt64
  error : Bool
  circuitState : UInt32
  vnodesAtSelect : UInt32
  probeIdx : UInt8
  reason : UInt8
  reasonLabel : String

/-- What make fills the buffer with: the zero time is the start of the year 1. -/
def zeroDecision : RoutingDecision := ⟨⟨-62135596800, 0, by decide⟩, 0, 0, false, 0, 0, 0, 0, ""⟩

def reasonNormal : UInt8 := 0
def reasonHalfOpen : UInt8 := 1
def reasonFallback : UInt8 := 2

def reasonLabel (r : UInt8) : String :=
  if r = reasonNormal then "normal"
  else if r = reasonHalfOpen then "half_open_probe"
  else if r = reasonFallback then "fallback"
  else "unknown"

structure FlightRecorder where
  buf : List RoutingDecision
  head : Nat
  count : Nat
  capacity : Nat
  allocated : buf.length = capacity
  inside : head < capacity

def retained (capacity : Int) : Nat := if capacity ≤ 0 then ringbufCapacity else capacity.toNat

theorem retainedSome (capacity : Int) : 0 < retained capacity := by
  unfold retained ringbufCapacity
  split <;> omega

def newFlightRecorder (capacity : Int) : FlightRecorder where
  buf := List.replicate (retained capacity) zeroDecision
  head := 0
  count := 0
  capacity := retained capacity
  allocated := List.length_replicate
  inside := retainedSome capacity

def decision (s : Sample) : RoutingDecision where
  timestamp := s.timestamp
  backendID := s.instanceID
  latencyNs := s.latencyNs
  error := s.error
  circuitState := s.circuitState
  vnodesAtSelect := s.vnodesAtSelect
  probeIdx := s.probeIdx
  reason := s.reason
  reasonLabel := reasonLabel s.reason

def FlightRecorder.record (fr : FlightRecorder) (s : Sample) : FlightRecorder where
  buf := fr.buf.set fr.head (decision s)
  head := (fr.head + 1) % fr.capacity
  count := fr.count + 1
  capacity := fr.capacity
  allocated := (List.length_set ..).trans fr.allocated
  inside := Nat.mod_lt _ (Nat.zero_lt_of_lt fr.inside)

def FlightRecorder.size (fr : FlightRecorder) : Nat := if fr.count > fr.capacity then fr.capacity else fr.count

/-- The decision `i` writes before the newest. -/
def FlightRecorder.readBack (fr : FlightRecorder) (i : Nat) : Go RoutingDecision := do
  let idx ← goRem ((fr.head - 1 - i : Int) + fr.capacity * 2) fr.capacity
  goIndex fr.buf idx

def FlightRecorder.recent (fr : FlightRecorder) (n : Int) : Go (List RoutingDecision) := do
  let n := if n ≤ 0 ∨ n > fr.size then fr.size else n.toNat
  if n = 0 then return []
  let read ← (List.range n).mapM fr.readBack
  return read.reverse

/-- The loop of ForBackend, with `left` of its rounds to come. -/
def FlightRecorder.scan (fr : FlightRecorder) (backendID : UInt32) (maxResults : Int) :
    Nat → Nat → List RoutingDecision → Go (List RoutingDecision)
  | 0, _, out => .ok out
  | left + 1, i, out => do
    if out.length < maxResults then
      let d ← fr.readBack i
      fr.scan backendID maxResults left (i + 1) (if d.backendID = backendID then out ++ [d] else out)
    else return out

def FlightRecorder.forBackend (fr : FlightRecorder) (backendID : UInt32) (maxResults : Int) :
    Go (List RoutingDecision) :=
  fr.scan backendID maxResults fr.size 0 []

/-! ### What is kept -/

structure Keeps (fr : FlightRecorder) (recorded : List RoutingDecision) : Prop where
  head : fr.head = recorded.length % fr.capacity
  count : fr.count = recorded.length
  held : Holds fr.buf fr.capacity recorded

theorem newKeeps (capacity : Int) : Keeps (newFlightRecorder capacity) [] where
  head := (Nat.zero_mod _).symm
  count := rfl
  held := holdsEmpty _ _

theorem recordKeeps {fr : FlightRecorder} {recorded : List RoutingDecision} (keeps : Keeps fr recorded) (s : Sample) :
    Keeps (fr.record s) (recorded ++ [decision s]) := by
  obtain ⟨head, count, held⟩ := keeps
  refine ⟨?_, by simp [FlightRecorder.record, count], ?_⟩
  · simp only [FlightRecorder.record, head, List.length_append, List.length_singleton, Nat.mod_add_mod]
  · simp only [FlightRecorder.record, head]
    exact holdsPush (Nat.zero_lt_of_lt fr.inside) held (decision s)

theorem recordsKeep {fr : FlightRecorder} {recorded : List RoutingDecision} (keeps : Keeps fr recorded)
    (samples : List Sample) :
    Keeps (samples.foldl FlightRecorder.record fr) (recorded ++ samples.map decision) ∧
      (samples.foldl FlightRecorder.record fr).capacity = fr.capacity := by
  induction samples generalizing fr recorded with
  | nil => exact ⟨by simpa using keeps, rfl⟩
  | cons s rest ih =>
    obtain ⟨kept, same⟩ := ih (recordKeeps keeps s)
    refine ⟨?_, same⟩
    simpa using kept

theorem sizeLast {fr : FlightRecorder} {recorded : List RoutingDecision} (keeps : Keeps fr recorded) :
    fr.size = (lastOf fr.capacity recorded).length := by
  rw [lastLength, FlightRecorder.size, keeps.count]
  split <;> omega

theorem readBackLast {fr : FlightRecorder} {recorded : List RoutingDecision} (keeps : Keeps fr recorded) {i : Nat}
    {d : RoutingDecision} (listed : (lastOf fr.capacity recorded).reverse[i]? = some d) :
    fr.readBack i = .ok d := by
  have some_ := Nat.zero_lt_of_lt fr.inside
  have within : i < min recorded.length fr.capacity := by
    have bound := (List.getElem?_eq_some_iff.mp listed).1
    rwa [List.length_reverse, lastLength] at bound
  have index : ((fr.head - 1 - i : Int) + fr.capacity * 2).tmod fr.capacity =
      ((recorded.length - 1 - i) % fr.capacity : Nat) := by
    have natural : (fr.head - 1 - i : Int) + fr.capacity * 2 = (fr.head + 2 * fr.capacity - 1 - i : Nat) := by omega
    rw [natural, ← Int.ofNat_tmod, keeps.head, wrapBack some_ (by omega) (by omega)]
  rw [FlightRecorder.readBack, goRemOk (by omega), index]
  exact goIndexFound ((holdsBack keeps.held within).trans listed)

/-! ### What is read -/

theorem readsNewest {fr : FlightRecorder} {recorded : List RoutingDecision} (keeps : Keeps fr recorded) {m : Nat}
    (within : m ≤ (lastOf fr.capacity recorded).length) :
    (List.range m).mapM fr.readBack = .ok ((lastOf fr.capacity recorded).reverse.take m) := by
  have each : ∀ i ∈ List.range m,
      fr.readBack i = .ok ((lastOf fr.capacity recorded).reverse.getD i zeroDecision) := by
    intro i member
    have inside : i < (lastOf fr.capacity recorded).reverse.length := by
      rw [List.length_reverse]
      exact Nat.lt_of_lt_of_le (List.mem_range.mp member) within
    rw [List.getD_eq_getElem _ _ inside]
    exact readBackLast keeps (List.getElem?_eq_getElem inside)
  rw [goMapM each]
  refine congrArg _ (List.ext_getElem (by simpa using within) fun i left right => ?_)
  have inside : i < (lastOf fr.capacity recorded).reverse.length := by
    rw [List.length_take] at right
    omega
  simp only [List.getElem_map, List.getElem_range, List.getElem_take]
  rw [List.getD_eq_getElem _ _ inside]

def lastDecisions (kept : List RoutingDecision) (n : Int) : List RoutingDecision :=
  if n ≤ 0 ∨ n > kept.length then kept else kept.drop (kept.length - n.toNat)

theorem recentLast {fr : FlightRecorder} {recorded : List RoutingDecision} (keeps : Keeps fr recorded) (n : Int) :
    fr.recent n = .ok (lastDecisions (lastOf fr.capacity recorded) n) := by
  have reads := fun m => @readsNewest fr recorded keeps m
  unfold FlightRecorder.recent lastDecisions
  rw [sizeLast keeps]
  generalize lastOf fr.capacity recorded = kept at reads ⊢
  have answer : ∀ m, m ≤ kept.length → (do
      if m = 0 then return []
      let read ← (List.range m).mapM fr.readBack
      return read.reverse) = (.ok (kept.drop (kept.length - m)) : Go (List RoutingDecision)) := by
    intro m within
    split
    · rename_i none_
      rw [none_, Nat.sub_zero, List.drop_length]
      rfl
    · rw [reads m within, List.take_reverse]
      exact congrArg Except.ok (List.reverse_reverse _)
  dsimp only
  split
  · rw [answer _ (Nat.le_refl _), Nat.sub_self, List.drop_zero]
  · exact answer _ (by omega)

theorem scanMatches {fr : FlightRecorder} (backendID : UInt32) (maxResults : Int) {i : Nat}
    {ds out : List RoutingDecision}
    (back : ∀ (j : Nat) (d : RoutingDecision), ds[j]? = some d → fr.readBack (i + j) = .ok d) :
    fr.scan backendID maxResults ds.length i out =
      .ok (out ++ (ds.filter fun d => decide (d.backendID = backendID)).take (maxResults.toNat - out.length)) := by
  induction ds generalizing i out with
  | nil => simp [FlightRecorder.scan]
  | cons d rest ih =>
    have later : ∀ (j : Nat) (e : RoutingDecision), rest[j]? = some e → fr.readBack (i + 1 + j) = .ok e := by
      intro j e listed
      have reads := back (j + 1) e listed
      rwa [← Nat.add_assoc, Nat.add_right_comm] at reads
    rw [List.length_cons, FlightRecorder.scan]
    split
    · rename_i room
      obtain ⟨more, gap⟩ : ∃ more, maxResults.toNat - out.length = more + 1 :=
        ⟨maxResults.toNat - out.length - 1, by omega⟩
      rw [show fr.readBack i = .ok d from back 0 d rfl]
      simp only [bind, Except.bind]
      rw [ih later]
      split
      · rename_i same
        have left_ : maxResults.toNat - (out.length + 1) = more := by omega
        rw [List.filter_cons_of_pos (by simpa using same), gap, List.take_succ_cons, List.length_append,
          List.length_singleton, left_, List.append_assoc]
        rfl
      · rename_i different
        rw [List.filter_cons_of_neg (by simpa using different)]
    · rename_i full
      have none_ : maxResults.toNat - out.length = 0 := by omega
      rw [none_, List.take_zero, List.append_nil]
      rfl

theorem forBackendLast {fr : FlightRecorder} {recorded : List RoutingDecision} (keeps : Keeps fr recorded)
    (backendID : UInt32) (maxResults : Int) :
    fr.forBackend backendID maxResults = .ok (((lastOf fr.capacity recorded).reverse.filter fun d =>
      decide (d.backendID = backendID)).take maxResults.toNat) := by
  have size : fr.size = (lastOf fr.capacity recorded).reverse.length := by
    rw [List.length_reverse, sizeLast keeps]
  rw [FlightRecorder.forBackend, size, scanMatches backendID maxResults fun j d listed => ?_]
  · rfl
  · rw [Nat.zero_add]
    exact readBackLast keeps listed

/-! ### Refinement -/

/-- The recorder as the list it stands for. -/
structure Refines (fr : FlightRecorder) (kept : List RoutingDecision) : Prop where
  recent : ∀ n, fr.recent n = .ok (lastDecisions kept n)
  forBackend : ∀ backendID maxResults, fr.forBackend backendID maxResults =
    .ok ((kept.reverse.filter fun d => decide (d.backendID = backendID)).take maxResults.toNat)

theorem recorderRefines (capacity : Int) (samples : List Sample) :
    Refines (samples.foldl FlightRecorder.record (newFlightRecorder capacity))
      (lastOf (retained capacity) (samples.map decision)) := by
  obtain ⟨keeps, same⟩ := recordsKeep (newKeeps capacity) samples
  have size : (samples.foldl FlightRecorder.record (newFlightRecorder capacity)).capacity = retained capacity := same
  rw [← size]
  exact ⟨recentLast keeps, forBackendLast keeps⟩

end OmegaLb.Observability
