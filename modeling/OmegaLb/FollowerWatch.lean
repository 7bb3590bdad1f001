import OmegaLb.Coordinator
import OmegaLb.WatchSafety

/-! One runFollower over the in-memory store: Get, whose value it drops, Watch, then one
event of its channel after the other. The store may be put to at any time, before, between
and after. Every event that reaches the channel is applied, so a follower that has drained it
has applied the last value put unless that value never entered the channel. -/
namespace OmegaLb.FollowerWatch
open GoText (Bytes)
open RingManager
open Consensus
open MemStore (MemStateStore WatchEvent Watcher newMemStateStore watchCapacity)
open WatchSafety (Sound keyEvents window pending accepted)
open RingSnapshot (RingStateSnapshot marshal unmarshal)
open StepRun (Run Guarded Does)

inductive Phase where
  | starting
  | gotRevision (startRev : Nat)
  | watching (c : Nat)
  | returned
  deriving DecidableEq, Repr

structure System (F : Type) where
  store : MemStateStore
  phase : Phase
  node : Coordinator F

/-- `store` is anything another client does; only the follower receives from its channel. -/
inductive Event where
  | store (e : MemStore.Event)
  | get
  | watch (spare : List Nat)
  | receive (rt : Nat → Runtime)
  | closed

variable {F : Type}

def System.receivesFrom (s : System F) : MemStore.Event → Bool
  | .receive c => s.phase = .watching c
  | _ => false

def exec (stateKey : Bytes) (s : System F) : Event → Option (System F)
  | .store e =>
    if s.receivesFrom e then none
    else match MemStore.exec s.store e with
      | some (.ok store) => some { s with store := store }
      | _ => none
  | .get =>
    -- the current value is dropped
    if s.phase = .starting ∧ s.store.putting.isNone then
      some { s with phase := .gotRevision (s.store.get stateKey).2 }
    else none
  | .watch spare =>
    match s.phase, MemStore.exec s.store (.watch stateKey spare) with
    | .gotRevision _, some (.ok store) =>
      some { s with store := store, phase := .watching s.store.chans.length }
    | _, _ => none
  | .receive rt =>
    match s.phase with
    | .watching c => do
      let w ← s.store.chans[c]?
      let ev ← w.chan.buf.head?
      match MemStore.exec s.store (.receive c) with
      | some (.ok store) =>
        some { s with store := store, node := (s.node.applySnapshot rt ev.value).1 }
      | _ => none
    | _ => none
  | .closed =>
    match s.phase with
    | .watching c => do
      let w ← s.store.chans[c]?
      if w.chan.closed ∧ w.chan.buf = [] then some { s with phase := .returned } else none
    | _ => none

def start (node : Coordinator F) : System F :=
  { store := newMemStateStore, phase := .starting, node := node }

/-! ### Versions increase with each Put -/

def Older (a b : WatchEvent) : Prop :=
  ∀ old new, unmarshal a.value = some old → unmarshal b.value = some new → old.version < new.version

/-- Every value put to the state key parses, and its version is above those put before and
above what the follower started from. -/
def Increasing (stateKey : Bytes) (floor : Int64) (s : System F) : Event → Prop
  | .store (.putBegin key value) => key = stateKey → ∃ snap, unmarshal value = some snap ∧
      floor < snap.version ∧ ∀ ev ∈ keyEvents stateKey s.store.log, ∀ old,
        unmarshal ev.value = some old → old.version < snap.version
  | _ => True

structure Versioned (stateKey : Bytes) (floor : Int64) (log : List (Bytes × WatchEvent)) : Prop where
  parsed : ∀ ev ∈ keyEvents stateKey log, ∃ snap, unmarshal ev.value = some snap ∧ floor < snap.version
  ordered : (keyEvents stateKey log).Pairwise Older

theorem versionedPut {stateKey : Bytes} {floor : Int64} {log : List (Bytes × WatchEvent)}
    (held : Versioned stateKey floor log) {key value : Bytes} {rev : Nat}
    (increases : key = stateKey → ∃ snap, unmarshal value = some snap ∧ floor < snap.version ∧
      ∀ ev ∈ keyEvents stateKey log, ∀ old, unmarshal ev.value = some old →
        old.version < snap.version) :
    Versioned stateKey floor (log ++ [(key, ⟨value, rev⟩)]) := by
  by_cases own : key = stateKey
  · obtain ⟨snap, parsed, above, later⟩ := increases own
    have events : keyEvents stateKey (log ++ [(key, ⟨value, rev⟩)]) =
        keyEvents stateKey log ++ [⟨value, rev⟩] := by
      simp [keyEvents, own]
    refine ⟨fun ev member => ?_, ?_⟩
    · rw [events, List.mem_append, List.mem_singleton] at member
      rcases member with old | rfl
      · exact held.parsed ev old
      · exact ⟨snap, parsed, above⟩
    · rw [events]
      refine List.pairwise_append.mpr ⟨held.ordered, List.pairwise_singleton _ _, ?_⟩
      intro ev member last single old new parsedOld parsedNew
      rw [List.mem_singleton.mp single, parsed] at parsedNew
      cases parsedNew
      exact later ev member old parsedOld
  · have events : keyEvents stateKey (log ++ [(key, ⟨value, rev⟩)]) = keyEvents stateKey log := by
      simp [keyEvents, own]
    exact ⟨by rw [events]; exact held.parsed, by rw [events]; exact held.ordered⟩

theorem quietVersioned {stateKey : Bytes} {floor : Int64} {s t : MemStateStore} {e : MemStore.Event}
    (sound : Sound s) (held : Versioned stateKey floor s.log) (step : MemStore.Step s e t)
    (quiet : WatchSafety.putOf s.rev e = []) : Versioned stateKey floor t.log := by
  rw [(WatchSafety.stepLeaves sound step).log, quiet, List.append_nil]
  exact held

structure Caught (floor : Int64) (taken : List WatchEvent) (node : Coordinator F) : Prop where
  nothing : taken = [] → node.lastVersion = floor
  last : ∀ ev snap, taken.getLast? = some ev → unmarshal ev.value = some snap → Applied node snap

structure Tracks (stateKey : Bytes) (floor : Int64) (s : System F) : Prop where
  sound : Sound s.store
  versioned : Versioned stateKey floor s.store.log
  before : ∀ startRev, s.phase = .starting ∨ s.phase = .gotRevision startRev → s.node.lastVersion = floor
  watching : ∀ c, s.phase = .watching c → ∃ w, s.store.chans[c]? = some w ∧ w.key = stateKey ∧
    Caught floor w.taken s.node

theorem startTracks (stateKey : Bytes) (node : Coordinator F) :
    Tracks stateKey node.lastVersion (start node) where
  sound := WatchSafety.startSound
  versioned := ⟨by simp [start, newMemStateStore, keyEvents], .nil⟩
  before := fun _ _ => rfl
  watching := by simp [start]

theorem windowEvents (log : List (Bytes × WatchEvent)) (w : Watcher) :
    (window log w).Sublist (keyEvents w.key log) := by
  unfold window keyEvents
  exact (((List.drop_sublist _ _).trans (List.take_sublist _ _)).filter _).map _

theorem nextNewer {stateKey : Bytes} {floor : Int64} {s : System F} (tracks : Tracks stateKey floor s)
    {c : Nat} {w : Watcher} (found : s.store.chans[c]? = some w) (key : w.key = stateKey)
    (caught : Caught floor w.taken s.node) {ev : WatchEvent} {rest : List WatchEvent}
    (unread : w.chan.buf = ev :: rest) :
    ∃ snap, unmarshal ev.value = some snap ∧ s.node.lastVersion < snap.version := by
  have received := (WatchSafety.watcherReceives tracks.sound found).subsequence
  have events := received.trans (windowEvents s.store.log w)
  rw [key, unread] at events
  have ordered := tracks.versioned.ordered.sublist events
  obtain ⟨snap, parsed, above⟩ := tracks.versioned.parsed ev
    (events.subset (List.mem_append_right _ List.mem_cons_self))
  refine ⟨snap, parsed, ?_⟩
  cases last : w.taken.getLast? with
  | none =>
    rw [caught.nothing (List.getLast?_eq_none_iff.mp last)]
    exact above
  | some previous =>
    have member : previous ∈ w.taken := List.mem_of_getLast? last
    obtain ⟨old, parsedOld, _⟩ := tracks.versioned.parsed previous
      (events.subset (List.mem_append_left _ member))
    rw [(caught.last previous old last parsedOld).version]
    exact (List.pairwise_append.mp ordered).2.2 previous member ev List.mem_cons_self old snap
      parsedOld parsed

theorem storeTracks {stateKey : Bytes} {floor : Int64} {s : System F} {e : MemStore.Event}
    (tracks : Tracks stateKey floor s) (increasing : Increasing stateKey floor s (.store e))
    (foreign : s.receivesFrom e = false) {store : MemStateStore} (step : MemStore.Step s.store e store) :
    Tracks stateKey floor { s with store := store } where
  sound := WatchSafety.stepSound tracks.sound step
  versioned := by
    cases e with
    | putBegin key value =>
      rw [(WatchSafety.stepLeaves tracks.sound step).log]
      exact versionedPut tracks.versioned increasing
    | putSend | putEnd | watch | cancel | close | receive =>
      exact quietVersioned tracks.sound tracks.versioned step rfl
  before := tracks.before
  watching := fun c phase => by
    obtain ⟨w, found, key, caught⟩ := tracks.watching c phase
    obtain ⟨v, there, sameKey, _, taken⟩ := (WatchSafety.stepLeaves tracks.sound step).watcher c w found
    have other : e ≠ .receive c := by
      rintro rfl
      have phase : s.phase = .watching c := phase
      simp [System.receivesFrom, phase] at foreign
    exact ⟨v, there, sameKey.trans key, by rw [taken other]; exact caught⟩

theorem watchTracks {stateKey : Bytes} {floor : Int64} {s : System F}
    (tracks : Tracks stateKey floor s) {startRev : Nat} (phase : s.phase = .gotRevision startRev)
    {spare : List Nat} {store : MemStateStore}
    (step : MemStore.Step s.store (.watch stateKey spare) store) :
    Tracks stateKey floor { s with store := store, phase := .watching s.store.chans.length } where
  sound := WatchSafety.stepSound tracks.sound step
  versioned := quietVersioned tracks.sound tracks.versioned step rfl
  before := by simp
  watching := fun c same => by
    cases same
    cases WatchSafety.stepMoved tracks.sound step
    refine ⟨{ key := stateKey, since := s.store.log.length }, by simp [MemStateStore.watch], rfl, ?_⟩
    exact ⟨fun _ => tracks.before startRev (.inr phase), by simp⟩

theorem receiveTracks {stateKey : Bytes} {floor : Int64} {s : System F}
    (tracks : Tracks stateKey floor s) {c : Nat} (phase : s.phase = .watching c) {w : Watcher}
    (found : s.store.chans[c]? = some w) {ev : WatchEvent} (head : w.chan.buf.head? = some ev)
    {store : MemStateStore} (step : MemStore.Step s.store (.receive c) store) (rt : Nat → Runtime) :
    Tracks stateKey floor
      { s with store := store, node := (s.node.applySnapshot rt ev.value).1 } where
  sound := WatchSafety.stepSound tracks.sound step
  versioned := quietVersioned tracks.sound tracks.versioned step rfl
  before := by simp [phase]
  watching := fun d same => by
    have same : s.phase = .watching d := same
    rw [phase] at same
    cases same
    obtain ⟨v, there, key, caught⟩ := tracks.watching c phase
    rw [found] at there
    cases there
    obtain ⟨inside, _⟩ := List.getElem?_eq_some_iff.mp found
    cases WatchSafety.stepMoved tracks.sound step with
    | @receive _ u next rest here unread =>
      rw [found] at here
      cases here
      rw [unread] at head
      cases head
      obtain ⟨snap, parsed, newer⟩ := nextNewer tracks found key caught unread
      refine ⟨{ w with chan := { w.chan with buf := rest }, taken := w.taken ++ [ev] },
        by simp [inside], key, by simp, fun last final read parsedLast => ?_⟩
      rw [List.getLast?_concat] at read
      cases read
      rw [parsed] at parsedLast
      cases parsedLast
      exact applyParsedApplied rt parsed newer

theorem stepTracks {stateKey : Bytes} {floor : Int64} {s t : System F} {e : Event}
    (tracks : Tracks stateKey floor s) (increasing : Increasing stateKey floor s e)
    (taken : Does (exec stateKey) s e t) : Tracks stateKey floor t := by
  cases e with
  | store e =>
    simp only [Does, exec] at taken
    split at taken <;> try contradiction
    split at taken <;> try contradiction
    cases taken
    exact storeTracks tracks increasing (Bool.eq_false_iff.mpr ‹_›) ‹_›
  | get =>
    simp only [Does, exec] at taken
    split at taken <;> try contradiction
    rename_i allowed
    cases taken
    exact ⟨tracks.sound, tracks.versioned, fun startRev _ => tracks.before startRev (.inl allowed.1),
      by simp⟩
  | watch spare =>
    simp only [Does, exec] at taken
    split at taken <;> try contradiction
    cases taken
    exact watchTracks tracks ‹_› ‹_›
  | receive rt =>
    simp only [Does, exec, bind] at taken
    split at taken <;> try contradiction
    simp only [Option.bind_eq_some_iff] at taken
    obtain ⟨w, found, ev, head, taken⟩ := taken
    split at taken <;> try contradiction
    cases taken
    exact receiveTracks tracks ‹_› found head ‹_› rt
  | closed =>
    simp only [Does, exec, bind] at taken
    split at taken <;> try contradiction
    simp only [Option.bind_eq_some_iff] at taken
    obtain ⟨w, found, taken⟩ := taken
    split at taken <;> try contradiction
    cases taken
    exact ⟨tracks.sound, tracks.versioned, by simp, by simp⟩

theorem runTracks {stateKey : Bytes} {node : Coordinator F} {es : List Event} {s : System F}
    (run : Run (Guarded (Increasing stateKey node.lastVersion) (Does (exec stateKey))) (start node)
      es s) : Tracks stateKey node.lastVersion s := by
  have preserved (u : System F) (e) (v) : Tracks stateKey node.lastVersion u →
      Increasing stateKey node.lastVersion u e → Does (exec stateKey) u e v →
      Tracks stateKey node.lastVersion v := stepTracks
  exact StepRun.guardedInvariant preserved run (startTracks stateKey node)

/-! ### The last value put -/

/-- No Put is under way and a follower whose context is not cancelled has emptied its channel. -/
structure Drained (s : System F) (c : Nat) (w : Watcher) : Prop where
  quiet : s.store.putting = none
  phase : s.phase = .watching c
  channel : s.store.chans[c]? = some w
  active : w.task = .waiting
  empty : w.chan.buf = []

/-- The last value put to the state key came after the registration of the channel, which had
fewer unread events than its capacity then. -/
structure Entered (stateKey : Bytes) (s : System F) (w : Watcher) (ev : WatchEvent) : Prop where
  last : (keyEvents stateKey s.store.log).getLast? = some ev
  later : ev ∈ keyEvents stateKey (s.store.log.drop w.since)
  room : ∀ unread, w.offers.getLast? = some (ev, unread) → unread < watchCapacity

theorem lastPutApplied {stateKey : Bytes} {node : Coordinator F} {es : List Event} {s : System F}
    (run : Run (Guarded (Increasing stateKey node.lastVersion) (Does (exec stateKey))) (start node)
      es s) {c : Nat} {w : Watcher} (drained : Drained s c w) {ev : WatchEvent}
    (entered : Entered stateKey s w ev) : ∃ snap, unmarshal ev.value = some snap ∧ Applied s.node snap := by
  have tracks := runTracks run
  obtain ⟨v, found, key, caught⟩ := tracks.watching c drained.phase
  rw [drained.channel] at found
  cases found
  have watcher := tracks.sound.watcher c w drained.channel
  have opened : w.stop = none := watcher.stopped.mpr drained.active
  have offers : w.offers.map Prod.fst = keyEvents stateKey (s.store.log.drop w.since) := by
    have offered := watcher.offered
    simpa [pending, drained.quiet, window, opened, key] using offered
  have last : (w.offers.map Prod.fst).getLast? = some ev := by
    have whole : keyEvents stateKey s.store.log = keyEvents stateKey (s.store.log.take w.since) ++
        keyEvents stateKey (s.store.log.drop w.since) := by
      rw [← WatchSafety.keyEventsAppend, List.take_append_drop]
    rw [offers, ← List.getLast?_append_of_ne_nil _ (List.ne_nil_of_mem entered.later), ← whole]
    exact entered.last
  rw [List.getLast?_map, Option.map_eq_some_iff] at last
  obtain ⟨⟨latest, unread⟩, lastOffer, rfl⟩ := last
  obtain ⟨front, shape⟩ := List.getLast?_eq_some_iff.mp lastOffer
  have room := entered.room unread lastOffer
  have taken : w.taken.getLast? = some latest := by
    have received := watcher.unread
    rw [drained.empty, List.append_nil, shape, accepted, List.filter_append] at received
    rw [received]
    simp [room]
  obtain ⟨snap, parsed, _⟩ := tracks.versioned.parsed _ (List.mem_of_getLast? entered.last)
  exact ⟨snap, parsed, caught.last latest snap taken parsed⟩

/-! ### Runs with snapshots that list nothing -/

instance decideParsed (data : Bytes) (p : RingStateSnapshot → Prop) [DecidablePred p] :
    Decidable (∃ snap, unmarshal data = some snap ∧ p snap) :=
  match parsed : unmarshal data with
  | none => .isFalse (by simp)
  | some snap => decidable_of_iff (p snap) (by simp)

instance decideOlder (data : Bytes) (p : RingStateSnapshot → Prop) [DecidablePred p] :
    Decidable (∀ snap, unmarshal data = some snap → p snap) :=
  match parsed : unmarshal data with
  | none => .isTrue (by simp)
  | some snap => decidable_of_iff (p snap) (by simp)

instance decideIncreasing (stateKey : Bytes) (floor : Int64) (s : System F) :
    ∀ e, Decidable (Increasing stateKey floor s e)
  | .store (.putBegin key _) => inferInstanceAs (Decidable (key = stateKey → _))
  | .store .putSend | .store .putEnd | .store (.watch ..) | .store (.cancel _) | .store (.close _)
  | .store (.receive _) | .get | .watch _ | .receive _ | .closed => .isTrue trivial

def key : Bytes := GoText.ascii "/omega-lb/ring-state"

def snapshotText (version : Nat) : Bytes :=
  marshal ⟨[], RingSnapshot.zeroTime, [], Int64.ofNat version⟩

def fresh : Coordinator ℚ := newCoordinator (newManager (Config.load {}))

def put (version : Nat) (sends : Nat) : List Event :=
  .store (.putBegin key (snapshotText version)) :: List.replicate sends (.store .putSend) ++
    [.store .putEnd]

def receives (n : Nat) : List Event := List.replicate n (.receive fun _ => .plain)

def outcome (es : List Event) : Option (System ℚ) :=
  StepRun.runGuarded (Increasing key fresh.lastVersion) (exec key) (start fresh) es

theorem outcomeRun {es : List Event} {s : System ℚ} (done : outcome es = some s) :
    Run (Guarded (Increasing key fresh.lastVersion) (Does (exec key))) (start fresh) es s :=
  StepRun.runGuardedRun done

def delivered : List Event := [.get, .watch []] ++ put 1 1 ++ receives 1

def firstEvent : WatchEvent := ⟨snapshotText 1, 1⟩

def reader : Watcher :=
  { key := key, since := 0, offers := [(firstEvent, 0)], taken := [firstEvent] }

theorem deliveredUpdateApplied : ∃ s : System ℚ, Drained s 0 reader ∧
    ∃ snap, unmarshal firstEvent.value = some snap ∧ Applied s.node snap := by
  have ends : (outcome delivered).map
      (fun s => ((s.phase, s.store.putting.isNone), s.store.chans, s.store.log)) =
        some ((.watching 0, true), [reader], [(key, firstEvent)]) := by
    decide +kernel
  obtain ⟨s, done, same⟩ := Option.map_eq_some_iff.mp ends
  simp only [Prod.mk.injEq] at same
  obtain ⟨⟨phase, quiet⟩, chans, log⟩ := same
  have drained : Drained s 0 reader :=
    ⟨Option.isNone_iff_eq_none.mp quiet, phase, by rw [chans]; rfl, rfl, rfl⟩
  have entered : Entered key s reader firstEvent := by
    refine ⟨by rw [log]; rfl, by rw [log]; simp [keyEvents, reader], fun unread last => ?_⟩
    cases last
    decide
  exact ⟨s, drained, lastPutApplied (outcomeRun done) drained entered⟩

structure Summary where
  applied : Int64
  phase : Phase
  quiet : Bool
  channels : List (MemStore.Task × List WatchEvent)
  last : Option WatchEvent
  deriving DecidableEq

def System.summary (s : System ℚ) : Summary where
  applied := s.node.lastVersion
  phase := s.phase
  quiet := s.store.putting.isNone
  channels := s.store.chans.map fun w => (w.task, w.chan.buf)
  last := (keyEvents key s.store.log).getLast?

def drainedAt (applied : Int64) (version : Nat) : Summary :=
  ⟨applied, .watching 0, true, [(.waiting, [])], some ⟨snapshotText version, version⟩⟩

theorem summaryDrained {es : List Event} {applied : Int64} {version : Nat}
    (ends : (outcome es).map System.summary = some (drainedAt applied version)) :
    ∃ s w, Run (Guarded (Increasing key fresh.lastVersion) (Does (exec key))) (start fresh) es s ∧ Drained s 0 w ∧
      (keyEvents key s.store.log).getLast? = some ⟨snapshotText version, version⟩ ∧
      s.node.lastVersion = applied := by
  obtain ⟨s, done, same⟩ := Option.map_eq_some_iff.mp ends
  have channels : s.store.chans.map (fun w => (w.task, w.chan.buf)) = [(.waiting, [])] :=
    congrArg Summary.channels same
  obtain ⟨w, _, chans, first, rest⟩ := List.map_eq_cons_iff.mp channels
  obtain ⟨active, empty⟩ := Prod.mk.inj first
  have drained : Drained s 0 w :=
    ⟨Option.isNone_iff_eq_none.mp (congrArg Summary.quiet same), congrArg Summary.phase same,
      by rw [chans]; rfl, active, empty⟩
  exact ⟨s, w, outcomeRun done, drained, congrArg Summary.last same,
    congrArg Summary.applied same⟩

def FinalUpdate (es : List Event) : Prop :=
  ∀ (s : System ℚ) c w ev, Run (Guarded (Increasing key fresh.lastVersion) (Does (exec key))) (start fresh) es s →
    Drained s c w → (keyEvents key s.store.log).getLast? = some ev →
    ∃ snap, unmarshal ev.value = some snap ∧ Applied s.node snap

theorem finalUpdateLost {es : List Event} {applied : Int64} {version : Nat}
    (ends : (outcome es).map System.summary = some (drainedAt applied version))
    (behind : applied ≠ Int64.ofNat version) : ¬ FinalUpdate es := by
  obtain ⟨s, w, run, drained, last, node⟩ := summaryDrained ends
  intro always
  obtain ⟨snap, parsed, shows⟩ := always s 0 w _ run drained last
  have text : unmarshal (snapshotText version) = some _ := RingSnapshot.unmarshalMarshal _
  rw [text] at parsed
  cases parsed
  exact behind (node.symm.trans shows.version)

def beforeStart : List Event := put 1 0 ++ [.get, .watch []]

def betweenGetAndWatch : List Event := .get :: put 1 0 ++ [.watch []]

def overfull : List Event :=
  [.get, .watch []] ++ (List.range 17).flatMap (fun n => put (n + 1) 1) ++ receives 16

theorem finalUpdatesLost :
    ¬ FinalUpdate beforeStart ∧ ¬ FinalUpdate betweenGetAndWatch ∧ ¬ FinalUpdate overfull :=
  ⟨@finalUpdateLost _ 0 1 (by decide +kernel) (by decide),
    @finalUpdateLost _ 0 1 (by decide +kernel) (by decide),
    @finalUpdateLost _ 16 17 (by decide +kernel) (by decide)⟩

end OmegaLb.FollowerWatch
