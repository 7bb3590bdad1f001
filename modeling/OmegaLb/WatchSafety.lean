import Mathlib.Data.List.Pairwise
import OmegaLb.MemStore
import OmegaLb.StepRun

/-! Watch channels over every run of the store. The slices hold exactly the channels whose
goroutine has not filtered yet, so a Put meets open channels only, and a channel is offered
every later Put of its key up to its removal. -/
namespace OmegaLb.WatchSafety
open GoText (Bytes)
open GoSlice
open MemStore
open StepRun (Run)

/-! ### What a watcher must have seen -/

def keyEvents (key : Bytes) (log : List (Bytes × WatchEvent)) : List WatchEvent :=
  (log.filter fun entry => entry.1 = key).map Prod.snd

/-- The Puts of the watcher's key from its registration to its removal. -/
def window (log : List (Bytes × WatchEvent)) (w : Watcher) : List WatchEvent :=
  keyEvents w.key ((log.take (w.stop.getD log.length)).drop w.since)

def accepted (offers : List (WatchEvent × Nat)) : List WatchEvent :=
  (offers.filter fun offer => offer.2 < watchCapacity).map Prod.fst

/-- What a Put under way still owes to a channel. -/
def pending (s : MemStateStore) (c : Nat) : List WatchEvent :=
  match s.putting with
  | none => []
  | some p => if c ∈ (s.watchers p.key).elems.drop p.next then [p.ev] else []

structure Registered (s : MemStateStore) : Prop where
  fits : ∀ key, (s.watchers key).Fits
  nodup : ∀ key, (s.watchers key).elems.Nodup
  exact : ∀ key c, c ∈ (s.watchers key).elems ↔
    ∃ w, s.chans[c]? = some w ∧ w.key = key ∧ w.task = .waiting

structure Looping (s : MemStateStore) (p : Putting) : Prop where
  len : p.len = (s.watchers p.key).len
  bound : p.next ≤ p.len
  last : s.log.getLast? = some (p.key, p.ev)

structure WatcherSound (log : List (Bytes × WatchEvent)) (owed : List WatchEvent) (w : Watcher) :
    Prop where
  closed : w.chan.closed = true ↔ w.task = .done
  stopped : w.stop = none ↔ w.task = .waiting
  since : w.since ≤ log.length
  stop : ∀ n, w.stop = some n → n ≤ log.length
  offered : w.offers.map Prod.fst ++ owed = window log w
  unread : w.taken ++ w.chan.buf = accepted w.offers
  buffered : w.chan.buf.length ≤ watchCapacity
  full : ∀ offer ∈ w.offers, offer.2 ≤ watchCapacity

structure Sound (s : MemStateStore) : Prop where
  registered : Registered s
  looping : ∀ p, s.putting = some p → Looping s p
  watcher : ∀ c w, s.chans[c]? = some w → WatcherSound s.log (pending s c) w
  increasing : (s.log.map fun entry => entry.2.revision).Pairwise (· < ·)
  below : ∀ entry ∈ s.log, entry.2.revision ≤ s.rev

theorem startSound : Sound newMemStateStore where
  registered := ⟨fun _ => Nat.le_refl 0, fun _ => .nil, by simp [newMemStateStore, elemsNil]⟩
  looping := by simp [newMemStateStore]
  watcher := by simp [newMemStateStore]
  increasing := .nil
  below := by simp [newMemStateStore]

/-! ### Windows -/

theorem keyEventsAppend (key : Bytes) (first second : List (Bytes × WatchEvent)) :
    keyEvents key (first ++ second) = keyEvents key first ++ keyEvents key second := by
  simp [keyEvents]

theorem windowPut {log : List (Bytes × WatchEvent)} {w : Watcher} (since : w.since ≤ log.length)
    (stop : ∀ n, w.stop = some n → n ≤ log.length) (key : Bytes) (ev : WatchEvent) :
    window (log ++ [(key, ev)]) w =
      window log w ++ if w.stop = none ∧ w.key = key then [ev] else [] := by
  unfold window
  cases stopped : w.stop with
  | none =>
    simp only [Option.getD_none, List.take_length, List.drop_append_of_le_length since,
      keyEventsAppend, true_and]
    congr 1
    by_cases same : key = w.key
    · simp [keyEvents, same]
    · simp [keyEvents, same, Ne.symm same]
  | some n =>
    simp [List.take_append_of_le_length (stop n stopped)]

theorem windowStop {log : List (Bytes × WatchEvent)} {w : Watcher} (open_ : w.stop = none) (task : Task) :
    window log { w with task := task, stop := some log.length } = window log w := by
  simp [window, open_]

/-! ### Registration -/

theorem registeredIff {s : MemStateStore} (registered : Registered s) {c : Nat} {w : Watcher}
    (found : s.chans[c]? = some w) (key : Bytes) :
    c ∈ (s.watchers key).elems ↔ w.key = key ∧ w.task = .waiting := by
  rw [registered.exact key c, found]
  constructor
  · rintro ⟨_, same, holds⟩
    cases Option.some.inj same
    exact holds
  · exact fun holds => ⟨w, rfl, holds⟩

theorem setGet {α : Type} {xs : List α} {c d : Nat} {x y : α} (found : (xs.set c x)[d]? = some y) :
    (d = c ∧ y = x) ∨ (d ≠ c ∧ xs[d]? = some y) := by
  by_cases same : d = c
  · subst d
    rw [List.getElem?_set_self'] at found
    obtain ⟨_, _, rfl⟩ := Option.map_eq_some_iff.mp found
    exact .inl ⟨rfl, rfl⟩
  · rw [List.getElem?_set_ne (Ne.symm same)] at found
    exact .inr ⟨same, found⟩

theorem registeredSet {s : MemStateStore} (registered : Registered s) {c : Nat} {w v : Watcher}
    (found : s.chans[c]? = some w) (key : v.key = w.key)
    (waits : v.task = .waiting ↔ w.task = .waiting) (putting : Option Putting) :
    Registered { s with chans := s.chans.set c v, putting := putting } where
  fits := registered.fits
  nodup := registered.nodup
  exact := fun k d => by
    refine (registered.exact k d).trans ?_
    obtain ⟨inside, here⟩ := List.getElem?_eq_some_iff.mp found
    by_cases same : d = c
    · subst d
      simp [inside, here, key, waits]
    · simp [List.getElem?_set_ne (Ne.symm same)]

/-! ### One event -/

theorem putBeginSound {s : MemStateStore} (sound : Sound s) (free : s.putting = none)
    (key value : Bytes) : Sound (s.putBegin key value) where
  registered := ⟨sound.registered.fits, sound.registered.nodup, sound.registered.exact⟩
  looping := by
    rintro p same
    cases Option.some.inj same
    exact ⟨rfl, Nat.zero_le _, by simp [MemStateStore.putBegin]⟩
  watcher := fun c w found => by
    have old := sound.watcher c w found
    have nothing : pending s c = [] := by simp [pending, free]
    refine ⟨old.closed, old.stopped, ?_, fun n stopped => ?_, ?_, old.unread, old.buffered, old.full⟩
    · simpa [MemStateStore.putBegin] using Nat.le_succ_of_le old.since
    · simpa [MemStateStore.putBegin] using Nat.le_succ_of_le (old.stop n stopped)
    · have offered := old.offered
      rw [nothing, List.append_nil] at offered
      simp only [MemStateStore.putBegin]
      rw [windowPut old.since old.stop, offered]
      congr 1
      have listed := registeredIff sound.registered (c := c) (w := w) found key
      simp only [pending, List.drop_zero, listed, old.stopped]
      congr 1
      exact propext And.comm
  increasing := by
    simp only [MemStateStore.putBegin, List.map_append, List.map_cons, List.map_nil]
    refine List.pairwise_append.mpr ⟨sound.increasing, List.pairwise_singleton _ _, ?_⟩
    simp only [List.mem_map, List.mem_singleton]
    rintro _ ⟨entry, member, rfl⟩ _ rfl
    exact Nat.lt_succ_of_le (sound.below entry member)
  below := by
    simp only [MemStateStore.putBegin, List.mem_append, List.mem_singleton]
    rintro entry (old | rfl)
    · exact Nat.le_succ_of_le (sound.below entry old)
    · exact Nat.le_refl _

theorem sendTarget {s : MemStateStore} (sound : Sound s) {p : Putting} (active : s.putting = some p)
    (more : p.next < p.len) {c : Nat} (read : (s.watchers p.key).array[p.next]? = some c) :
    (s.watchers p.key).elems.drop p.next = c :: (s.watchers p.key).elems.drop (p.next + 1) := by
  have looping := sound.looping p active
  rw [looping.len] at more
  have element := (elemsGet more).trans read
  obtain ⟨inside, same⟩ := List.getElem?_eq_some_iff.mp element
  rw [List.drop_eq_getElem_cons inside, same]

def kept (ch : Chan) (ev : WatchEvent) : Chan :=
  if ch.buf.length < watchCapacity then { ch with buf := ch.buf ++ [ev] } else ch

theorem trySendOpen {ch : Chan} (ev : WatchEvent) (opened : ch.closed = false) :
    ch.trySend ev = .ok (kept ch ev) := by
  unfold Chan.trySend kept
  rw [opened, if_neg Bool.false_ne_true]
  split <;> simp

theorem offeredSound {log : List (Bytes × WatchEvent)} {w : Watcher} {ev : WatchEvent}
    (old : WatcherSound log [ev] w) : WatcherSound log [] (w.offered ev (kept w.chan ev)) where
  closed := by
    have closed := old.closed
    unfold Watcher.offered kept
    split <;> exact closed
  stopped := old.stopped
  since := old.since
  stop := old.stop
  offered := by
    have offered := old.offered
    simp only [Watcher.offered, List.map_append, List.map_cons, List.map_nil, List.append_nil]
    exact offered
  unread := by
    have unread := old.unread
    simp only [Watcher.offered, kept, accepted, List.filter_append, List.map_append] at unread ⊢
    rw [← unread]
    split
    · rename_i room
      simp [room]
    · rename_i full
      simp [full]
  buffered := by
    have buffered := old.buffered
    simp only [Watcher.offered, kept]
    split
    · rename_i room
      rw [List.length_append]
      exact room
    · exact buffered
  full := by
    simp only [Watcher.offered, List.mem_append, List.mem_singleton]
    rintro offer (before | rfl)
    · exact old.full offer before
    · exact old.buffered

theorem targetOpen {s : MemStateStore} (sound : Sound s) {p : Putting} (active : s.putting = some p)
    (more : p.next < p.len) {c : Nat} (read : (s.watchers p.key).array[p.next]? = some c)
    {w : Watcher} (found : s.chans[c]? = some w) : w.chan.closed = false := by
  have target := sendTarget sound active more read
  have listed : c ∈ (s.watchers p.key).elems :=
    List.mem_of_mem_drop (by rw [target]; exact List.mem_cons_self)
  have waits := ((registeredIff sound.registered found p.key).mp listed).2
  have closed := (sound.watcher c w found).closed
  rw [waits] at closed
  simpa using closed

theorem putSendSound {s : MemStateStore} (sound : Sound s) {p : Putting}
    (active : s.putting = some p) (more : p.next < p.len) {c : Nat}
    (read : (s.watchers p.key).array[p.next]? = some c) {w : Watcher} (found : s.chans[c]? = some w) :
    Sound { s with
      chans := s.chans.set c (w.offered p.ev (kept w.chan p.ev))
      putting := some { p with next := p.next + 1 } } := by
  have target := sendTarget sound active more read
  have fresh : c ∉ (s.watchers p.key).elems.drop (p.next + 1) := by
    have nodup := (sound.registered.nodup p.key).sublist (List.drop_sublist p.next _)
    rw [target] at nodup
    exact (List.nodup_cons.mp nodup).1
  have owed : pending s c = [p.ev] := by simp [pending, active, target]
  refine ⟨registeredSet sound.registered found (by rfl) (by rfl) _, ?_, fun d v there => ?_,
    sound.increasing, sound.below⟩
  · rintro _ same
    cases Option.some.inj same
    have looping := sound.looping p active
    exact ⟨looping.len, more, looping.last⟩
  · rcases setGet there with ⟨rfl, rfl⟩ | ⟨other, there⟩
    · have old := sound.watcher d w found
      rw [owed] at old
      have nothing : pending { s with
          chans := s.chans.set d (w.offered p.ev (kept w.chan p.ev))
          putting := some { p with next := p.next + 1 } } d = [] := by
        simp [pending, fresh]
      rw [nothing]
      exact offeredSound old
    · have same : pending { s with
          chans := s.chans.set c (w.offered p.ev (kept w.chan p.ev))
          putting := some { p with next := p.next + 1 } } d = pending s d := by
        simp [pending, active, target, other]
      rw [same]
      exact sound.watcher d v there

theorem putEndSound {s : MemStateStore} (sound : Sound s) {p : Putting} (active : s.putting = some p)
    (done : ¬ p.next < p.len) : Sound { s with putting := none } where
  registered := ⟨sound.registered.fits, sound.registered.nodup, sound.registered.exact⟩
  looping := by simp
  watcher := fun c w found => by
    have looping := sound.looping p active
    have length := elemsLength (sound.registered.fits p.key)
    have rest : (s.watchers p.key).elems.drop p.next = [] := by
      rw [List.drop_eq_nil_iff, length, ← looping.len]
      exact Nat.le_of_not_lt done
    have owed : pending s c = [] := by simp [pending, active, rest]
    have old := sound.watcher c w found
    rw [owed] at old
    exact old
  increasing := sound.increasing
  below := sound.below

theorem freshSound (key : Bytes) (log : List (Bytes × WatchEvent)) :
    WatcherSound log [] { key := key, since := log.length } where
  closed := by simp
  stopped := by simp
  since := Nat.le_refl _
  stop := by simp
  offered := by simp [window, keyEvents]
  unread := rfl
  buffered := Nat.zero_le _
  full := by simp

theorem fitsUpdate {watchers : Bytes → Slice Nat} (fits : ∀ key, (watchers key).Fits) {key : Bytes}
    {list : Slice Nat} (own : list.Fits) : ∀ k, (Function.update watchers key list k).Fits :=
  (Function.forall_update_iff watchers fun _ l => l.Fits).mpr ⟨own, fun k _ => fits k⟩

theorem watchElems {s : MemStateStore} (registered : Registered s) (key : Bytes) (spare : List Nat)
    (k : Bytes) : ((s.watch key spare).watchers k).elems =
      (s.watchers k).elems ++ if k = key then [s.chans.length] else [] := by
  by_cases same : k = key
  · subst k
    simp [MemStateStore.watch, elemsAppend (registered.fits key)]
  · simp [MemStateStore.watch, same]

theorem watchRegistered {s : MemStateStore} (registered : Registered s) (key : Bytes)
    (spare : List Nat) : Registered (s.watch key spare) where
  fits := fitsUpdate registered.fits (fitsAppend _ _ spare (registered.fits key))
  nodup := fun k => by
    have fresh : s.chans.length ∉ (s.watchers k).elems := by
      rw [registered.exact]
      rintro ⟨w, found, _⟩
      simp at found
    rw [watchElems registered]
    split
    · exact List.nodup_append.mpr ⟨registered.nodup k, by simp, fun a member b last => by
        rw [List.mem_singleton.mp last]
        rintro rfl
        exact fresh member⟩
    · simpa using registered.nodup k
  exact := fun k c => by
    rw [watchElems registered, List.mem_append, registered.exact]
    simp only [MemStateStore.watch, List.getElem?_append]
    by_cases known : c < s.chans.length
    · have other : c ≠ s.chans.length := Nat.ne_of_lt known
      by_cases same : k = key <;> simp [known, same, other]
    · by_cases same : c = s.chans.length
      · subst c
        by_cases own : k = key <;> simp [own, eq_comm]
      · have past : c - s.chans.length ≠ 0 := by omega
        obtain ⟨n, step⟩ := Nat.exists_eq_add_one_of_ne_zero past
        by_cases own : k = key <;> simp [known, own, same, step]

theorem watchSound {s : MemStateStore} (sound : Sound s) (free : s.putting = none) (key : Bytes)
    (spare : List Nat) : Sound (s.watch key spare) where
  registered := watchRegistered sound.registered key spare
  looping := by simp [MemStateStore.watch, free]
  watcher := fun c w found => by
    have nothing : pending (s.watch key spare) c = [] := by simp [pending, MemStateStore.watch, free]
    rw [nothing]
    simp only [MemStateStore.watch, List.getElem?_append] at found
    split at found
    · have old := sound.watcher c w found
      simpa [pending, free, MemStateStore.watch] using old
    · rw [List.getElem?_singleton] at found
      split at found <;> try contradiction
      cases found
      exact freshSound key s.log
  increasing := sound.increasing
  below := sound.below

theorem cancelElems {s : MemStateStore} (registered : Registered s) {c : Nat} {w : Watcher}
    (found : s.chans[c]? = some w) (k : Bytes) : ((s.cancel c w).watchers k).elems =
      (s.watchers k).elems.filter fun d => d ≠ c := by
  by_cases same : k = w.key
  · subst k
    simp [MemStateStore.cancel, elemsFilterInPlace _ (registered.fits w.key)]
  · -- a list of another key does not hold the channel
    have absent : c ∉ (s.watchers k).elems := by
      rw [registeredIff registered found k]
      exact fun holds => same holds.1.symm
    simp only [MemStateStore.cancel, Function.update_of_ne same]
    symm
    exact List.filter_eq_self.mpr fun d member => by
      simpa using fun here : d = c => absent (here ▸ member)

theorem cancelRegistered {s : MemStateStore} (registered : Registered s) {c : Nat} {w : Watcher}
    (found : s.chans[c]? = some w) : Registered (s.cancel c w) where
  fits := fitsUpdate registered.fits (fitsFilterInPlace _ (registered.fits w.key))
  nodup := fun k => by
    rw [cancelElems registered found]
    exact (registered.nodup k).filter _
  exact := fun k d => by
    obtain ⟨inside, _⟩ := List.getElem?_eq_some_iff.mp found
    rw [cancelElems registered found, List.mem_filter, registered.exact]
    by_cases same : d = c
    · subst d
      simp [MemStateStore.cancel, inside]
    · simp [MemStateStore.cancel, same, List.getElem?_set_ne (Ne.symm same)]

theorem removedSound {log : List (Bytes × WatchEvent)} {w : Watcher} (old : WatcherSound log [] w)
    (waits : w.task = .waiting) :
    WatcherSound log [] { w with task := .unlocked, stop := some log.length } where
  closed := by
    have closed := old.closed
    rw [waits] at closed
    simpa using closed
  stopped := by simp
  since := old.since
  stop := by
    rintro n same
    cases Option.some.inj same
    exact Nat.le_refl _
  offered := old.offered.trans (windowStop (old.stopped.mpr waits) _).symm
  unread := old.unread
  buffered := old.buffered
  full := old.full

theorem cancelSound {s : MemStateStore} (sound : Sound s) (free : s.putting = none) {c : Nat}
    {w : Watcher} (found : s.chans[c]? = some w) (waits : w.task = .waiting) :
    Sound (s.cancel c w) where
  registered := cancelRegistered sound.registered found
  looping := by simp [MemStateStore.cancel, free]
  watcher := fun d v there => by
    have nothing : pending (s.cancel c w) d = [] := by simp [pending, MemStateStore.cancel, free]
    have before : pending s d = [] := by simp [pending, free]
    rw [nothing]
    rcases setGet there with ⟨rfl, rfl⟩ | ⟨_, there⟩
    · have old := sound.watcher d w found
      rw [before] at old
      exact removedSound old waits
    · have old := sound.watcher d v there
      rw [before] at old
      exact old
  increasing := sound.increasing
  below := sound.below

theorem watcherSet {s : MemStateStore} (sound : Sound s) {c : Nat} {w v : Watcher}
    (found : s.chans[c]? = some w) (key : v.key = w.key)
    (waits : v.task = .waiting ↔ w.task = .waiting)
    (keeps : ∀ owed, WatcherSound s.log owed w → WatcherSound s.log owed v) :
    Sound { s with chans := s.chans.set c v } where
  registered := registeredSet sound.registered found key waits s.putting
  looping := fun p active =>
    have looping := sound.looping p active
    ⟨looping.len, looping.bound, looping.last⟩
  watcher := fun d u there => by
    rcases setGet there with ⟨rfl, rfl⟩ | ⟨_, there⟩
    · exact keeps _ (sound.watcher d w found)
    · exact sound.watcher d u there
  increasing := sound.increasing
  below := sound.below

theorem closeOpen {s : MemStateStore} (sound : Sound s) {c : Nat} {w : Watcher}
    (found : s.chans[c]? = some w) (unlocked : w.task = .unlocked) :
    s.closeChan c w = .ok { s with
      chans := s.chans.set c { w with chan := { w.chan with closed := true }, task := .done } } := by
  have closed := (sound.watcher c w found).closed
  have opened : w.chan.closed = false := by
    rw [unlocked] at closed
    simpa using closed
  simp [MemStateStore.closeChan, Chan.close, opened]

theorem closeSound {s : MemStateStore} (sound : Sound s) {c : Nat} {w : Watcher}
    (found : s.chans[c]? = some w) (unlocked : w.task = .unlocked) :
    Sound { s with
      chans := s.chans.set c { w with chan := { w.chan with closed := true }, task := .done } } := by
  refine watcherSet sound found rfl (by simp [unlocked]) fun owed old => ?_
  refine ⟨by simp, ?_, old.since, old.stop, old.offered, old.unread, old.buffered, old.full⟩
  have stopped := old.stopped
  rw [unlocked] at stopped
  simpa using stopped

theorem receiveSound {s : MemStateStore} (sound : Sound s) {c : Nat} {w : Watcher}
    (found : s.chans[c]? = some w) {ev : WatchEvent} {rest : List WatchEvent}
    (unread : w.chan.buf = ev :: rest) :
    Sound { s with chans := s.chans.set c { w with
      chan := { w.chan with buf := rest }, taken := w.taken ++ [ev] } } := by
  refine watcherSet sound found rfl Iff.rfl fun owed old => ?_
  refine ⟨old.closed, old.stopped, old.since, old.stop, old.offered, ?_, ?_, old.full⟩
  · have before := old.unread
    rw [unread] at before
    simpa [accepted] using before
  · have before := old.buffered
    rw [unread] at before
    exact Nat.le_of_succ_le before

/-- What an event of a sound store does: a send meets an open channel, and so does a close. -/
inductive Moved (s : MemStateStore) : Event → MemStateStore → Prop where
  | putBegin {key value} (free : s.putting = none) : Moved s (.putBegin key value) (s.putBegin key value)
  | putSend {p c w} (active : s.putting = some p) (more : p.next < p.len)
      (read : (s.watchers p.key).array[p.next]? = some c) (found : s.chans[c]? = some w) :
      Moved s .putSend { s with
        chans := s.chans.set c (w.offered p.ev (kept w.chan p.ev))
        putting := some { p with next := p.next + 1 } }
  | putEnd {p} (active : s.putting = some p) (done : ¬ p.next < p.len) :
      Moved s .putEnd { s with putting := none }
  | watch {key spare} (free : s.putting = none) : Moved s (.watch key spare) (s.watch key spare)
  | cancel {c w} (free : s.putting = none) (found : s.chans[c]? = some w) (waits : w.task = .waiting) :
      Moved s (.cancel c) (s.cancel c w)
  | close {c w} (found : s.chans[c]? = some w) (unlocked : w.task = .unlocked) :
      Moved s (.close c) { s with
        chans := s.chans.set c { w with chan := { w.chan with closed := true }, task := .done } }
  | receive {c w ev rest} (found : s.chans[c]? = some w) (unread : w.chan.buf = ev :: rest) :
      Moved s (.receive c) { s with chans := s.chans.set c { w with
        chan := { w.chan with buf := rest }, taken := w.taken ++ [ev] } }

theorem execMoved {s : MemStateStore} (sound : Sound s) {e : Event}
    {result : Except ChanPanic MemStateStore} (runs : exec s e = some result) :
    ∃ t, result = .ok t ∧ Moved s e t := by
  cases e with
  | putBegin key value =>
    simp only [exec] at runs
    split at runs <;> try contradiction
    cases runs
    exact ⟨_, rfl, .putBegin (Option.isNone_iff_eq_none.mp ‹_›)⟩
  | putSend =>
    simp only [exec, bind, Option.bind_eq_some_iff] at runs
    obtain ⟨p, active, runs⟩ := runs
    split at runs <;> try contradiction
    simp only [Option.bind_eq_some_iff] at runs
    obtain ⟨c, read, w, found, runs⟩ := runs
    rw [MemStateStore.putSend, trySendOpen p.ev (targetOpen sound active ‹_› read found)] at runs
    cases runs
    exact ⟨_, rfl, .putSend active ‹_› read found⟩
  | putEnd =>
    simp only [exec, bind, Option.bind_eq_some_iff] at runs
    obtain ⟨p, active, runs⟩ := runs
    split at runs <;> try contradiction
    cases runs
    exact ⟨_, rfl, .putEnd active ‹_›⟩
  | watch key spare =>
    simp only [exec] at runs
    split at runs <;> try contradiction
    cases runs
    exact ⟨_, rfl, .watch (Option.isNone_iff_eq_none.mp ‹_›)⟩
  | cancel c =>
    simp only [exec, bind, Option.bind_eq_some_iff] at runs
    obtain ⟨w, found, runs⟩ := runs
    split at runs <;> try contradiction
    rename_i allowed
    cases runs
    exact ⟨_, rfl, .cancel (Option.isNone_iff_eq_none.mp allowed.1) found allowed.2⟩
  | close c =>
    simp only [exec, bind, Option.bind_eq_some_iff] at runs
    obtain ⟨w, found, runs⟩ := runs
    split at runs <;> try contradiction
    rw [closeOpen sound found ‹_›] at runs
    cases runs
    exact ⟨_, rfl, .close found ‹_›⟩
  | receive c =>
    simp only [exec, bind, Option.bind_eq_some_iff] at runs
    obtain ⟨w, found, runs⟩ := runs
    split at runs <;> try contradiction
    cases runs
    exact ⟨_, rfl, .receive found ‹_›⟩

theorem stepMoved {s t : MemStateStore} {e : Event} (sound : Sound s) (step : Step s e t) :
    Moved s e t := by
  obtain ⟨u, same, moved⟩ := execMoved sound step
  cases same
  exact moved

theorem stepSound {s t : MemStateStore} {e : Event} (sound : Sound s) (step : Step s e t) :
    Sound t := by
  cases stepMoved sound step with
  | putBegin free => exact putBeginSound sound free _ _
  | putSend active more read found => exact putSendSound sound active more read found
  | putEnd active done => exact putEndSound sound active done
  | watch free => exact watchSound sound free _ _
  | cancel free found waits => exact cancelSound sound free found waits
  | close found unlocked => exact closeSound sound found unlocked
  | receive found unread => exact receiveSound sound found unread

theorem runSound {es : List Event} {s : MemStateStore} (run : Run Step newMemStateStore es s) :
    Sound s := by
  have preserved (u : MemStateStore) (e) (v) : Sound u → Step u e v → Sound v := stepSound
  exact StepRun.runInvariant preserved run startSound

/-! ### What an event leaves alone -/

def putOf (rev : Nat) : Event → List (Bytes × WatchEvent)
  | .putBegin key value => [(key, ⟨value, rev + 1⟩)]
  | _ => []

structure Leaves (s : MemStateStore) (e : Event) (t : MemStateStore) : Prop where
  log : t.log = s.log ++ putOf s.rev e
  watcher : ∀ c w, s.chans[c]? = some w → ∃ v, t.chans[c]? = some v ∧ v.key = w.key ∧
    v.since = w.since ∧ (e ≠ .receive c → v.taken = w.taken)

theorem setLeaves {s : MemStateStore} {e : Event} (quiet : putOf s.rev e = []) {c : Nat}
    {w v : Watcher} (found : s.chans[c]? = some w) (key : v.key = w.key) (since : v.since = w.since)
    (taken : e ≠ .receive c → v.taken = w.taken) {t : MemStateStore} (log : t.log = s.log)
    (chans : t.chans = s.chans.set c v) : Leaves s e t where
  log := by rw [log, quiet, List.append_nil]
  watcher := fun d u there => by
    obtain ⟨inside, _⟩ := List.getElem?_eq_some_iff.mp found
    rw [chans]
    by_cases same : d = c
    · subst d
      rw [found] at there
      cases there
      exact ⟨v, by simp [inside], key, since, taken⟩
    · exact ⟨u, by rw [List.getElem?_set_ne (Ne.symm same), there], rfl, rfl, fun _ => rfl⟩

theorem stepLeaves {s t : MemStateStore} {e : Event} (sound : Sound s) (step : Step s e t) :
    Leaves s e t := by
  cases stepMoved sound step with
  | putBegin free => exact ⟨rfl, fun c w found => ⟨w, found, rfl, rfl, fun _ => rfl⟩⟩
  | putSend active more read found =>
    exact setLeaves rfl found (by rfl) (by rfl) (fun _ => by rfl) rfl rfl
  | putEnd active done =>
    exact ⟨(List.append_nil _).symm, fun c w found => ⟨w, found, rfl, rfl, fun _ => rfl⟩⟩
  | watch free =>
    refine ⟨(List.append_nil _).symm, fun c w found => ⟨w, ?_, rfl, rfl, fun _ => rfl⟩⟩
    obtain ⟨inside, _⟩ := List.getElem?_eq_some_iff.mp found
    rw [MemStateStore.watch, List.getElem?_append_left inside, found]
  | cancel free found waits =>
    exact setLeaves rfl found (by rfl) (by rfl) (fun _ => by rfl) rfl rfl
  | close found unlocked => exact setLeaves rfl found (by rfl) (by rfl) (fun _ => by rfl) rfl rfl
  | receive found unread =>
    exact setLeaves rfl found (by rfl) (by rfl) (fun other => absurd rfl other) rfl rfl

/-! ### Safety and delivery -/

theorem neverPanics {s : MemStateStore} (sound : Sound s) (e : Event) (panic : ChanPanic) :
    exec s e ≠ some (.error panic) := by
  intro fails
  obtain ⟨_, same, _⟩ := execMoved sound fails
  contradiction

def Watching (s : MemStateStore) (key : Bytes) (c : Nat) : Prop := c ∈ (s.watchers key).elems

theorem cancelKeepsOthers {s t : MemStateStore} (sound : Sound s) {c : Nat}
    (cancels : Step s (.cancel c) t) (key : Bytes) {d : Nat} (other : d ≠ c) :
    Watching t key d ↔ Watching s key d := by
  have after := stepSound sound cancels
  cases stepMoved sound cancels
  unfold Watching
  rw [after.registered.exact, sound.registered.exact]
  simp only [MemStateStore.cancel, List.getElem?_set_ne (Ne.symm other)]

/-- `received` is what the reader took and what still waits for it. -/
structure Receives (s : MemStateStore) (c : Nat) (w : Watcher) : Prop where
  subsequence : (w.taken ++ w.chan.buf).Sublist (window s.log w)
  increasing : (w.taken ++ w.chan.buf).Pairwise fun a b => a.revision < b.revision
  offered : w.offers.map Prod.fst ++ pending s c = window s.log w
  received : w.taken ++ w.chan.buf = accepted w.offers
  leftOut : ∀ offer ∈ w.offers, offer.1 ∉ w.taken ++ w.chan.buf → offer.2 = watchCapacity

theorem windowSublist (log : List (Bytes × WatchEvent)) (w : Watcher) :
    (window log w).Sublist (log.map Prod.snd) := by
  unfold window keyEvents
  refine List.Sublist.map _ ?_
  exact List.filter_sublist.trans ((List.drop_sublist _ _).trans (List.take_sublist _ _))

theorem watcherReceives {s : MemStateStore} (sound : Sound s) {c : Nat} {w : Watcher}
    (found : s.chans[c]? = some w) : Receives s c w := by
  have watcher := sound.watcher c w found
  have subsequence : (w.taken ++ w.chan.buf).Sublist (window s.log w) := by
    rw [watcher.unread, ← watcher.offered]
    exact (List.filter_sublist.map _).trans (List.sublist_append_left _ _)
  refine ⟨subsequence, ?_, watcher.offered, watcher.unread, fun offer member left => ?_⟩
  · have increasing : (s.log.map Prod.snd).Pairwise fun a b => a.revision < b.revision :=
      List.pairwise_map.mpr (List.pairwise_map.mp sound.increasing)
    exact increasing.sublist (subsequence.trans (windowSublist s.log w))
  · refine Nat.le_antisymm (watcher.full offer member) (Nat.le_of_not_lt fun room => left ?_)
    rw [watcher.unread]
    exact List.mem_map.mpr ⟨offer, List.mem_filter.mpr ⟨member, by simpa using room⟩, rfl⟩

structure Safe (s : MemStateStore) : Prop where
  noPanic : ∀ e panic, exec s e ≠ some (.error panic)
  frame : ∀ c t, Step s (.cancel c) t → ∀ key d, d ≠ c → (Watching t key d ↔ Watching s key d)
  delivery : ∀ c w, s.chans[c]? = some w → Receives s c w

theorem watchSafe {es : List Event} {s : MemStateStore} (run : Run Step newMemStateStore es s) :
    Safe s := by
  have sound := runSound run
  exact ⟨neverPanics sound, fun c t cancels key d => cancelKeepsOthers sound cancels key,
    fun c w => watcherReceives sound⟩

/-! A watcher that is cancelled while an event still waits for its reader. -/

def cancelledReader : List Event :=
  [.watch [1] [0], .watch [1] [], .putBegin [1] [7], .putSend, .putSend, .putEnd, .receive 1,
    .cancel 0, .close 0, .putBegin [1] [8], .putSend, .putEnd]

theorem cancelledReaderSafe : ∃ s, s.chans.length = 2 ∧ s.rev = 2 ∧ Safe s := by
  have run : Run Step newMemStateStore cancelledReader _ :=
    .cons rfl <| .cons rfl <| .cons rfl <| .cons rfl <| .cons rfl <| .cons rfl <| .cons rfl <|
      .cons rfl <| .cons rfl <| .cons rfl <| .cons rfl <| .cons rfl <| .nil _
  exact ⟨_, rfl, rfl, watchSafe run⟩

end OmegaLb.WatchSafety
