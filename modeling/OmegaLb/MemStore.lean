import Mathlib.Logic.Function.Basic
import OmegaLb.GoSlice
import OmegaLb.GoText

/-! The in-memory state store of mem_store.go. Put holds the lock over its whole loop, one
send after the other; the goroutine of a Watch filters the watcher list under the lock and
closes the channel after unlocking; receives need no lock. Revisions are exact numbers,
since 2^63 Puts are out of reach. -/
namespace OmegaLb.MemStore
open GoText (Bytes)
open GoSlice (Slice)

structure WatchEvent where
  value : Bytes
  revision : Nat
  deriving DecidableEq, Repr

inductive ChanPanic where
  | sendOnClosedChannel
  | closeOfClosedChannel
  deriving DecidableEq, Repr

structure Chan where
  buf : List WatchEvent
  closed : Bool
  deriving DecidableEq, Repr

def watchCapacity : Nat := 16

/-- select { case ch <- ev: default: } -/
def Chan.trySend (ch : Chan) (ev : WatchEvent) : Except ChanPanic Chan :=
  if ch.closed then .error .sendOnClosedChannel
  else if ch.buf.length < watchCapacity then .ok { ch with buf := ch.buf ++ [ev] }
  else .ok ch

def Chan.close (ch : Chan) : Except ChanPanic Chan :=
  if ch.closed then .error .closeOfClosedChannel else .ok { ch with closed := true }

/-- The goroutine of a Watch: waiting for its context or the lock, past the unlock, done. -/
inductive Task where
  | waiting
  | unlocked
  | done
  deriving DecidableEq, Repr

/-- One call of Watch. What follows the task is history: the events it was offered with the
number of unread ones it had then, the events its reader has taken, and how many Puts came
before the registration and before the removal. -/
structure Watcher where
  key : Bytes
  chan : Chan := ⟨[], false⟩
  task : Task := .waiting
  offers : List (WatchEvent × Nat) := []
  taken : List WatchEvent := []
  since : Nat
  stop : Option Nat := none
  deriving DecidableEq, Repr

/-- The rest of a Put: the header of the slice its loop ranges over is read once. -/
structure Putting where
  key : Bytes
  ev : WatchEvent
  next : Nat
  len : Nat

/-- A missing key of `watchers` reads as the nil slice. A channel is named by its position
in `chans`; `log` is the history of all Puts. -/
structure MemStateStore where
  data : Bytes → Option Bytes
  revs : Bytes → Nat
  watchers : Bytes → Slice Nat
  rev : Nat
  chans : List Watcher
  putting : Option Putting
  log : List (Bytes × WatchEvent)

def newMemStateStore : MemStateStore where
  data := fun _ => none
  revs := fun _ => 0
  watchers := fun _ => .nil
  rev := 0
  chans := []
  putting := none
  log := []

def MemStateStore.get (s : MemStateStore) (key : Bytes) : Option Bytes × Nat :=
  match s.data key with
  | none => (none, 0)
  | some v => (some v, s.revs key)

inductive Event where
  | putBegin (key value : Bytes)
  | putSend
  | putEnd
  | watch (key : Bytes) (spare : List Nat)
  | cancel (c : Nat)
  | close (c : Nat)
  | receive (c : Nat)

def MemStateStore.putBegin (s : MemStateStore) (key value : Bytes) : MemStateStore :=
  let ev : WatchEvent := ⟨value, s.rev + 1⟩
  { s with
    rev := s.rev + 1
    data := Function.update s.data key (some value)
    revs := Function.update s.revs key (s.rev + 1)
    putting := some ⟨key, ev, 0, (s.watchers key).len⟩
    log := s.log ++ [(key, ev)] }

def Watcher.offered (w : Watcher) (ev : WatchEvent) (ch : Chan) : Watcher :=
  { w with chan := ch, offers := w.offers ++ [(ev, w.chan.buf.length)] }

def MemStateStore.putSend (s : MemStateStore) (p : Putting) (c : Nat) (w : Watcher) :
    Except ChanPanic MemStateStore :=
  match w.chan.trySend p.ev with
  | .error panic => .error panic
  | .ok ch => .ok { s with
      chans := s.chans.set c (w.offered p.ev ch)
      putting := some { p with next := p.next + 1 } }

def MemStateStore.watch (s : MemStateStore) (key : Bytes) (spare : List Nat) : MemStateStore :=
  { s with
    watchers := Function.update s.watchers key ((s.watchers key).append s.chans.length spare)
    chans := s.chans ++ [{ key := key, since := s.log.length }] }

def MemStateStore.cancel (s : MemStateStore) (c : Nat) (w : Watcher) : MemStateStore :=
  { s with
    watchers := Function.update s.watchers w.key ((s.watchers w.key).filterInPlace fun d => d ≠ c)
    chans := s.chans.set c { w with task := .unlocked, stop := some s.log.length } }

def MemStateStore.closeChan (s : MemStateStore) (c : Nat) (w : Watcher) :
    Except ChanPanic MemStateStore :=
  match w.chan.close with
  | .error panic => .error panic
  | .ok ch => .ok { s with chans := s.chans.set c { w with chan := ch, task := .done } }

/-- `none` when the event cannot happen now: the lock is taken, or there is nothing to do. -/
def exec (s : MemStateStore) : Event → Option (Except ChanPanic MemStateStore)
  | .putBegin key value => if s.putting.isNone then some (.ok (s.putBegin key value)) else none
  | .putSend => do
    let p ← s.putting
    if p.next < p.len then
      let c ← (s.watchers p.key).array[p.next]?
      let w ← s.chans[c]?
      some (s.putSend p c w)
    else none
  | .putEnd => do
    let p ← s.putting
    if p.next < p.len then none else some (.ok { s with putting := none })
  | .watch key spare => if s.putting.isNone then some (.ok (s.watch key spare)) else none
  | .cancel c => do
    let w ← s.chans[c]?
    if s.putting.isNone ∧ w.task = .waiting then some (.ok (s.cancel c w)) else none
  | .close c => do
    let w ← s.chans[c]?
    if w.task = .unlocked then some (s.closeChan c w) else none
  | .receive c => do
    let w ← s.chans[c]?
    match w.chan.buf with
    | [] => none
    | ev :: rest => some (.ok { s with chans := s.chans.set c { w with
        chan := { w.chan with buf := rest }, taken := w.taken ++ [ev] } })

def Step (s : MemStateStore) (e : Event) (t : MemStateStore) : Prop := exec s e = some (.ok t)

end OmegaLb.MemStore
