import OmegaLb.ProxyHandle
import Mathlib.Data.Rat.Defs

/-! OmegaLBProxy.handle_admin, cut at its awaits, and the backends that it tells. -/
namespace OmegaLb.AdminHandle
open GoText (Bytes ascii)
open HaRing (pyIndex pyIndexInside)
open OmegaProxy (Proxy Raised Response)

/-! ### What json.loads gives -/

/-- A float is `none` where it is infinite or not a number. -/
inductive Data where
  | null
  | bool (b : Bool)
  | int (i : Int)
  | float (x : Option ℚ)
  | str (s : Bytes)
  | list (items : List Data)
  | dict (members : List (Bytes × Data))

/-- `key in data`, where `none` is a TypeError. -/
def Data.has (data : Data) (key : Bytes) : Option Bool :=
  match data with
  | .dict members => some (members.any fun m => m.1 = key)
  | .list items => some (items.any fun | .str s => s = key | _ => false)
  | .str s => some (s.tails.any key.isPrefixOf)
  | _ => none

/-- `data[key]`: of several members of one name the last counts. -/
def Data.get (data : Data) (key : Bytes) : Option Data :=
  match data with
  | .dict members => (members.reverse.find? fun m => m.1 = key).map Prod.snd
  | _ => none

def Data.truthy : Data → Bool
  | .null => false
  | .bool b => b
  | .int i => i ≠ 0
  | .float x => x ≠ some 0
  | .str s => s ≠ []
  | .list items => !items.isEmpty
  | .dict members => !members.isEmpty

/-- `int(data)`, given what it makes of a str. -/
def Data.toInt (intOfText : Bytes → Option Int) : Data → Option Int
  | .bool b => some (if b then 1 else 0)
  | .int i => some i
  | .float x => x.map fun x => x.num.tdiv x.den
  | .str s => intOfText s
  | _ => none

/-! ### The backends -/

structure Backend where
  overload : Bool
  errorPct : ℚ
  deriving DecidableEq, Repr

def Backend.handleAdmin (_ : Backend) (overload : Bool) (errorPct : ℚ) : Backend := ⟨overload, errorPct⟩

def Backend.handleHealth (_ : Backend) : Response := ⟨200, ascii "ok"⟩

/-! ### The handler -/

/-- How an attempt to write spike.flag would end: the file is emptied before it is written. -/
inductive Disk where
  | writable
  | full
  | denied
  deriving DecidableEq, Repr

structure Site (F : Type) where
  proxy : Proxy F
  backends : Nat → Backend
  spikeFlag : Option Bytes
  disk : Disk

inductive Order where
  | kill
  | revive
  deriving DecidableEq, Repr

def Order.key : Order → Bytes
  | .kill => ascii "kill_backend"
  | .revive => ascii "revive_backend"

def Order.healthy : Order → Bool
  | .kill => false
  | .revive => true

def Order.tell (b : Backend) : Order → Backend
  | .kill => b.handleAdmin true 90
  | .revive => b.handleAdmin false (3 / 10)

/-- In `telling` the flags are set, and the backend has yet to answer. -/
inductive Phase where
  | arrived
  | readingBody
  | telling (order : Order) (backend : Nat) (data : Data)
  | replied (status : Nat)
  | cancelled

/-- The gate of allowlist, rate limit and token admits a request or refuses it with a status. -/
inductive Input where
  | gate (refusal : Option Nat)
  | body (data : Data)
  | bodyLost (raised : Raised)
  | told
  | untold (reached : Bool) (raised : Raised)

def Phase.left : Raised → Phase
  | .cancelled => .cancelled
  | _ => .replied 400

section Handler
variable {F : Type}

def Site.tell (s : Site F) (order : Order) (k : Nat) : Site F :=
  { s with backends := Function.update s.backends k (order.tell (s.backends k)) }

def Site.putHealth (s : Site F) (k : Nat) (healthy : Bool) : Site F :=
  { s with proxy := s.proxy.putHealth k healthy }

def spike (s : Site F) (data : Data) : Site F × Phase :=
  match data.has (ascii "spike") with
  | none => (s, .replied 400)
  | some false => (s, .replied 200)
  | some true =>
    match s.disk, data.get (ascii "spike") with
    | .denied, _ => (s, .replied 400)
    | .full, _ => ({ s with spikeFlag := some [] }, .replied 400)
    | .writable, none => ({ s with spikeFlag := some [] }, .replied 400)
    | .writable, some v => ({ s with spikeFlag := some (ascii (if v.truthy then "1" else "0")) }, .replied 200)

variable (intOfText : Bytes → Option Int)

def obey (order : Order) (rest : Site F → Data → Site F × Phase) (s : Site F) (data : Data) : Site F × Phase :=
  match data.has order.key with
  | none => (s, .replied 400)
  | some false => rest s data
  | some true =>
    match (data.get order.key).bind (Data.toInt intOfText) |>.bind (pyIndex s.proxy.ring.n) with
    | none => (s, .replied 400)
    | some k => (s.putHealth k order.healthy, .telling order k data)

def reviveBackend (s : Site F) (data : Data) : Site F × Phase := obey intOfText .revive spike s data

def killBackend (s : Site F) (data : Data) : Site F × Phase :=
  obey intOfText .kill (reviveBackend intOfText) s data

def afterTelling : Order → Site F → Data → Site F × Phase
  | .kill => reviveBackend intOfText
  | .revive => spike

def handleAdmin (s : Site F) (phase : Phase) (input : Input) : Option (Site F × Phase) :=
  match phase, input with
  | .arrived, .gate none => some (s, .readingBody)
  | .arrived, .gate (some status) => some (s, .replied status)
  | .readingBody, .body data => some (killBackend intOfText s data)
  | .readingBody, .bodyLost raised => some (s, .left raised)
  | .telling order k data, .told => some (afterTelling intOfText order (s.tell order k) data)
  | .telling order k _, .untold reached raised => some (if reached then s.tell order k else s, .left raised)
  | _, _ => none

/-- A step sets the flags of one backend and goes on to tell it, or leaves all the flags alone. -/
inductive Flagged (s : Site F) : Site F × Phase → Prop where
  | kept {t : Site F} {phase : Phase} (same : t.proxy = s.proxy)
      (silent : ∀ order k data, phase ≠ .telling order k data) : Flagged s (t, phase)
  | set {t : Site F} {order : Order} {k : Nat} {data : Data} (inside : k < s.proxy.ring.n)
      (changed : t.proxy = s.proxy.putHealth k order.healthy) : Flagged s (t, .telling order k data)

theorem spikeFlagged (s : Site F) (data : Data) : Flagged s (spike s data) := by
  unfold spike
  split
  · exact .kept rfl nofun
  · exact .kept rfl nofun
  · split <;> exact .kept rfl nofun

variable {intOfText} in
theorem obeyFlagged {order : Order} {rest : Site F → Data → Site F × Phase}
    (onward : ∀ s data, Flagged s (rest s data)) (s : Site F) (data : Data) :
    Flagged s (obey intOfText order rest s data) := by
  unfold obey
  split
  · exact .kept rfl nofun
  · exact onward s data
  · split
    · exact .kept rfl nofun
    · rename_i k found
      obtain ⟨i, _, found⟩ := Option.bind_eq_some_iff.mp found
      exact .set (pyIndexInside found) rfl

theorem afterTellingFlagged (order : Order) (s : Site F) (data : Data) :
    Flagged s (afterTelling intOfText order s data) := by
  cases order with
  | kill => exact obeyFlagged spikeFlagged s data
  | revive => exact spikeFlagged s data

theorem tellProxy (s : Site F) (order : Order) (k : Nat) : (s.tell order k).proxy = s.proxy := rfl

theorem flaggedTold {s t : Site F} {out : Site F × Phase} (same : t.proxy = s.proxy) (flagged : Flagged t out) :
    Flagged s out := by
  cases flagged with
  | kept kept silent => exact .kept (kept.trans same) silent
  | set inside changed => exact .set (same ▸ inside) (same ▸ changed)

theorem leftSilent (raised : Raised) (order : Order) (k : Nat) (data : Data) :
    Phase.left raised ≠ .telling order k data := by
  cases raised <;> exact nofun

variable {intOfText} in
theorem handleFlagged {s : Site F} {phase : Phase} {input : Input} {out : Site F × Phase}
    (done : handleAdmin intOfText s phase input = some out) : Flagged s out := by
  unfold handleAdmin at done
  split at done <;> cases done
  · exact .kept rfl nofun
  · exact .kept rfl nofun
  · exact obeyFlagged (obeyFlagged spikeFlagged) s _
  · exact .kept rfl (leftSilent _)
  · exact flaggedTold (tellProxy s _ _) (afterTellingFlagged intOfText _ _ _)
  · refine .kept ?_ (leftSilent _)
    split
    · exact tellProxy s _ _
    · rfl

end Handler

end OmegaLb.AdminHandle
