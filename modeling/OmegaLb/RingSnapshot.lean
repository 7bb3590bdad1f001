import OmegaLb.JsonNested
import OmegaLb.WalRecords

/-! The published ring state of coordinator.go and its JSON text. A time.Time is kept as
the text that encoding/json writes and reads for it. -/
namespace OmegaLb.RingSnapshot
open GoText (Bytes ascii decimal isDigit)
open Json (Value quote writeObject writeArray)
open RingWal (foldName parseUint parseInt decimalInt marshalBool)

/-! ### time.Time -/

def readNum (fixed : Bool) : Bytes → Option (Nat × Bytes)
  | a :: b :: s =>
    if isDigit a then
      if isDigit b then some (10 * (a.toNat - 48) + (b.toNat - 48), s)
      else if fixed then none
      else some (a.toNat - 48, b :: s)
    else none
  | [a] => if isDigit a && !fixed then some (a.toNat - 48, []) else none
  | [] => none

def readYear (s : Bytes) : Option (Nat × Bytes) := do
  let (high, s) ← readNum true s
  let (low, s) ← readNum true s
  some (100 * high + low, s)

def skipByte (b : UInt8) : Bytes → Option Bytes
  | x :: s => if x = b then some s else none
  | [] => none

def skipNanoseconds : Bytes → Bytes
  | point :: d :: s =>
    -- a comma may stand for the point
    if (point = 46 || point = 44) && isDigit d then s.dropWhile isDigit else point :: d :: s
  | s => s

def isZone (s : Bytes) : Bool :=
  match s with
  | [90] => true
  | sign :: s => (do
      let (hr, s) ← readNum true s
      let s ← skipByte 58 s
      let (mm, s) ← readNum true s
      -- offsets of 24 hours or 60 minutes are let through
      if (sign = 43 ∨ sign = 45) ∧ hr ≤ 24 ∧ mm ≤ 60 ∧ s = [] then some () else none).isSome
  | [] => false

def isLeap (year : Nat) : Bool := year % 4 = 0 && (year % 100 ≠ 0 || year % 400 = 0)

def daysIn (month year : Nat) : Nat :=
  if month = 2 then if isLeap year then 29 else 28
  else if month = 4 ∨ month = 6 ∨ month = 9 ∨ month = 11 then 30
  else 31

/-- What Time.UnmarshalJSON accepts: RFC 3339 as time.Parse checks it. -/
def isTimestamp (s : Bytes) : Bool :=
  s.all (fun b => b < 0x80) && (do
    let (year, s) ← readYear s
    let s ← skipByte 45 s
    let (month, s) ← readNum true s
    let s ← skipByte 45 s
    let (day, s) ← readNum true s
    let s ← skipByte 84 s
    let (hour, s) ← readNum false s
    let s ← skipByte 58 s
    let (min, s) ← readNum true s
    let s ← skipByte 58 s
    let (sec, s) ← readNum true s
    if 1 ≤ month ∧ month ≤ 12 ∧ 1 ≤ day ∧ day ≤ daysIn month year ∧ hour < 24 ∧ min < 60 ∧
      sec < 60 ∧ isZone (skipNanoseconds s) then some () else none).isSome

structure Timestamp where
  text : Bytes
  valid : isTimestamp text = true
  deriving DecidableEq

def zeroTime : Timestamp := ⟨ascii "0001-01-01T00:00:00Z", by decide⟩

/-! ### The records -/

structure BackendSnapshot where
  id : UInt32
  ip : Vector UInt8 4
  port : UInt16
  vnodeCount : Int64
  capacityMax : Int64
  health : Bool
  stateful : Bool
  deriving DecidableEq, Repr

structure RingStateSnapshot where
  backends : List BackendSnapshot
  updatedAt : Timestamp
  nodeID : Bytes
  version : Int64
  deriving DecidableEq

/-! ### json.Marshal -/

def marshalIp (ip : Vector UInt8 4) : Bytes := writeArray (ip.toList.map fun b => decimal b.toNat)

def backendFields (b : BackendSnapshot) : List (Bytes × Bytes) :=
  [(ascii "id", decimal b.id.toNat), (ascii "ip", marshalIp b.ip),
    (ascii "port", decimal b.port.toNat), (ascii "vnode_count", decimalInt b.vnodeCount.toInt),
    (ascii "capacity_max", decimalInt b.capacityMax.toInt), (ascii "health", marshalBool b.health),
    (ascii "stateful", marshalBool b.stateful)]

def fields (s : RingStateSnapshot) : List (Bytes × Bytes) :=
  [(ascii "backends", writeArray (s.backends.map fun b => writeObject (backendFields b))),
    (ascii "updated_at", quote s.updatedAt.text), (ascii "node_id", quote s.nodeID),
    (ascii "version", decimalInt s.version.toInt)]

def marshal (s : RingStateSnapshot) : Bytes := writeObject (fields s)

/-! ### json.Unmarshal -/

def fieldNamed {α : Type} (names : List (Bytes × α)) (key : Bytes) : Option α :=
  match names.find? fun (name, _) => name = key with
  | some (_, field) => some field
  | none => (names.find? fun (name, _) => foldName name = foldName key).map fun (_, field) => field

inductive BackendField where
  | id | ip | port | vnodeCount | capacityMax | health | stateful
  deriving DecidableEq, Repr

def backendFieldNames : List (Bytes × BackendField) :=
  [(ascii "id", .id), (ascii "ip", .ip), (ascii "port", .port), (ascii "vnode_count", .vnodeCount),
    (ascii "capacity_max", .capacityMax), (ascii "health", .health), (ascii "stateful", .stateful)]

def storeOctet (old : UInt8) : Option Value → Option UInt8
  | none => some 0
  | some .null => some old
  | some (.num n) => (parseUint 8 n).map UInt8.ofNat
  | some _ => none

def storeIp (ip : Vector UInt8 4) (items : List Value) : Option (Vector UInt8 4) := do
  -- items past the fourth are skipped
  let a ← storeOctet ip[0] items[0]?
  let b ← storeOctet ip[1] items[1]?
  let c ← storeOctet ip[2] items[2]?
  let d ← storeOctet ip[3] items[3]?
  some #v[a, b, c, d]

/-- `none` is the error of a value of the wrong type or out of range. -/
def storeBackend (b : BackendSnapshot) : BackendField → Value → Option BackendSnapshot
  | _, .null => some b
  | .id, .num n => (parseUint 32 n).map fun v => { b with id := UInt32.ofNat v }
  | .ip, .arr items => (storeIp b.ip items).map fun ip => { b with ip := ip }
  | .port, .num n => (parseUint 16 n).map fun v => { b with port := UInt16.ofNat v }
  | .vnodeCount, .num n => (parseInt 64 n).map fun v => { b with vnodeCount := Int64.ofInt v }
  | .capacityMax, .num n => (parseInt 64 n).map fun v => { b with capacityMax := Int64.ofInt v }
  | .health, .bool v => some { b with health := v }
  | .stateful, .bool v => some { b with stateful := v }
  | _, _ => none

def storeBackendMember (b : BackendSnapshot) (member : Bytes × Value) : Option BackendSnapshot :=
  match fieldNamed backendFieldNames member.1 with
  | some field => storeBackend b field member.2
  | none => some b

def zeroBackend : BackendSnapshot := ⟨0, Vector.replicate 4 0, 0, 0, 0, false, false⟩

def unmarshalBackend : Value → Option BackendSnapshot
  | .null => some zeroBackend
  | .obj members => members.foldlM storeBackendMember zeroBackend
  | _ => none

inductive Field where
  | backends | updatedAt | nodeID | version
  deriving DecidableEq, Repr

def fieldNames : List (Bytes × Field) :=
  [(ascii "backends", .backends), (ascii "updated_at", .updatedAt), (ascii "node_id", .nodeID),
    (ascii "version", .version)]

def store (s : RingStateSnapshot) : Field → Value → Option RingStateSnapshot
  | .backends, .null => some { s with backends := [] }
  | _, .null => some s
  | .backends, .arr items => (items.mapM unmarshalBackend).map fun bs => { s with backends := bs }
  | .updatedAt, .str t =>
    if valid : isTimestamp t = true then some { s with updatedAt := ⟨t, valid⟩ } else none
  | .nodeID, .str t => some { s with nodeID := t }
  | .version, .num n => (parseInt 64 n).map fun v => { s with version := Int64.ofInt v }
  | _, _ => none

def storeMember (s : RingStateSnapshot) (member : Bytes × Value) : Option RingStateSnapshot :=
  match fieldNamed fieldNames member.1 with
  | some field => store s field member.2
  | none => some s

def zeroSnapshot : RingStateSnapshot := ⟨[], zeroTime, [], 0⟩

def unmarshal (data : Bytes) : Option RingStateSnapshot :=
  match Json.parse data with
  | some (.obj members) => members.foldlM storeMember zeroSnapshot
  | some .null => some zeroSnapshot
  | _ => none

end OmegaLb.RingSnapshot
