import OmegaLb.JsonRoundTrip
import OmegaLb.LineScan

/-! controlplane/internal/ring/wal.go. The log file is its bytes and the offset that
reads and writes share; opens, seeks and reads succeed, and a call that writes is given
what the disk lets it write. The mutex makes every method one step. -/
namespace OmegaLb.RingWal
open GoText (Bytes ascii decimal isDigit digitsValue)
open Json (Value quote writeObject)
open LineScan (newline scan)

structure WALEntry where
  seq : UInt64
  op : Bytes
  backendID : UInt32
  vnodes : Int64
  committed : Bool
  deriving DecidableEq, Repr

/-! ### json.Marshal -/

def decimalInt : Int → Bytes
  | .ofNat n => decimal n
  | .negSucc n => Json.minus :: decimal (n + 1)

def marshalBool (b : Bool) : Bytes := if b then ascii "true" else ascii "false"

def fields (e : WALEntry) : List (Bytes × Bytes) :=
  [(ascii "seq", decimal e.seq.toNat), (ascii "op", quote e.op),
    (ascii "id", decimal e.backendID.toNat)] ++
  (if e.vnodes = 0 then [] else [(ascii "vnodes", decimalInt e.vnodes.toInt)]) ++
  [(ascii "committed", marshalBool e.committed)]

def marshal (e : WALEntry) : Bytes := writeObject (fields e)

/-! ### json.Unmarshal -/

inductive Field where
  | seq | op | id | vnodes | committed
  deriving DecidableEq, Repr

def fieldNames : List (Bytes × Field) :=
  [(ascii "seq", .seq), (ascii "op", .op), (ascii "id", .id), (ascii "vnodes", .vnodes),
    (ascii "committed", .committed)]

def foldName : Bytes → Bytes
  | [] => []
  | 0xC5 :: 0xBF :: s => 83 :: foldName s
  | 0xE2 :: 0x84 :: 0xAA :: s => 75 :: foldName s
  | b :: s => (if 97 ≤ b ∧ b ≤ 122 then b - 32 else b) :: foldName s

def fieldOf (key : Bytes) : Option Field :=
  match fieldNames.find? fun (name, _) => name = key with
  | some (_, field) => some field
  | none =>
    (fieldNames.find? fun (name, _) => foldName name = foldName key).map fun (_, field) => field

def parseUint (bits : Nat) (s : Bytes) : Option Nat :=
  if s ≠ [] ∧ s.all isDigit ∧ digitsValue s < 2 ^ bits then some (digitsValue s) else none

def parseInt (bits : Nat) (s : Bytes) : Option Int :=
  -- a JSON number has no plus sign
  match s with
  | Json.minus :: ds =>
    if ds ≠ [] ∧ ds.all isDigit ∧ digitsValue ds ≤ 2 ^ (bits - 1) then some (-digitsValue ds) else none
  | ds =>
    if ds ≠ [] ∧ ds.all isDigit ∧ digitsValue ds < 2 ^ (bits - 1) then some (digitsValue ds) else none

/-- `none` is the error of a value of the wrong type or out of range. -/
def store (e : WALEntry) : Field → Value → Option WALEntry
  | _, .null => some e
  | .seq, .num n => (parseUint 64 n).map fun v => { e with seq := UInt64.ofNat v }
  | .op, .str s => some { e with op := s }
  | .id, .num n => (parseUint 32 n).map fun v => { e with backendID := UInt32.ofNat v }
  | .vnodes, .num n => (parseInt 64 n).map fun v => { e with vnodes := Int64.ofInt v }
  | .committed, .bool b => some { e with committed := b }
  | _, _ => none

def storeMember (e : WALEntry) (member : Bytes × Value) : Option WALEntry :=
  match fieldOf member.1 with
  | some field => store e field member.2
  | none => some e

def zeroEntry : WALEntry := ⟨0, [], 0, 0, false⟩

def unmarshal (line : Bytes) : Option WALEntry :=
  match Json.parse line with
  | some (.obj members) => members.foldlM storeMember zeroEntry
  | some .null => some zeroEntry
  | _ => none

/-! ### The file -/

structure File where
  content : Bytes
  offset : Nat
  deriving DecidableEq, Repr

def File.write (f : File) (bytes : Bytes) : File :=
  -- a write past the end leaves zeros
  if bytes = [] then f
  else ⟨f.content.take f.offset ++ List.replicate (f.offset - f.content.length) 0 ++ bytes ++
    f.content.drop (f.offset + bytes.length), f.offset + bytes.length⟩

def File.truncate (f : File) : File := { f with content := [] }

def File.seekStart (f : File) : File := { f with offset := 0 }

inductive Error where
  | io
  | tooLong
  | wrap (text : String) (cause : Error)
  deriving DecidableEq, Repr

def printed (cut : Option Nat) (bytes : Bytes) : Bytes :=
  match cut with
  | none => bytes
  | some n => bytes.take n

def line (e : WALEntry) : Bytes := marshal e ++ [newline]

def maxScanTokenSize : Nat := 65536

def entriesOf (tokens : List Bytes) : List WALEntry :=
  (tokens.filter fun token => token ≠ []).filterMap unmarshal

def readAll (f : File) : File × List WALEntry × Option Error :=
  let found := scan maxScanTokenSize f.content
  ({ f with offset := found.offset }, entriesOf found.tokens,
    if found.tooLong then some .tooLong else none)

/-- How the system calls of one rewrite go; `cut` is asked for each line in turn. -/
structure RewriteIo where
  truncate : Bool
  cut : Nat → Option Nat
  sync : Bool

def RewriteIo.clean : RewriteIo := ⟨true, fun _ => none, true⟩

def printLines (cut : Nat → Option Nat) (f : File) : List WALEntry → File
  | [] => f
  | e :: entries => printLines (fun n => cut (n + 1)) (f.write (printed (cut 0) (line e))) entries

def rewrite (f : File) (entries : List WALEntry) (io : RewriteIo) : File × Option Error :=
  if io.truncate then
    -- the errors of Fprintf are dropped here
    (printLines io.cut f.truncate.seekStart entries, if io.sync then none else some .io)
  else (f, some (.wrap "WAL truncate" .io))

/-! ### The log -/

structure RingWAL where
  f : File
  seq : UInt64
  deriving DecidableEq, Repr

def highestSeq (entries : List WALEntry) : UInt64 :=
  entries.foldl (fun seq e => if e.seq > seq then e.seq else seq) 0

def newRingWAL (content : Bytes) : RingWAL :=
  -- the error of this read is dropped
  let (f, entries, _) := readAll ⟨content, 0⟩
  ⟨f, highestSeq entries⟩

def RingWAL.nextEntry (w : RingWAL) (op : Bytes) (backendID : UInt32) (vnodes : Int64) : WALEntry :=
  ⟨w.seq + 1, op, backendID, vnodes, false⟩

def RingWAL.write (w : RingWAL) (op : Bytes) (backendID : UInt32) (vnodes : Int64)
    (cut : Option Nat) (sync : Bool) : RingWAL × Except Error UInt64 :=
  let entry := w.nextEntry op backendID vnodes
  let next : RingWAL := ⟨w.f.write (printed cut (line entry)), entry.seq⟩
  if cut.isSome then (next, .error (.wrap "WAL write" .io))
  else if sync then (next, .ok entry.seq)
  else (next, .error (.wrap "WAL fsync" .io))

def mark (seq : UInt64) (e : WALEntry) : WALEntry :=
  if e.seq = seq then { e with committed := true } else e

def RingWAL.commit (w : RingWAL) (seq : UInt64) (io : RewriteIo) : RingWAL × Option Error :=
  match readAll w.f with
  | (f, _, some err) => (⟨f, w.seq⟩, some (.wrap "WAL read for commit" err))
  | (f, entries, none) =>
    let (f, err) := rewrite f (entries.map (mark seq)) io
    (⟨f, w.seq⟩, err)

def pending (entries : List WALEntry) : List WALEntry := entries.filter fun e => !e.committed

def RingWAL.replay (w : RingWAL) : RingWAL × Except Error (List WALEntry) :=
  match readAll w.f with
  | (f, _, some err) => (⟨f, w.seq⟩, .error err)
  | (f, entries, none) => (⟨f, w.seq⟩, .ok (pending entries))

def RingWAL.checkpoint (w : RingWAL) (io : RewriteIo) : RingWAL × Option Error :=
  match readAll w.f with
  | (f, _, some err) => (⟨f, w.seq⟩, some err)
  | (f, entries, none) =>
    let (f, err) := rewrite f (pending entries) io
    (⟨f, w.seq⟩, err)

def RingWAL.reopen (w : RingWAL) : RingWAL := newRingWAL w.f.content

/-! ### Calls -/

inductive Call where
  | write (op : Bytes) (backendID : UInt32) (vnodes : Int64) (cut : Option Nat) (sync : Bool)
  | commit (seq : UInt64) (io : RewriteIo)
  | checkpoint (io : RewriteIo)
  | replay
  | reopen

inductive Outcome where
  | wrote (result : Except Error UInt64)
  | done (err : Option Error)
  | replayed (result : Except Error (List WALEntry))
  | opened

def RingWAL.call (w : RingWAL) : Call → RingWAL × Outcome
  | .write op backendID vnodes cut sync =>
    let (w, result) := w.write op backendID vnodes cut sync
    (w, .wrote result)
  | .commit seq io =>
    let (w, err) := w.commit seq io
    (w, .done err)
  | .checkpoint io =>
    let (w, err) := w.checkpoint io
    (w, .done err)
  | .replay =>
    let (w, result) := w.replay
    (w, .replayed result)
  | .reopen => (w.reopen, .opened)

end OmegaLb.RingWal
