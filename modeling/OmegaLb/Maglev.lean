import OmegaLb.RingManager

/-! The Maglev table of maglev.go. A vnodeCounts map is the function that reads it,
0 for a missing key. The two unbounded loops carry fuel, one unit a pass: `none`
is a loop that has not ended within it. `Fill.writes` records the assignments to
the table, newest first; the source keeps no such list. -/
namespace OmegaLb.Maglev
open RingManager
open GoText (Bytes)
open RingHash (rotl)

abbrev maglevM : Nat := 65537

abbrev MaglevTable := Vector UInt32 maglevM

/-- Every slot is one of the table. -/
instance : GetElem MaglevTable (Fin maglevM) UInt32 fun _ _ => True where
  getElem table slot _ := table.get slot

abbrev MaglevTable.set (table : MaglevTable) (slot : Fin maglevM) (id : UInt32) : MaglevTable :=
  Vector.set table slot id slot.isLt

def emptyTable : MaglevTable := Vector.replicate maglevM 0

theorem setGet (table : MaglevTable) (slot j : Fin maglevM) (id : UInt32) :
    (table.set slot id)[j] = if slot = j then id else table[j] :=
  (Vector.getElem_set slot.isLt j.isLt).trans (if_congr Fin.val_inj rfl rfl)

theorem filledGet (id : UInt32) (slot : Fin maglevM) : (Vector.replicate maglevM id : MaglevTable)[slot] = id :=
  Vector.getElem_replicate slot.isLt

def putUint32 (x : UInt32) : Bytes :=
  [x.toUInt8, (x >>> 8).toUInt8, (x >>> 16).toUInt8, (x >>> 24).toUInt8]

def maglevHash (id seed : UInt32) : UInt32 :=
  let h := rotl (id ^^^ seed) 5 ^^^ seed
  (putUint32 h ++ putUint32 seed).foldl (fun h b => (h ^^^ b.toUInt32) * 16777619) 2166136261

structure PermState where
  id : UInt32
  offset : UInt32
  skip : UInt32
  next : UInt32
  quota : Int
  deriving DecidableEq, Repr

/-! ### Shares -/

def totalWeight (backends : List UInt32) (vnodeCounts : UInt32 → Int) : Int :=
  backends.foldl (fun total id => wrapInt (total + vnodeCounts id)) 0

def weights (backends : List UInt32) (vnodeCounts : UInt32 → Int) : (UInt32 → Int) × Int :=
  if totalWeight backends vnodeCounts = 0 then
    (fun id => if id ∈ backends then 1 else vnodeCounts id, backends.length)
  else (vnodeCounts, totalWeight backends vnodeCounts)

def scaledQuota (total count : Int) : Int :=
  wrapInt ((wrapInt (count * maglevM)).tdiv total)

def remainder (scaled : List Int) : Int :=
  scaled.foldl (fun rem quota => wrapInt (rem - quota)) maglevM

def distribute : Nat → Nat → List Int → List Int
  | 0, _, quotas => quotas
  | rem + 1, i, quotas =>
    distribute rem ((i + 1) % quotas.length) (quotas.modify i fun quota => wrapInt (quota + 1))

def scaledQuotas (backends : List UInt32) (vnodeCounts : UInt32 → Int) : List Int :=
  let (counts, total) := weights backends vnodeCounts
  backends.map fun id => scaledQuota total (counts id)

def quotas (backends : List UInt32) (vnodeCounts : UInt32 → Int) : List Int :=
  let scaled := scaledQuotas backends vnodeCounts
  distribute (remainder scaled).toNat 0 scaled

def permState (id : UInt32) (quota : Int) : PermState where
  id := id
  offset := maglevHash id 0xDEAD % 65537
  skip := maglevHash id 0xBEEF % 65536 + 1
  next := 0
  quota := quota

def startPerms (backends : List UInt32) (vnodeCounts : UInt32 → Int) : List PermState :=
  List.zipWith permState backends (quotas backends vnodeCounts)

/-! ### The fill -/

structure Fill where
  table : MaglevTable
  filled : Nat
  writes : List (Fin maglevM × UInt32)

def emptyFill : Fill := ⟨emptyTable, 0, []⟩

def PermState.slot (p : PermState) : Fin maglevM :=
  ⟨(p.offset + p.next * p.skip).toNat % maglevM, Nat.mod_lt _ (by decide)⟩

def PermState.advance (p : PermState) : PermState := { p with next := p.next + 1 }

def search (table : MaglevTable) : Nat → PermState → Option (Fin maglevM × PermState)
  | 0, _ => none
  | fuel + 1, p =>
    if table[p.slot] = 0 then some (p.slot, p.advance) else search table fuel p.advance

def Fill.write (f : Fill) (slot : Fin maglevM) (id : UInt32) : Fill where
  table := f.table.set slot id
  filled := f.filled + 1
  writes := (slot, id) :: f.writes

def turn (fuel : Nat) (f : Fill) (p : PermState) : Option (Fill × PermState) :=
  if p.quota ≤ 0 then some (f, p)
  else do
    let (slot, p) ← search f.table fuel p
    some (f.write slot p.id, { p with quota := p.quota - 1 })

def fillRound (fuel : Nat) : Fill → List PermState → Option (Fill × List PermState)
  | f, [] => some (f, [])
  | f, p :: ps => do
    let (f, p) ← turn fuel f p
    let (f, ps) ← fillRound fuel f ps
    some (f, p :: ps)

def fillLoop (searchFuel : Nat) : Nat → Fill → List PermState → Option Fill
  | 0, _, _ => none
  | fuel + 1, f, ps =>
    if f.filled < maglevM then do
      let (f, ps) ← fillRound searchFuel f ps
      fillLoop searchFuel fuel f ps
    else some f

def maglevFill (fuel : Nat) (backends : List UInt32) (vnodeCounts : UInt32 → Int) : Option Fill :=
  if backends.length = 0 then some emptyFill
  else fillLoop fuel fuel emptyFill (startPerms backends vnodeCounts)

def buildMaglevTable (fuel : Nat) (backends : List UInt32) (vnodeCounts : UInt32 → Int) :
    Option MaglevTable :=
  (maglevFill fuel backends vnodeCounts).map Fill.table

def Returns (backends : List UInt32) (vnodeCounts : UInt32 → Int) (table : MaglevTable) : Prop :=
  ∃ fuel, buildMaglevTable fuel backends vnodeCounts = some table

/-! ### The manager's rebuild -/

variable {F : Type}

def maglevBackends (rt : Runtime) (m : Manager F) : List UInt32 :=
  (rt.keyOrder m.backends.keys).filter fun id => (m.backends.lookup id).any Backend.health

def maglevCounts (m : Manager F) (id : UInt32) : Int :=
  match m.backends.lookup id with
  | some b => if b.health then b.vnodeCount else 0
  | none => 0

def rebuildMaglevTable (fuel : Nat) (rt : Runtime) (m : Manager F) : Option MaglevTable :=
  buildMaglevTable fuel (maglevBackends rt m) (maglevCounts m)

def lookup (table : MaglevTable) (key : UInt32) : UInt32 :=
  table.get ⟨key.toNat % maglevM, Nat.mod_lt _ (by decide)⟩

end OmegaLb.Maglev
