import OmegaLb.RingSnapshot

/-! A marshalled ring state is read back as it was, but for the invalid UTF-8 of a node id. -/
namespace OmegaLb.RingSnapshot
open GoText (Bytes ascii decimal)
open Json (Value ReadsBack ReadsFields readValue maxNestingDepth readsNat readsEncoded readsObject
  readsArray readsItemsMap encodesQuote encodesBool solidDecimal solidObject
  parseObjectWritten quote writeObject writeArray closeBrace closeBracket)
open RingWal (parseUint decimalInt marshalBool encodesInt parseUintDecimal parseIntDecimalInt)
open Utf8 (coerce coerceValid validAscii)

/-! ### One backend -/

def ipValues (ip : Vector UInt8 4) : List Value := ip.toList.map fun b => .num (decimal b.toNat)

def backendMembers (b : BackendSnapshot) : List (Bytes × Value) :=
  [(ascii "id", .num (decimal b.id.toNat)), (ascii "ip", .arr (ipValues b.ip)),
    (ascii "port", .num (decimal b.port.toNat)),
    (ascii "vnode_count", .num (decimalInt b.vnodeCount.toInt)),
    (ascii "capacity_max", .num (decimalInt b.capacityMax.toInt)), (ascii "health", .bool b.health),
    (ascii "stateful", .bool b.stateful)]

theorem readsIp (ip : Vector UInt8 4) {fuel depth : Nat} (shallow : depth < maxNestingDepth) :
    ReadsBack closeBrace (readValue (fuel + 2) depth) (marshalIp ip) (.arr (ipValues ip)) := by
  apply readsArray shallow
  apply readsItemsMap
  intro b _
  exact ⟨solidDecimal b.toNat, readsNat (.inr rfl) b.toNat fuel (depth + 1)⟩

theorem readsBackendFields (b : BackendSnapshot) {fuel depth : Nat} (shallow : depth < maxNestingDepth) :
    ReadsFields (readValue (fuel + 2) depth) (backendFields b) (backendMembers b) := by
  have name (n : String) (plain : (ascii n).all (fun b => b < 0x80) = true) :
      coerce (ascii n) = ascii n := coerceValid (validAscii plain)
  have nat (n : Nat) := readsNat (.inl rfl) n (fuel + 1) depth
  have int (n : Int) := readsEncoded (encodesInt n) (fuel + 1) depth
  have bool (v : Bool) := readsEncoded (encodesBool v) (fuel + 1) depth
  exact .cons ⟨name "id" rfl, nat _⟩ <| .cons ⟨name "ip" rfl, readsIp b.ip shallow⟩ <|
    .cons ⟨name "port" rfl, nat _⟩ <| .cons ⟨name "vnode_count" rfl, int _⟩ <|
    .cons ⟨name "capacity_max" rfl, int _⟩ <| .cons ⟨name "health" rfl, bool _⟩ <|
    .cons ⟨name "stateful" rfl, bool _⟩ .nil

theorem storeIpValues (old ip : Vector UInt8 4) : storeIp old (ipValues ip) = some ip := by
  have octet (b : UInt8) : parseUint 8 (decimal b.toNat) = some b.toNat := parseUintDecimal b.toNat_lt
  obtain ⟨⟨items⟩, size⟩ := ip
  match items, size with
  | [a, b, c, d], _ => simp [ipValues, storeIp, storeOctet, octet]

theorem unmarshalBackendMembers (b : BackendSnapshot) :
    unmarshalBackend (.obj (backendMembers b)) = some b := by
  have id : parseUint 32 (decimal b.id.toNat) = some b.id.toNat := parseUintDecimal b.id.toNat_lt
  have port : parseUint 16 (decimal b.port.toNat) = some b.port.toNat :=
    parseUintDecimal b.port.toNat_lt
  have vnodes := parseIntDecimalInt b.vnodeCount
  have capacity := parseIntDecimalInt b.capacityMax
  have names : fieldNamed backendFieldNames (ascii "id") = some .id ∧
      fieldNamed backendFieldNames (ascii "ip") = some .ip ∧
      fieldNamed backendFieldNames (ascii "port") = some .port ∧
      fieldNamed backendFieldNames (ascii "vnode_count") = some .vnodeCount ∧
      fieldNamed backendFieldNames (ascii "capacity_max") = some .capacityMax ∧
      fieldNamed backendFieldNames (ascii "health") = some .health ∧
      fieldNamed backendFieldNames (ascii "stateful") = some .stateful := by decide
  obtain ⟨nameId, nameIp, namePort, nameVnodes, nameCapacity, nameHealth, nameStateful⟩ := names
  simp [unmarshalBackend, backendMembers, storeBackendMember, storeBackend, nameId, nameIp, namePort,
    nameVnodes, nameCapacity, nameHealth, nameStateful, id, port, vnodes, capacity, storeIpValues]

/-! ### The whole state -/

def members (s : RingStateSnapshot) : List (Bytes × Value) :=
  [(ascii "backends", .arr (s.backends.map fun b => .obj (backendMembers b))),
    (ascii "updated_at", .str s.updatedAt.text), (ascii "node_id", .str (coerce s.nodeID)),
    (ascii "version", .num (decimalInt s.version.toInt))]

theorem timestampPlain (t : Timestamp) : coerce t.text = t.text := by
  have valid := t.valid
  rw [isTimestamp, Bool.and_eq_true] at valid
  exact coerceValid (validAscii valid.1)

theorem readsBackends (bs : List BackendSnapshot) {fuel depth : Nat}
    (shallow : depth + 2 < maxNestingDepth) :
    ReadsBack closeBrace (readValue (fuel + 4) depth)
      (writeArray (bs.map fun b => writeObject (backendFields b)))
      (.arr (bs.map fun b => .obj (backendMembers b))) := by
  apply readsArray (by omega)
  apply readsItemsMap
  intro b _
  exact ⟨solidObject _, readsObject (by omega) (readsBackendFields b shallow) (List.cons_ne_nil _ _)
    closeBracket⟩

theorem readsFields (s : RingStateSnapshot) {fuel depth : Nat} (shallow : depth + 2 < maxNestingDepth) :
    ReadsFields (readValue (fuel + 4) depth) (fields s) (members s) := by
  have name (n : String) (plain : (ascii n).all (fun b => b < 0x80) = true) :
      coerce (ascii n) = ascii n := coerceValid (validAscii plain)
  have time := readsEncoded (encodesQuote s.updatedAt.text) (fuel + 3) depth
  rw [timestampPlain] at time
  exact .cons ⟨name "backends" rfl, readsBackends s.backends shallow⟩ <|
    .cons ⟨name "updated_at" rfl, time⟩ <|
    .cons ⟨name "node_id" rfl, readsEncoded (encodesQuote s.nodeID) (fuel + 3) depth⟩ <|
    .cons ⟨name "version" rfl, readsEncoded (encodesInt s.version.toInt) (fuel + 3) depth⟩ .nil

theorem unmarshalMembers (bs : List BackendSnapshot) :
    (bs.map fun b => Value.obj (backendMembers b)).mapM unmarshalBackend = some bs := by
  induction bs with
  | nil => rfl
  | cons b bs ih => simp [List.mapM_cons, unmarshalBackendMembers, ih]

theorem storeMembers (s : RingStateSnapshot) :
    (members s).foldlM storeMember zeroSnapshot = some { s with nodeID := coerce s.nodeID } := by
  have names : fieldNamed fieldNames (ascii "backends") = some .backends ∧
      fieldNamed fieldNames (ascii "updated_at") = some .updatedAt ∧
      fieldNamed fieldNames (ascii "node_id") = some .nodeID ∧
      fieldNamed fieldNames (ascii "version") = some .version := by decide
  obtain ⟨nameBackends, nameTime, nameNode, nameVersion⟩ := names
  have version := parseIntDecimalInt s.version
  simp [-List.mapM_map, members, storeMember, store, nameBackends, nameTime, nameNode, nameVersion, unmarshalMembers,
    s.updatedAt.valid, version]

theorem unmarshalMarshal (s : RingStateSnapshot) :
    unmarshal (marshal s) = some { s with nodeID := coerce s.nodeID } := by
  have parsed : Json.parse ([] ++ writeObject (fields s)) = some (.obj (members s)) := by
    apply parseObjectWritten (by simp) _ (List.cons_ne_nil _ _)
    intro fuel enough
    obtain ⟨extra, rfl⟩ := Nat.exists_eq_add_of_le' (show 4 ≤ fuel from enough)
    exact readsFields s (by decide)
  rw [List.nil_append] at parsed
  rw [unmarshal, marshal, parsed]
  exact storeMembers s

end OmegaLb.RingSnapshot
