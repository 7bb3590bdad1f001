import OmegaLb.GoRuntime
import OmegaLb.KernelMaps
import OmegaLb.StructLayout

/-! struct event_sample as the kernel writes it to the ring buffer, and parseEventSample of
collector.go, which decodes it at offsets of its own. -/
namespace OmegaLb.EventFormat
open KernelMaps (EventSample)
open StructLayout (Member le readLe encode encodeRead)

/-! ### time.Time -/

structure Time where
  sec : Int
  nsec : Int
  within : 0 ≤ nsec ∧ nsec < 1000000000

def Time.unixNano (t : Time) : Int64 := Int64.ofInt t.sec * 1000000000 + Int64.ofInt t.nsec

/-- time.Unix: Go's division truncates, so a negative remainder borrows a second. -/
def unix (sec nsec : Int) : Time :=
  let n := nsec.tdiv 1000000000
  let r := nsec - n * 1000000000
  have rest : r = nsec.tmod 1000000000 := by
    have whole := Int.tmod_add_mul_tdiv nsec 1000000000
    omega
  have low := Int.lt_tmod_of_pos nsec (b := 1000000000) (by decide)
  have high := Int.tmod_lt_of_pos nsec (b := 1000000000) (by decide)
  if below : r < 0 then ⟨sec + n - 1, r + 1000000000, by omega⟩ else ⟨sec + n, r, by omega⟩

theorem unixNanoUnix (sec nsec : Int) :
    (unix sec nsec).unixNano = Int64.ofInt (sec * 1000000000 + nsec) := by
  have whole : (unix sec nsec).sec * 1000000000 + (unix sec nsec).nsec = sec * 1000000000 + nsec := by
    unfold unix
    dsimp only
    split <;> dsimp only <;> ring
  rw [← whole, Int64.ofInt_add, Int64.ofInt_mul]
  rfl

/-! ### Writing and parsing -/

structure Sample where
  instanceID : UInt32
  latencyNs : UInt64
  error : Bool
  circuitState : UInt32
  vnodesAtSelect : UInt32
  probeIdx : UInt8
  reason : UInt8
  timestamp : Time

def eventSampleSize : Nat := 40

def member8 (x : UInt8) : Member := ⟨1, x.toNat, x.toNat_lt⟩
def member16 (x : UInt16) : Member := ⟨2, x.toNat, x.toNat_lt⟩
def member32 (x : UInt32) : Member := ⟨4, x.toNat, x.toNat_lt⟩
def member64 (x : UInt64) : Member := ⟨8, x.toNat, x.toNat_lt⟩

def eventMembers (v : EventSample) : List Member :=
  [member32 v.instanceId, member64 v.latencyNs, member32 v.error, member32 v.circuitState,
    member32 v.vnodesAtSelect, member8 v.probeIdx, member8 v.reason, member16 v.pad,
    member64 v.timestampNs]

/-- le.Uint32 or le.Uint64 of `raw[low:high]` -/
def leUint (width : Nat) (raw : List UInt8) (low high : Nat) : Go Nat := do
  let b ← goSlice raw low high
  if width ≤ b.length then .ok (readLe (b.take width)) else .error .indexOutOfRange

def parseEventSample (raw : List UInt8) : Go (Option Sample) := do
  if raw.length < eventSampleSize then return none
  let instanceID ← leUint 4 raw 0 4
  let latencyNs ← leUint 8 raw 8 16
  let error ← leUint 4 raw 16 20
  let circuitState ← leUint 4 raw 20 24
  let vnodesAtSelect ← leUint 4 raw 24 28
  let probeIdx ← goIndex raw 28
  let reason ← goIndex raw 29
  let timestamp ← leUint 8 raw 32 40
  return some {
    instanceID := UInt32.ofNat instanceID
    latencyNs := UInt64.ofNat latencyNs
    error := UInt32.ofNat error ≠ 0
    circuitState := UInt32.ofNat circuitState
    vnodesAtSelect := UInt32.ofNat vnodesAtSelect
    probeIdx := probeIdx
    reason := reason
    timestamp := unix 0 (UInt64.ofNat timestamp).toInt64.toInt }

def eventWidths : List Nat := [4, 8, 4, 4, 4, 1, 1, 2, 8]

theorem eventLength (v : EventSample) (filler : Nat → UInt8) :
    (encode filler (eventMembers v)).length = eventSampleSize := by
  have sized : StructLayout.size eventWidths = eventSampleSize := by decide
  exact (StructLayout.encodeLength filler (eventMembers v)).trans sized

section
variable (v : EventSample) (filler : Nat → UInt8) (trailing : List UInt8) {i : Nat} {m : Member}
  (at_ : (eventMembers v)[i]? = some m) {low high : Nat}
  (starts : StructLayout.offsetOf 0 eventWidths i = low) (inside : high ≤ eventSampleSize)
include at_ starts inside

/-- Between the compiler's offsets of a member, a record holds the member. -/
theorem memberSlice (ends : low + m.width = high) :
    goSlice (encode filler (eventMembers v) ++ trailing) low high = .ok (le m.width m.value) := by
  have read := encodeRead filler at_ trailing
  have length := eventLength v filler
  change ((_ : List UInt8).take (StructLayout.offsetOf 0 eventWidths i + m.width)).drop
    (StructLayout.offsetOf 0 eventWidths i) = _ at read
  rw [starts, ends] at read
  rw [goSlice, if_pos (by rw [List.length_append]; omega), read]

theorem memberUint {width value : Nat} (wide : m.width = width) (holds : m.value = value)
    (ends : low + width = high) :
    leUint width (encode filler (eventMembers v) ++ trailing) low high = .ok value := by
  subst wide holds
  have length := StructLayout.leLength m.width m.value
  rw [leUint, memberSlice v filler trailing at_ starts inside ends]
  change (if m.width ≤ (le m.width m.value).length then _ else _) = _
  rw [if_pos length.ge, List.take_of_length_le length.le, StructLayout.readLeWritten m.bounded]

end

theorem indexSlice {xs : List UInt8} {i : Nat} {x : UInt8} (slice : goSlice xs i (i + 1) = .ok [x]) :
    goIndex xs i = .ok x := by
  unfold goSlice at slice
  split at slice
  case isFalse => cases slice
  case isTrue inside =>
    have head := congrArg (·[0]?) (Except.ok.inj slice)
    have at_ : xs[i]? = some x := by simpa using head
    simp [goIndex, at_]

theorem memberByte (v : EventSample) (filler : Nat → UInt8) (trailing : List UInt8) {i low : Nat} {x : UInt8}
    (at_ : (eventMembers v)[i]? = some (member8 x)) (starts : StructLayout.offsetOf 0 eventWidths i = low)
    (inside : low + 1 ≤ eventSampleSize) :
    goIndex (encode filler (eventMembers v) ++ trailing) low = .ok x := by
  have byte : le (member8 x).width (member8 x).value = [x] := by simp [member8, le]
  exact indexSlice (byte ▸ memberSlice v filler trailing at_ starts inside rfl)

theorem shortRejected {raw : List UInt8} (short : raw.length < eventSampleSize) :
    parseEventSample raw = .ok none := by
  unfold parseEventSample
  rw [if_pos short]
  rfl

def decoded (v : EventSample) : Sample where
  instanceID := v.instanceId
  latencyNs := v.latencyNs
  error := v.error ≠ 0
  circuitState := v.circuitState
  vnodesAtSelect := v.vnodesAtSelect
  probeIdx := v.probeIdx
  reason := v.reason
  timestamp := unix 0 v.timestampNs.toInt64.toInt

theorem emittedDecoded (v : EventSample) (filler : Nat → UInt8) (trailing : List UInt8) :
    parseEventSample (encode filler (eventMembers v) ++ trailing) = .ok (some (decoded v)) := by
  have long : ¬ (encode filler (eventMembers v) ++ trailing).length < eventSampleSize := by
    rw [List.length_append, eventLength]
    omega
  let raw := encode filler (eventMembers v) ++ trailing
  have uint := @memberUint v filler trailing
  have byte := @memberByte v filler trailing
  have instanceID : leUint 4 raw 0 4 = .ok v.instanceId.toNat :=
    uint (i := 0) rfl (by decide) (by decide) rfl rfl rfl
  have latencyNs : leUint 8 raw 8 16 = .ok v.latencyNs.toNat :=
    uint (i := 1) rfl (by decide) (by decide) rfl rfl rfl
  have error : leUint 4 raw 16 20 = .ok v.error.toNat :=
    uint (i := 2) rfl (by decide) (by decide) rfl rfl rfl
  have circuitState : leUint 4 raw 20 24 = .ok v.circuitState.toNat :=
    uint (i := 3) rfl (by decide) (by decide) rfl rfl rfl
  have vnodesAtSelect : leUint 4 raw 24 28 = .ok v.vnodesAtSelect.toNat :=
    uint (i := 4) rfl (by decide) (by decide) rfl rfl rfl
  have probeIdx : goIndex raw 28 = .ok v.probeIdx := byte (i := 5) rfl (by decide) (by decide)
  have reason : goIndex raw 29 = .ok v.reason := byte (i := 6) rfl (by decide) (by decide)
  have timestamp : leUint 8 raw 32 40 = .ok v.timestampNs.toNat :=
    uint (i := 8) rfl (by decide) (by decide) rfl rfl rfl
  unfold parseEventSample
  rw [if_neg long, instanceID, latencyNs, error, circuitState, vnodesAtSelect, probeIdx, reason, timestamp]
  simp [bind, Except.bind, pure, Except.pure, decoded]

theorem uintInside {raw : List UInt8} {width low high : Nat} (ends : low + width = high)
    (inside : high ≤ raw.length) : ∃ n, leUint width raw low high = .ok n := by
  have length : width ≤ ((raw.take high).drop low).length := by
    rw [List.length_drop, List.length_take_of_le inside]
    omega
  rw [leUint, goSlice, if_pos ⟨by omega, inside⟩]
  exact ⟨_, if_pos length⟩

theorem byteInside {raw : List UInt8} {i : Nat} (inside : i < raw.length) :
    goIndex raw i = .ok raw[i] := by
  simp [goIndex, inside]

theorem longDecoded {raw : List UInt8} (long : ¬ raw.length < eventSampleSize) :
    ∃ s, parseEventSample raw = .ok (some s) := by
  have length : 40 ≤ raw.length := Nat.not_lt.mp long
  have uint (width low high : Nat) (ends : low + width = high) (inside : high ≤ 40) :=
    uintInside ends (inside.trans length)
  obtain ⟨instanceID, at0⟩ := uint 4 0 4 rfl (by decide)
  obtain ⟨latencyNs, at8⟩ := uint 8 8 16 rfl (by decide)
  obtain ⟨error, at16⟩ := uint 4 16 20 rfl (by decide)
  obtain ⟨circuitState, at20⟩ := uint 4 20 24 rfl (by decide)
  obtain ⟨vnodes, at24⟩ := uint 4 24 28 rfl (by decide)
  have at28 : goIndex raw 28 = .ok raw[28] := byteInside (i := 28) (by omega)
  have at29 : goIndex raw 29 = .ok raw[29] := byteInside (i := 29) (by omega)
  obtain ⟨timestamp, at32⟩ := uint 8 32 40 rfl (by decide)
  unfold parseEventSample
  rw [if_neg long, at0, at8, at16, at20, at24, at28, at29, at32]
  exact ⟨_, rfl⟩

theorem formatAgreed :
    (∀ (v : EventSample) (filler : Nat → UInt8) (trailing : List UInt8), ∃ s,
      parseEventSample (encode filler (eventMembers v) ++ trailing) = .ok (some s) ∧
        s.instanceID = v.instanceId ∧ s.latencyNs = v.latencyNs ∧ (s.error ↔ v.error ≠ 0) ∧
        s.circuitState = v.circuitState ∧ s.vnodesAtSelect = v.vnodesAtSelect ∧
        s.probeIdx = v.probeIdx ∧ s.reason = v.reason ∧ s.timestamp.unixNano = v.timestampNs.toInt64) ∧
    (∀ (v : EventSample) (filler : Nat → UInt8), (encode filler (eventMembers v)).length = 40) ∧
    ∀ raw : List UInt8, parseEventSample raw = .ok none ↔ raw.length < 40 := by
  refine ⟨fun v filler trailing => ?_, eventLength, fun raw => ⟨fun rejected => ?_, shortRejected⟩⟩
  · have instant : (decoded v).timestamp.unixNano = v.timestampNs.toInt64 := by
      rw [decoded, unixNanoUnix]
      simp
    exact ⟨decoded v, emittedDecoded v filler trailing, rfl, rfl, by simp [decoded], rfl, rfl, rfl, rfl, instant⟩
  · by_contra long
    obtain ⟨s, accepted⟩ := longDecoded long
    rw [accepted] at rejected
    cases rejected

end OmegaLb.EventFormat
