import OmegaLb.RelayChain

/-! A run of metrics_collector taken at once against the same run step by step: undisturbed,
the steps of the circuit breaker's world lead to the maps the program leaves. -/
namespace OmegaLb.CollectorSteps
open KernelMaps RelayChain
open CircuitBreaker (Circuit World circuitTripThreshold)
open StepRun (Run Does)

def circuitOf (state : UInt32) : Circuit :=
  if state = circuitOpen then .opened else if state = circuitHalfOpen then .halfOpen else .closed

def errorsOf (slots : Nat → InstanceStats) (cpu : Nat) : UInt32 := (slots cpu).consecutiveErrors

structure Mirrors (k : Kernel) (w : World) : Prop where
  circuits : ∀ id, w.circuits.lookup id = (k.circuitState.lookup id).map circuitOf
  errors : ∀ id, w.consecutiveErrors.lookup id = (k.instanceStats.lookup id).map errorsOf

section
variable {U V : Type} {m : GoMap UInt32 U} {n : GoMap UInt32 V} {f : U → V}

theorem lookupMapInsert (same : ∀ id, n.lookup id = (m.lookup id).map f) (key : UInt32) (u : U)
    (id : UInt32) : (n.insert key (f u)).lookup id = ((m.insert key u).lookup id).map f := by
  by_cases own : id = key
  · subst own
    rw [AList.lookup_insert, AList.lookup_insert]
    rfl
  · rw [AList.lookup_insert_ne own, AList.lookup_insert_ne own, same]

theorem fitsMap (same : ∀ id, n.lookup id = (m.lookup id).map f) (key : UInt32) :
    Fits n key ↔ Fits m key := by
  have members : ∀ id, id ∈ n ↔ id ∈ m := by
    intro id
    rw [← AList.lookup_isSome, ← AList.lookup_isSome, same, Option.isSome_map]
  have keys : n.keys.Perm m.keys := (List.perm_ext_iff_of_nodup n.keys_nodup m.keys_nodup).mpr members
  have size : n.entries.length = m.entries.length := by
    have lengths := keys.length_eq
    rwa [AList.keys, AList.keys, List.keys, List.keys, List.length_map, List.length_map] at lengths
  unfold Fits
  rw [members, size]

theorem lookupMapUpdate (same : ∀ id, n.lookup id = (m.lookup id).map f) (key : UInt32) (u : U)
    (id : UInt32) : (updateElem n key (f u)).lookup id = ((updateElem m key u).lookup id).map f := by
  unfold updateElem
  simp only [fitsMap same]
  split
  · exact lookupMapInsert same key u id
  · exact same id

end

def Known (k : Kernel) (id : UInt32) : Prop := ∀ state, k.circuitState.lookup id = some state →
  state = circuitClosed ∨ state = circuitOpen ∨ state = circuitHalfOpen

theorem closedMirrored {k : Kernel} {w : World} {id : UInt32} (mirrors : Mirrors k w)
    (known : Known k id) :
    w.circuits.lookup id = some .closed ↔ k.circuitState.lookup id = some circuitClosed := by
  rw [mirrors.circuits]
  cases found : k.circuitState.lookup id with
  | none => exact iff_of_false nofun nofun
  | some state =>
    rcases known state found with rfl | rfl | rfl <;> decide

theorem errorsUpdate (slots : Nat → InstanceStats) (cpu : Nat) (s : InstanceStats) :
    errorsOf (Function.update slots cpu s) =
      CircuitBreaker.setSlot (errorsOf slots) cpu s.consecutiveErrors := by
  funext other
  unfold errorsOf CircuitBreaker.setSlot
  by_cases own : other = cpu
  · subst own
    rw [Function.update_self, if_pos rfl]
  · rw [Function.update_of_ne own, if_neg own]

theorem accountNew {k : Kernel} {id : UInt32} (cpu : Nat) (o : Reading)
    (missing : k.instanceStats.lookup id = none) :
    (account k cpu id o).instanceStats = updateElem k.instanceStats id
        (Function.update (fun _ => {}) cpu { totalRequests := 1, lastReqTsNs := o.now }) ∧
      (account k cpu id o).circuitState = k.circuitState := by
  unfold account
  rw [missing]
  dsimp only
  rw [(emitKeeps ..).1, (emitKeeps ..).2.2]
  exact ⟨rfl, rfl⟩

theorem accountOld {k : Kernel} {id : UInt32} (cpu : Nat) (o : Reading) {slots : Nat → InstanceStats}
    (found : k.instanceStats.lookup id = some slots) :
    (account k cpu id o).instanceStats = k.instanceStats.insert id
        (Function.update slots cpu (judged (sampled (slots cpu) o.now) o.isError)) ∧
      (account k cpu id o).circuitState = writeCircuit k.circuitState id
        (judged (sampled (slots cpu) o.now) o.isError) o.isError := by
  unfold account
  rw [found]
  dsimp only
  rw [(emitKeeps ..).1, (emitKeeps ..).2.2]
  exact ⟨rfl, rfl⟩

variable {k : Kernel} {w : World} {cpu : Nat} {id : UInt32}

def Reaches (w : World) (next : Kernel) : Prop :=
  ∃ es v, Run (Does CircuitBreaker.exec) w es v ∧ Mirrors next v ∧ v.completions = []

theorem newSteps (o : Reading) (mirrors : Mirrors k w) (idle : w.completions = []) (nonzero : id ≠ 0)
    (missing : k.instanceStats.lookup id = none) :
    Reaches w (account k cpu id o) := by
  obtain ⟨stats, circuits⟩ := accountNew cpu o missing
  have unknown : w.consecutiveErrors.lookup id = none := by
    rw [mirrors.errors, missing]
    rfl
  have created : w.complete cpu id o.isError =
      { w with consecutiveErrors := updateElem w.consecutiveErrors id fun _ => 0 } := by
    simp only [World.complete, if_neg nonzero, unknown]
  have zeros : errorsOf (Function.update (fun _ => {}) cpu
      { totalRequests := 1, lastReqTsNs := o.now }) = fun _ => 0 := by
    rw [errorsUpdate]
    funext other
    unfold CircuitBreaker.setSlot
    split <;> rfl
  refine ⟨[.complete cpu id o.isError], _, .cons (congrArg some created) (.nil _), ⟨?_, ?_⟩, idle⟩
  · rw [circuits]
    exact mirrors.circuits
  · rw [stats, ← zeros]
    exact lookupMapUpdate mirrors.errors id _

def noted (w : World) (cpu : Nat) (id : UInt32) (slots : Nat → InstanceStats) (n : UInt32) : World :=
  { w with
    consecutiveErrors :=
      w.consecutiveErrors.insert id (CircuitBreaker.setSlot (errorsOf slots) cpu n) }

theorem mirrorsNoted (cpu : Nat) (id : UInt32) (mirrors : Mirrors k w) (slots : Nat → InstanceStats) (s : InstanceStats)
    (other : UInt32) : (noted w cpu id slots s.consecutiveErrors).consecutiveErrors.lookup other =
      ((k.instanceStats.insert id (Function.update slots cpu s)).lookup other).map errorsOf := by
  unfold noted
  dsimp only
  rw [← errorsUpdate]
  exact lookupMapInsert mirrors.errors id _ other

theorem knownErrors {slots : Nat → InstanceStats} (mirrors : Mirrors k w)
    (found : k.instanceStats.lookup id = some slots) : w.consecutiveErrors.lookup id = some (errorsOf slots) := by
  rw [mirrors.errors, found]
  rfl

theorem accountErrors (cpu : Nat) {slots : Nat → InstanceStats} (o : Reading) (mirrors : Mirrors k w)
    (found : k.instanceStats.lookup id = some slots) (other : UInt32) :
    (noted w cpu id slots (judged (sampled (slots cpu) o.now) o.isError).consecutiveErrors).consecutiveErrors.lookup
        other = ((account k cpu id o).instanceStats.lookup other).map errorsOf := by
  rw [(accountOld cpu o found).1]
  exact mirrorsNoted cpu id mirrors slots (judged (sampled (slots cpu) o.now) o.isError) other

theorem failureSteps {slots : Nat → InstanceStats} (o : Reading) (mirrors : Mirrors k w)
    (idle : w.completions = []) (nonzero : id ≠ 0)
    (found : k.instanceStats.lookup id = some slots) (failed : o.isError = true) :
    Reaches w (account k cpu id o) := by
  have known := knownErrors mirrors found
  have errors := accountErrors cpu o mirrors found
  have circuits := (accountOld cpu o found).2
  rw [failed] at errors circuits
  by_cases trips : errorsOf slots cpu + 1 ≥ circuitTripThreshold
  · have tripping : w.complete cpu id true =
        { noted w cpu id slots (errorsOf slots cpu + 1) with completions := [⟨id, .trips⟩] } := by
      simp only [World.complete, noted, if_neg nonzero, known, if_true, if_pos trips, idle,
        List.nil_append]
    refine ⟨[.complete cpu id true, .collect 0],
      { noted w cpu id slots (errorsOf slots cpu + 1) with
        circuits := updateElem w.circuits id .opened
        completions := [] },
      .cons (congrArg some tripping) (.cons rfl (.nil _)), ⟨?_, errors⟩, rfl⟩
    rw [circuits.trans (if_pos trips)]
    exact lookupMapUpdate mirrors.circuits id circuitOpen
  · have failing : w.complete cpu id true = noted w cpu id slots (errorsOf slots cpu + 1) := by
      simp only [World.complete, noted, if_neg nonzero, known, if_true, if_neg trips]
    refine ⟨[.complete cpu id true], _, .cons (congrArg some failing) (.nil _), ⟨?_, errors⟩, idle⟩
    rw [circuits.trans (if_neg trips)]
    exact mirrors.circuits

theorem successSteps {slots : Nat → InstanceStats} (o : Reading) (mirrors : Mirrors k w)
    (idle : w.completions = []) (nonzero : id ≠ 0) (isKnown : Known k id)
    (found : k.instanceStats.lookup id = some slots) (succeeded : o.isError = false) :
    Reaches w (account k cpu id o) := by
  have known := knownErrors mirrors found
  have errors := accountErrors cpu o mirrors found
  have circuits := (accountOld cpu o found).2
  rw [succeeded] at errors circuits
  have succeeding : w.complete cpu id false =
      { noted w cpu id slots 0 with completions := [⟨id, .succeeds⟩] } := by
    simp only [World.complete, noted, if_neg nonzero, known, Bool.false_eq_true, if_false, idle,
      List.nil_append]
  by_cases closed : k.circuitState.lookup id = some circuitClosed
  · have read := (closedMirrored mirrors isKnown).mpr closed
    refine ⟨[.complete cpu id false, .collect 0], { noted w cpu id slots 0 with completions := [] },
      .cons (congrArg some succeeding) (.cons (congrArg some (if_pos read)) (.nil _)),
      ⟨?_, errors⟩, rfl⟩
    rw [circuits.trans (if_pos closed)]
    exact mirrors.circuits
  · have read : CircuitBreaker.exec { noted w cpu id slots 0 with completions := [⟨id, .succeeds⟩] }
        (.collect 0) = some { noted w cpu id slots 0 with completions := [⟨id, .closes⟩] } :=
      congrArg some (if_neg fun same => closed ((closedMirrored mirrors isKnown).mp same))
    refine ⟨[.complete cpu id false, .collect 0, .collect 0],
      { noted w cpu id slots 0 with
        circuits := updateElem w.circuits id .closed
        completions := [] },
      .cons (congrArg some succeeding) (.cons read (.cons rfl (.nil _))), ⟨?_, errors⟩, rfl⟩
    rw [circuits.trans (if_neg closed)]
    exact lookupMapUpdate mirrors.circuits id circuitClosed

theorem collectorSteps (o : Reading) (mirrors : Mirrors k w) (idle : w.completions = [])
    (nonzero : id ≠ 0) (isKnown : Known k id) : Reaches w (account k cpu id o) := by
  cases found : k.instanceStats.lookup id with
  | none => exact newSteps o mirrors idle nonzero found
  | some slots =>
    cases outcome : o.isError with
    | true => exact failureSteps o mirrors idle nonzero found outcome
    | false => exact successSteps o mirrors idle nonzero isKnown found outcome

end OmegaLb.CollectorSteps
