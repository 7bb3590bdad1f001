import OmegaLb.StateLayout

/-! The history features of collectState against the load samples they are to carry. The copy loop
counts as many positions as there are samples and then writes only those that a history of four
would fill, so a history of one or two samples leaves no trace and one of three loses its newest. -/
namespace OmegaLb.Rl
open Metrics (BackendStats Collector Sample ingest)
open RingManager (Runtime)

section Model
variable {F : Type} [GoMath F]

def historyOf (state : List F) (i : Nat) : List F := (state.drop (i * perServer + 3)).take 4

def normalised (x : F) : F := x / GoFloat.lit 1000.0

/-- The last four samples side by side, oldest first, and zeros around them. -/
def Carries (hist four : List F) : Prop :=
  ∃ before after, four = List.replicate before (GoFloat.lit 0) ++
    (hist.drop (hist.length - 4)).map normalised ++ List.replicate after (GoFloat.lit 0)

structure VectorContents (rt : Nat → Runtime) (snap : Collector F) : Prop where
  ids : (collectState rt (some snap)).2.Perm snap.keys
  ascending : (collectState rt (some snap)).2.Pairwise (· < ·)
  length : (collectState rt (some snap)).1.length = 8 * snap.keys.length + 4
  history : ∀ (i : Nat) (id : UInt32) (s : BackendStats F), (collectState rt (some snap)).2[i]? = some id →
    snap.lookup id = some s → Carries s.loadHistory (historyOf (collectState rt (some snap)).1 i)

/-- What the copy loop passes over: all of a history below three samples, the newest of three. -/
def passedOver (hist : List F) : List F := hist.drop (2 * hist.length - 4)

end Model

variable {F : Type} [GoMath F]

/-! ### One history -/

omit [GoMath F] in
theorem passedOverLong {hist : List F} (four : 4 ≤ hist.length) : passedOver hist = [] :=
  List.drop_eq_nil_of_le (by omega)

def historyFeatures (hist : List F) : List F := (List.range 4).map (historyFeature hist)

theorem featuresLong {hist : List F} (four : 4 ≤ hist.length) :
    historyFeatures hist = (hist.drop (hist.length - 4)).map normalised := by
  refine List.ext_getElem (by simp [historyFeatures]; omega) fun k left right => ?_
  have inside : k < 4 := by simpa [historyFeatures] using left
  have index : ((hist.length : Int) - 4 + k).toNat = hist.length - 4 + k := by omega
  have here : hist.length - 4 + k < hist.length := by omega
  simp only [historyFeatures, List.getElem_map, List.getElem_range, List.getElem_drop, historyFeature, normalised]
  rw [if_pos ⟨by omega, by omega⟩, index, List.getD_eq_getElem hist _ here]

theorem carriedScaled {hist four : List F} (carries : Carries hist four) {x : F}
    (last : x ∈ hist.drop (hist.length - 4)) : normalised x ∈ four := by
  obtain ⟨before, after, rfl⟩ := carries
  exact List.mem_append_left _ (List.mem_append_right _ (List.mem_map_of_mem last))

theorem featuresOne (a : F) : historyFeatures [a] = List.replicate 4 (GoFloat.lit 0) := rfl

theorem featuresTwo (a b : F) : historyFeatures [a, b] = List.replicate 4 (GoFloat.lit 0) := rfl

theorem featuresThree (a b c : F) :
    historyFeatures [a, b, c] = [GoFloat.lit 0, normalised a, normalised b, GoFloat.lit 0] := rfl

/-- Three samples fit in two places, and the newest is missing from both. -/
theorem carriesThree (a b c : F) :
    Carries [a, b, c] (historyFeatures [a, b, c]) ↔ normalised c = GoFloat.lit 0 := by
  rw [featuresThree]
  constructor
  · rintro ⟨before, after, same⟩
    have lengths := congrArg List.length same
    simp at lengths
    have place : before = 0 ∧ after = 1 ∨ before = 1 ∧ after = 0 := by omega
    rcases place with ⟨rfl, rfl⟩ | ⟨rfl, rfl⟩
    · have same : [GoFloat.lit 0, normalised a, normalised b, GoFloat.lit 0] =
        [normalised a, normalised b, normalised c, GoFloat.lit 0] := same
      simp only [List.cons.injEq, and_true] at same
      obtain ⟨first, second, third⟩ := same
      exact third.symm.trans (second.symm.trans first.symm)
    · have same : [GoFloat.lit 0, normalised a, normalised b, GoFloat.lit 0] =
        [GoFloat.lit 0, normalised a, normalised b, normalised c] := same
      simp only [List.cons.injEq, and_true, true_and] at same
      exact same.symm
  · intro zero
    refine ⟨1, 0, ?_⟩
    simp [zero]

theorem carriesExact (hist : List F) :
    Carries hist (historyFeatures hist) ↔ ∀ x ∈ passedOver hist, normalised x = GoFloat.lit 0 := by
  by_cases four : 4 ≤ hist.length
  · rw [passedOverLong four]
    refine iff_of_true ⟨0, 0, ?_⟩ fun x member => absurd member List.not_mem_nil
    simp [featuresLong four]
  · match hist, four with
    | [], _ => exact iff_of_true ⟨4, 0, rfl⟩ fun x member => absurd member List.not_mem_nil
    | [a], _ =>
      constructor
      · intro carries x member
        have among := carriedScaled carries member
        exact List.eq_of_mem_replicate (featuresOne a ▸ among)
      · intro zero
        refine ⟨3, 0, ?_⟩
        simp [featuresOne, zero a List.mem_cons_self, List.replicate]
    | [a, b], _ =>
      constructor
      · intro carries x member
        have among := carriedScaled carries member
        exact List.eq_of_mem_replicate (featuresTwo a b ▸ among)
      · intro zero
        refine ⟨2, 0, ?_⟩
        simp [featuresTwo, zero a List.mem_cons_self, zero b (List.mem_cons_of_mem a List.mem_cons_self),
          List.replicate]
    | [a, b, c], _ =>
      rw [carriesThree]
      simp [passedOver]
    | _ :: _ :: _ :: _ :: _, short => exact absurd (by simp) short

/-! ### The vector -/

theorem historyRow (maxReq : Nat) (globals : List F) {stats : List (BackendStats F)} {i : Nat}
    {s : BackendStats F} (found : stats[i]? = some s) :
    historyOf (stats.flatMap (features maxReq) ++ globals) i = historyFeatures s.loadHistory := by
  refine List.ext_getElem? fun k => ?_
  rw [historyOf, List.getElem?_take]
  split
  · rename_i inside
    rw [List.getElem?_drop, Nat.add_assoc,
      rowPosition (fun _ => rfl) globals found (by unfold perServer; omega)]
    match k, inside with
    | 0, _ => rfl
    | 1, _ => rfl
    | 2, _ => rfl
    | 3, _ => rfl
  · rename_i outside
    exact (List.getElem?_eq_none (by simpa [historyFeatures] using outside)).symm

omit [GoMath F] in
theorem lookupRow {snap : Collector F} {ids : List UInt32} (known : ids ⊆ snap.keys) {i : Nat} {id : UInt32}
    {s : BackendStats F} (listed : ids[i]? = some id) (found : snap.lookup id = some s) :
    (ids.filterMap snap.lookup)[i]? = some s := by
  induction ids generalizing i with
  | nil => simp at listed
  | cons j rest ih =>
    obtain ⟨first, later⟩ := List.cons_subset.mp known
    obtain ⟨t, here⟩ := Option.isSome_iff_exists.mp (AList.lookup_isSome.mpr (AList.mem_keys.mpr first))
    rw [List.filterMap_cons, here]
    cases i with
    | zero =>
      cases listed
      exact here.symm.trans found
    | succ i => exact ih later listed

theorem collectedHistory (rt : Nat → Runtime) {snap : Collector F} {i : Nat} {id : UInt32}
    {s : BackendStats F} (listed : (collectState rt (some snap)).2[i]? = some id)
    (found : snap.lookup id = some s) :
    historyOf (collectState rt (some snap)).1 i = historyFeatures s.loadHistory := by
  have known := (collectIdsPerm rt snap).subset
  have nonempty : snap.keys.length ≠ 0 := by
    intro zero
    have present := known (List.mem_of_getElem? listed)
    rw [List.length_eq_zero_iff.mp zero] at present
    exact List.not_mem_nil present
  simp only [collectState, if_neg nonempty] at listed known ⊢
  exact historyRow _ _ (lookupRow known listed found)

theorem contentsExact (rt : Nat → Runtime) {snap : Collector F} (some_ : snap.keys ≠ []) :
    VectorContents rt snap ↔
      ∀ id s, snap.lookup id = some s → ∀ x ∈ passedOver s.loadHistory, normalised x = GoFloat.lit 0 := by
  have ids := collectIdsPerm rt snap
  constructor
  · intro contents id s found
    have present : id ∈ snap.keys := AList.mem_keys.mp (AList.lookup_isSome.mp (by rw [found]; rfl))
    obtain ⟨i, listed⟩ := List.mem_iff_getElem?.mp (ids.mem_iff.mpr present)
    have carries := contents.history i id s listed found
    rw [collectedHistory rt listed found] at carries
    exact (carriesExact s.loadHistory).mp carries
  · intro quiet
    refine ⟨ids, collectIdsAscend rt snap, collectStateLength rt some_, fun i id s listed found => ?_⟩
    rw [collectedHistory rt listed found]
    exact (carriesExact s.loadHistory).mpr (quiet id s found)

def request : Sample := ⟨1, 8000000, false⟩

def otherRequest : Sample := { request with instanceID := 2 }

/-- Seven answers of the first backend, with four of the other between them. -/
def settled : Collector ℚ :=
  [request, otherRequest, request, request, otherRequest, otherRequest, request, request, request,
    otherRequest, request].foldl ingest ∅

theorem settledContents : (settled.lookup 1).map (·.loadHistory.length) = some 7 ∧
    (settled.lookup 2).map (·.loadHistory.length) = some 4 ∧ VectorContents (fun _ => .plain) settled := by
  have seven : (settled.lookup 1).map (·.loadHistory.length) = some 7 := by decide +kernel
  have four : (settled.lookup 2).map (·.loadHistory.length) = some 4 := by decide +kernel
  have keys : settled.keys = [1, 2] := by decide +kernel
  refine ⟨seven, four, (contentsExact (fun _ => .plain) (by simp [keys])).mpr fun id s found x member => ?_⟩
  have listed : id ∈ settled := AList.lookup_isSome.mp (by rw [found]; rfl)
  have long : 4 ≤ s.loadHistory.length := by
    rw [AList.mem_keys, keys, List.mem_pair] at listed
    rcases listed with rfl | rfl
    · rw [found] at seven
      have length : s.loadHistory.length = 7 := Option.some.inj seven
      omega
    · rw [found] at four
      exact (Option.some.inj four).ge
  rw [passedOverLong long] at member
  exact absurd member List.not_mem_nil

/-- One request has been answered in 8 ms: the collector has its sample, the vector four zeros. -/
theorem firstSampleLost : ¬ VectorContents (fun _ => .plain) (ingest (∅ : Collector ℚ) request) := by
  intro contents
  have carries := contents.history 0 1 ⟨1, 0, 1, [1]⟩ (by decide +kernel) (by decide +kernel)
  have zeros : historyOf (collectState (fun _ => .plain) (some (ingest (∅ : Collector ℚ) request))).1 0 =
      [0, 0, 0, 0] := by decide +kernel
  rw [zeros] at carries
  have among : normalised (1 : ℚ) ∈ [0, 0, 0, 0] := carriedScaled carries List.mem_cons_self
  exact absurd among (by decide +kernel)

end OmegaLb.Rl
