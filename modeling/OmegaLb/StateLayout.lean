import OmegaLb.KanActor
import OmegaLb.StateVector
import Mathlib.Algebra.Order.BigOperators.Group.List

/-! The vector that collectState writes as symbolicFallback reads it, over the rationals. The
reader takes the oldest of the last four load samples for the latency and the newest for the
health, and never reads the error rate. -/
namespace OmegaLb.Rl
open Metrics (BackendStats Collector Recorded AllRecorded Sample ingest collectorRecorded)
open RingManager (Runtime)

/-! ### Positions -/

theorem rowPosition {F α : Type} {row : α → List F} (width : ∀ a, (row a).length = perServer)
    (globals : List F) {rows : List α} {i : Nat} {a : α} (found : rows[i]? = some a)
    {k : Nat} (inside : k < perServer) :
    (rows.flatMap row ++ globals)[i * perServer + k]? = (row a)[k]? := by
  induction rows generalizing i with
  | nil => simp at found
  | cons t rest ih =>
    rw [List.flatMap_cons, List.append_assoc]
    cases i with
    | zero =>
      cases Option.some.inj found
      rw [Nat.zero_mul, Nat.zero_add, List.getElem?_append_left (width a ▸ inside)]
    | succ i =>
      rw [List.getElem?_append_right (by rw [width, Nat.succ_mul]; omega), ← ih found, width]
      congr 1
      rw [Nat.succ_mul]
      omega

/-- The four entries of a row that the symbolic equation reads. -/
structure RowReads {F α : Type} (row : α → List F) (base latency health errRate : α → F) : Prop where
  width : ∀ a, (row a).length = perServer
  base : ∀ a, (row a)[0]? = some (base a)
  latency : ∀ a, (row a)[3]? = some (latency a)
  health : ∀ a, (row a)[6]? = some (health a)
  errRate : ∀ a, (row a)[7]? = some (errRate a)

theorem serverScoreReads {F α : Type} [GoMath F] {row : α → List F} {base latency health errRate : α → F}
    (reads : RowReads row base latency health errRate) (globals : List F) {rows : List α} {i : Nat} {a : α}
    (found : rows[i]? = some a) :
    serverScore (rows.flatMap row ++ globals) i = .ok (score (base a) (latency a) (health a) (errRate a)) := by
  have read : ∀ k x, k < perServer → (row a)[k]? = some x →
      goIndex (rows.flatMap row ++ globals) (i * perServer + k) = .ok x := by
    intro k x inside entry
    exact_mod_cast goIndexFound ((rowPosition reads.width globals found inside).trans entry)
  have base := read 0 _ (by decide) (reads.base a)
  have latency := read 3 _ (by decide) (reads.latency a)
  have health := read 6 _ (by decide) (reads.health a)
  have errRate := read 7 _ (by decide) (reads.errRate a)
  simp only [Nat.cast_ofNat, Nat.cast_zero] at base latency health errRate
  simp only [serverScore, base, latency, health, errRate, bind, Except.bind]
  rfl

theorem fallbackRows {F α : Type} [GoMath F] {row : α → List F} {base latency health errRate : α → F}
    (reads : RowReads row base latency health errRate) {globals : List F} (four : globals.length = 4)
    {rows : List α} (some_ : rows ≠ []) :
    symbolicFallback (rows.flatMap row ++ globals) =
      .ok (normalize (rows.map fun a => score (base a) (latency a) (health a) (errRate a))) := by
  have length : (rows.flatMap row ++ globals).length = perServer * rows.length + 4 := by
    rw [List.length_append, rowsLength reads.width, four]
  have positive : 0 < rows.length := List.length_pos_iff.mpr some_
  have servers : (perServer * rows.length + 4 - 4) / perServer = rows.length := by
    unfold perServer
    omega
  have enough : ¬ perServer * rows.length + 4 < perServer := by
    unfold perServer
    omega
  rw [symbolicFallback, length, if_neg enough, servers]
  have scores : (List.range rows.length).mapM (serverScore (rows.flatMap row ++ globals)) =
      .ok (rows.map fun a => score (base a) (latency a) (health a) (errRate a)) := by
    have each : ∀ i ∈ List.range rows.length, serverScore (rows.flatMap row ++ globals) i =
        .ok (((rows[i]?).map fun a => score (base a) (latency a) (health a) (errRate a)).getD
          (GoFloat.lit 0)) := by
      intro i member
      have found := List.getElem?_eq_getElem (List.mem_range.mp member)
      rw [serverScoreReads reads globals found, found]
      rfl
    rw [goMapM each]
    refine congrArg _ (List.ext_getElem (by simp) fun i left right => ?_)
    have inside : i < rows.length := by simpa using right
    simp [inside]
  simp only [scores, bind, Except.bind]
  rfl

/-- The score symbolicFallback gives to what collectState wrote for a backend. -/
def rawScore {F : Type} [GoMath F] (s : BackendStats F) : F :=
  score (s.latencyEWMA / GoFloat.lit 1000.0) (historyFeature s.loadHistory 0)
    (historyFeature s.loadHistory 3) (GoFloat.lit 0.0)

theorem fallbackReads {F : Type} [GoMath F] (maxReq : Nat) {globals : List F}
    (four : globals.length = 4) {stats : List (BackendStats F)} (some_ : stats ≠ []) :
    symbolicFallback (stats.flatMap (features maxReq) ++ globals) =
      .ok (normalize (stats.map rawScore)) :=
  fallbackRows ⟨fun _ => rfl, fun _ => rfl, fun _ => rfl, fun _ => rfl, fun _ => rfl⟩ four some_

/-! ### Weights -/

def total (snap : Collector ℚ) : ℚ := ((GoMap.values snap).map rawScore).sum

def share (snap : Collector ℚ) (s : BackendStats ℚ) : ℚ :=
  if total snap = 0 then 1 / snap.keys.length else rawScore s / total snap

/-- The weight that symbolicFallback(collectState()) gives to a backend. -/
def weightOf (rt : Nat → Runtime) (snap : Collector ℚ) (id : UInt32) : Option ℚ :=
  match symbolicFallback (collectState rt (some snap)).1 with
  | .error _ => none
  | .ok w => ((collectState rt (some snap)).2.zip w).lookup id

theorem zipLookup {snap : Collector ℚ} {ids : List UInt32} (known : ids ⊆ snap.keys)
    (f : BackendStats ℚ → ℚ) {id : UInt32} (listed : id ∈ ids) :
    (ids.zip ((ids.filterMap snap.lookup).map f)).lookup id = (snap.lookup id).map f := by
  induction ids with
  | nil => contradiction
  | cons j rest ih =>
    obtain ⟨first, later⟩ := List.cons_subset.mp known
    obtain ⟨s, found⟩ := Option.isSome_iff_exists.mp (AList.lookup_isSome.mpr (AList.mem_keys.mpr first))
    rw [List.filterMap_cons, found, List.map_cons, List.zip_cons_cons, List.lookup_cons]
    by_cases same : id = j
    · subst same
      simp [found]
    · simp only [beq_eq_false_iff_ne.mpr same]
      exact ih later ((List.mem_cons.mp listed).resolve_left same)

theorem normalizeRat (v : List ℚ) :
    normalize v = v.map fun x => if v.sum = 0 then 1 / (v.length : ℚ) else x / v.sum := by
  simp only [normalize, ratIsZero, ratLit, ratOfInt, sumFromSum, zero_add, decide_eq_true_eq]
  split
  · norm_num
  · rfl

theorem weightShare (rt : Nat → Runtime) {snap : Collector ℚ} {id : UInt32} {s : BackendStats ℚ}
    (found : snap.lookup id = some s) : weightOf rt snap id = some (share snap s) := by
  have present : id ∈ snap := AList.lookup_isSome.mp (by rw [found]; rfl)
  have ids := collectIdsPerm rt snap
  have nonempty : snap.keys.length ≠ 0 := fun zero => by
    rw [AList.mem_keys, List.length_eq_zero_iff.mp zero] at present
    exact List.not_mem_nil present
  unfold weightOf
  simp only [collectState, if_neg nonempty] at ids ⊢
  generalize exchangeSort snap.keys.length ((rt 0).keyOrder snap.keys) = order at ids ⊢
  have listed : id ∈ order := ids.mem_iff.mpr (AList.mem_keys.mp present)
  have counted := filterMapLookupLength snap ids.subset
  have sum : ((order.filterMap snap.lookup).map rawScore).sum = total snap := by
    have covered := GoMap.filterMapCovered snap rawScore (ids.nodup_iff.mpr snap.keys_nodup)
      fun k inside => ids.mem_iff.mpr (AList.mem_keys.mp inside)
    rw [List.map_filterMap]
    exact covered.sum_eq
  rw [fallbackReads _ rfl fun none_ => nonempty (by rw [← ids.length_eq, ← counted, none_]; rfl)]
  simp only [normalizeRat, List.map_map]
  rw [zipLookup ids.subset _ listed, found, sum, List.length_map, counted, ids.length_eq]
  rfl

/-! ### Which backends score -/

/-- The newest load sample, which is read as the health. -/
def newest (s : BackendStats ℚ) : ℚ := s.loadHistory.getD (s.loadHistory.length - 1) 0

/-- The oldest of the last four load samples, which is read as the latency. -/
def fourthNewest (s : BackendStats ℚ) : ℚ := s.loadHistory.getD (s.loadHistory.length - 4) 0

def Scores (s : BackendStats ℚ) : Prop :=
  4 ≤ s.loadHistory.length ∧ 0 < newest s ∧
    42 * s.latencyEWMA / 10 ^ 5 + 31 * fourthNewest s / 10 ^ 8 < 1

instance (s : BackendStats ℚ) : Decidable (Scores s) := by
  unfold Scores
  infer_instance

theorem rawScoreFew {s : BackendStats ℚ} (few : s.loadHistory.length < 4) : rawScore s = 0 := by
  have health : historyFeature s.loadHistory 3 = (0 : ℚ) := if_neg fun both => by omega
  simp only [rawScore, score, health, mul_zero]

theorem rawScoreFour {s : BackendStats ℚ} (four : 4 ≤ s.loadHistory.length) :
    rawScore s = max (1 - (42 * s.latencyEWMA / 10 ^ 5 + 31 * fourthNewest s / 10 ^ 8)) 0 *
      (newest s / 1000) := by
  have first : historyFeature s.loadHistory 0 = fourthNewest s / 1000 := by
    have index : ((s.loadHistory.length : Int) - 4 + (0 : Nat)).toNat = s.loadHistory.length - 4 := by
      omega
    rw [historyFeature, if_pos ⟨by omega, by omega⟩, index]
    norm_num [fourthNewest]
  have last : historyFeature s.loadHistory 3 = newest s / 1000 := by
    have index : ((s.loadHistory.length : Int) - 4 + (3 : Nat)).toNat = s.loadHistory.length - 1 := by
      omega
    rw [historyFeature, if_pos ⟨by omega, by omega⟩, index]
    norm_num [newest]
  have sum : 1 - (42 * s.latencyEWMA / 10 ^ 5 + 31 * fourthNewest s / 10 ^ 8) =
      1.0 - 0.42 * (s.latencyEWMA / 1000.0) - 0.31 * (fourthNewest s / 1000 / 1000.0) - 10.0 * 0.0 := by
    norm_num
    ring
  rw [sum]
  simp only [rawScore, score, first, last, ratGt, ratLit, decide_eq_true_eq]
  split
  · rename_i negative
    rw [max_eq_right negative.le]
  · rename_i nonneg
    rw [max_eq_left (not_lt.mp nonneg)]

theorem getDNonneg {v : List ℚ} (nonneg : ∀ x ∈ v, 0 ≤ x) (i : Nat) : 0 ≤ v.getD i 0 := by
  rw [List.getD_eq_getElem?_getD]
  cases found : v[i]? with
  | none => exact le_refl _
  | some x => exact nonneg x (List.mem_of_getElem? found)

theorem rawScoreNonneg {s : BackendStats ℚ} (recorded : Recorded s) : 0 ≤ rawScore s := by
  by_cases four : 4 ≤ s.loadHistory.length
  · have last : 0 ≤ newest s := getDNonneg recorded.history _
    rw [rawScoreFour four]
    positivity
  · rw [rawScoreFew (not_le.mp four)]

theorem scoresExact {s : BackendStats ℚ} (recorded : Recorded s) : 0 < rawScore s ↔ Scores s := by
  by_cases four : 4 ≤ s.loadHistory.length
  · have last : 0 ≤ newest s := getDNonneg recorded.history _
    rw [rawScoreFour four, Scores]
    constructor
    · intro positive
      have live := pos_of_mul_pos_right positive (le_max_right _ _)
      have left := pos_of_mul_pos_left positive (by positivity)
      have low := (lt_max_iff.mp left).resolve_right (lt_irrefl 0)
      exact ⟨four, by linarith, by linarith⟩
    · rintro ⟨_, live, low⟩
      have left : 0 < max (1 - (42 * s.latencyEWMA / 10 ^ 5 + 31 * fourthNewest s / 10 ^ 8)) 0 :=
        lt_max_of_lt_left (sub_pos.mpr low)
      positivity
  · rw [rawScoreFew (not_le.mp four)]
    exact ⟨fun positive => absurd positive (lt_irrefl 0), fun scores => absurd scores.1 four⟩

/-! ### The total -/

theorem totalScores {snap : Collector ℚ} (recorded : AllRecorded snap) (nonzero : total snap ≠ 0) :
    ∃ id s, snap.lookup id = some s ∧ Scores s := by
  by_contra none_
  refine nonzero (List.sum_eq_zero fun x member => ?_)
  obtain ⟨s, value, rfl⟩ := List.mem_map.mp member
  obtain ⟨id, found⟩ := GoMap.memValues.mp value
  by_contra scored
  have kept := recorded id s found
  exact none_ ⟨id, s, found, (scoresExact kept).mp ((rawScoreNonneg kept).lt_of_ne' scored)⟩

theorem totalPositive {snap : Collector ℚ} (recorded : AllRecorded snap) {id : UInt32}
    {s : BackendStats ℚ} (found : snap.lookup id = some s) (scores : Scores s) : 0 < total snap := by
  have member : rawScore s ∈ (GoMap.values snap).map rawScore :=
    List.mem_map_of_mem (GoMap.memValues.mpr ⟨id, found⟩)
  refine lt_of_lt_of_le ((scoresExact (recorded id s found)).mpr scores)
    (List.single_le_sum (fun x inside => ?_) _ member)
  obtain ⟨t, value, rfl⟩ := List.mem_map.mp inside
  obtain ⟨k, registered⟩ := GoMap.memValues.mp value
  exact rawScoreNonneg (recorded k t registered)

theorem shareScores {snap : Collector ℚ} (positive : 0 < total snap) {s : BackendStats ℚ}
    (recorded : Recorded s) : 0 < share snap s ↔ Scores s := by
  rw [share, if_neg positive.ne', div_pos_iff_of_pos_right positive, scoresExact recorded]

theorem shareNonneg {snap : Collector ℚ} (positive : 0 < total snap) {s : BackendStats ℚ}
    (recorded : Recorded s) : 0 ≤ share snap s := by
  rw [share, if_neg positive.ne']
  exact div_nonneg (rawScoreNonneg recorded) positive.le

/-! ### A change of the error rate -/

def withErrorRate (snap : Collector ℚ) (id : UInt32) (rate : ℚ) : Collector ℚ :=
  GoMap.modify snap id fun s => { s with errorRate1m := rate }

theorem shareUnread (snap : Collector ℚ) (id : UInt32) (rate : ℚ) (s : BackendStats ℚ) :
    share (withErrorRate snap id rate) { s with errorRate1m := rate } = share snap s := by
  have sum : total (withErrorRate snap id rate) = total snap := by
    refine congrArg List.sum (GoMap.mapMapValues snap _ rawScore fun k v => ?_)
    split <;> rfl
  have size : (withErrorRate snap id rate).keys = snap.keys := GoMap.keysMapValues snap _
  rw [share, share, sum, size]
  rfl

theorem weightUnread (rt rt' : Nat → Runtime) {snap : Collector ℚ} {id : UInt32}
    {s : BackendStats ℚ} (found : snap.lookup id = some s) (rate : ℚ) :
    weightOf rt' (withErrorRate snap id rate) id = weightOf rt snap id := by
  have changed : (withErrorRate snap id rate).lookup id = some { s with errorRate1m := rate } := by
    rw [withErrorRate, GoMap.lookupModify, if_pos rfl, found, Option.map_some]
  rw [weightShare rt' changed, weightShare rt found, shareUnread]

/-! ### Agreement -/

structure Slower (s t : BackendStats ℚ) : Prop where
  errors : s.errorRate1m = t.errorRate1m
  latency : t.latencyEWMA ≤ s.latencyEWMA
  history : List.Forall₂ (· ≤ ·) t.loadHistory s.loadHistory

structure LayoutAgrees (snap : Collector ℚ) : Prop where
  notRaised : ∀ id s rate rt w rt' w', snap.lookup id = some s → s.errorRate1m ≤ rate →
    weightOf rt snap id = some w → weightOf rt' (withErrorRate snap id rate) id = some w' → w' ≤ w
  lowered : ∀ id s rate rt w rt' w', snap.lookup id = some s → s.errorRate1m + 1 / 10 ≤ rate →
    weightOf rt snap id = some w → weightOf rt' (withErrorRate snap id rate) id = some w' →
    0 < w → (∃ other t v, other ≠ id ∧ snap.lookup other = some t ∧
      weightOf rt snap other = some v ∧ 0 < v) → w' < w
  ordered : ∀ id s other t rt w v, snap.lookup id = some s → snap.lookup other = some t →
    Slower s t → weightOf rt snap id = some w → weightOf rt snap other = some v → w ≤ v

def OnlyScorer (snap : Collector ℚ) : Prop :=
  ∃ id s, snap.lookup id = some s ∧ Scores s ∧
    ∀ other t, other ≠ id → snap.lookup other = some t → ¬ Scores t ∧ ¬ Slower s t

theorem agreesAlone {snap : Collector ℚ} (agrees : LayoutAgrees snap) {id other : UInt32}
    {s t : BackendStats ℚ} (found : snap.lookup id = some s) (else_ : snap.lookup other = some t)
    (different : other ≠ id) : ¬ (0 < share snap s ∧ 0 < share snap t) := by
  rintro ⟨first, second⟩
  have weight := weightShare (fun _ => .plain) found
  have same := (weightUnread (fun _ => .plain) (fun _ => .plain) found (s.errorRate1m + 1 / 10)).trans
    weight
  exact lt_irrefl _ (agrees.lowered id s _ _ _ _ _ found le_rfl weight same first
    ⟨other, t, _, different, else_, weightShare _ else_, second⟩)

theorem agreesTotal {snap : Collector ℚ} (two : 2 ≤ snap.keys.length) (agrees : LayoutAgrees snap) :
    total snap ≠ 0 := by
  intro zero
  have uniform : ∀ s, 0 < share snap s := fun s => by
    have count : (0 : ℚ) < snap.keys.length := by exact_mod_cast lt_of_lt_of_le Nat.zero_lt_two two
    rw [share, if_pos zero]
    positivity
  have lookup : ∀ id ∈ snap.keys, ∃ s, snap.lookup id = some s := fun id listed =>
    Option.isSome_iff_exists.mp (AList.lookup_isSome.mpr (AList.mem_keys.mpr listed))
  have distinct := snap.keys_nodup
  match keys : snap.keys, two with
  | id :: other :: rest, _ =>
    rw [keys] at distinct lookup
    obtain ⟨s, found⟩ := lookup id List.mem_cons_self
    obtain ⟨t, else_⟩ := lookup other (List.mem_cons_of_mem id List.mem_cons_self)
    have different : other ≠ id := fun same =>
      (List.nodup_cons.mp distinct).1 (same ▸ List.mem_cons_self)
    exact agreesAlone agrees found else_ different ⟨uniform s, uniform t⟩

theorem agreesOnlyScorer {snap : Collector ℚ} (two : 2 ≤ snap.keys.length)
    (recorded : AllRecorded snap) (agrees : LayoutAgrees snap) : OnlyScorer snap := by
  obtain ⟨id, s, found, scores⟩ := totalScores recorded (agreesTotal two agrees)
  have positive := totalPositive recorded found scores
  have first := (shareScores positive (recorded id s found)).mpr scores
  refine ⟨id, s, found, scores, fun other t different else_ => ?_⟩
  have alone := agreesAlone agrees found else_ different
  refine ⟨fun also => alone ⟨first, (shareScores positive (recorded other t else_)).mpr also⟩, ?_⟩
  intro slower
  have order := agrees.ordered id s other t (fun _ => .plain) _ _ found else_ slower
    (weightShare _ found) (weightShare _ else_)
  exact alone ⟨first, lt_of_lt_of_le first order⟩

theorem onlyScorerAgrees {snap : Collector ℚ} (recorded : AllRecorded snap)
    (only : OnlyScorer snap) : LayoutAgrees snap := by
  obtain ⟨best, top, registered, scores, others⟩ := only
  have positive := totalPositive recorded registered scores
  have isBest : ∀ id s, snap.lookup id = some s → 0 < share snap s → id = best :=
    fun id s found weighs => by
      by_contra different
      exact (others id s different found).1 ((shareScores positive (recorded id s found)).mp weighs)
  constructor
  · intro id s rate rt w rt' w' found _ before after
    rw [weightUnread rt rt' found, before] at after
    exact (Option.some.inj after).ge
  · intro id s rate rt w rt' w' found _ before _ weighs ⟨other, t, v, different, else_, its, also⟩
    rw [weightShare rt found] at before
    rw [weightShare rt else_] at its
    cases before
    cases its
    exact absurd ((isBest other t else_ also).trans (isBest id s found weighs).symm) different
  · intro id s other t rt w v found else_ slower before its
    rw [weightShare rt found] at before
    rw [weightShare rt else_] at its
    cases before
    cases its
    by_cases weighs : 0 < share snap s
    · cases isBest id s found weighs
      cases Option.some.inj (found.symm.trans registered)
      by_cases same : other = best
      · subst same
        rw [Option.some.inj (else_.symm.trans found)]
      · exact absurd slower (others other t same else_).2
    · exact (not_lt.mp weighs).trans (shareNonneg positive (recorded other t else_))

/-- The weights answer to the metrics on these snapshots and on no others. -/
theorem layoutExact (snap : Collector ℚ) (two : 2 ≤ snap.keys.length)
    (recorded : AllRecorded snap) : LayoutAgrees snap ↔ OnlyScorer snap :=
  ⟨agreesOnlyScorer two recorded, onlyScorerAgrees recorded⟩

def answered (id : UInt32) : Sample := ⟨id, 8000000, false⟩

def youngPair : Collector ℚ := [answered 1, answered 1, answered 1, answered 1, answered 2].foldl ingest ∅

theorem youngPairAgrees : LayoutAgrees youngPair := by
  have recorded : AllRecorded youngPair := collectorRecorded _
  refine (layoutExact youngPair (by decide +kernel) recorded).mpr ?_
  have old : (youngPair.lookup 1).any fun s => decide (Scores s ∧ s.loadHistory.length = 4) := by
    decide +kernel
  have young : (youngPair.lookup 2).all fun t => decide (t.loadHistory.length = 1) := by
    decide +kernel
  obtain ⟨s, found, both⟩ := (Option.any_eq_true _ _).mp old
  obtain ⟨scores, four⟩ := of_decide_eq_true both
  refine ⟨1, s, found, scores, fun other t different else_ => ?_⟩
  have keys : youngPair.keys = [2, 1] := by decide +kernel
  have listed : other ∈ youngPair := AList.lookup_isSome.mp (by rw [else_]; rfl)
  rw [AList.mem_keys, keys, List.mem_pair] at listed
  cases listed.resolve_right different
  rw [else_] at young
  have once : t.loadHistory.length = 1 := of_decide_eq_true young
  constructor
  · intro also
    have enough := also.1
    omega
  · intro slower
    have length := slower.history.length_eq
    omega

def quick : BackendStats ℚ := ⟨20, 0, 4, [20, 20, 20, 20]⟩

def alike : Collector ℚ := (AList.insert 1 quick ∅).insert 2 quick

/-- Two backends alike: half of the requests of one fail, and it keeps half of the weight. -/
theorem errorsUnnoticed : ¬ LayoutAgrees alike := by
  intro agrees
  have lower := agrees.lowered 1 quick (1 / 2) (fun _ => .plain) (1 / 2) (fun _ => .plain) (1 / 2)
    rfl (by decide +kernel) (by decide +kernel) (by decide +kernel) (by decide +kernel)
    ⟨2, quick, 1 / 2, by decide, rfl, by decide +kernel, by decide +kernel⟩
  exact lt_irrefl _ lower

end OmegaLb.Rl
