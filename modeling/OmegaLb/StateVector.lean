import OmegaLb.Collector
import OmegaLb.RingManager

/-! collectState of agent.go: the collector's snapshot as one flat vector, eight features for
each backend in the order of the ids and four global ones behind them. -/
namespace OmegaLb.Rl
open Metrics (BackendStats Collector)
open RingManager (Runtime)

/-- One pass of the inner loop: `first` is ids[i], the list is what follows it. -/
def exchangePass (first : UInt32) : List UInt32 → UInt32 × List UInt32
  | [] => (first, [])
  | next :: rest =>
    if next < first then
      let (least, passed) := exchangePass next rest
      (least, first :: passed)
    else
      let (least, passed) := exchangePass first rest
      (least, next :: passed)

def exchangeSort : Nat → List UInt32 → List UInt32
  | remaining + 1, id :: rest =>
    let (least, passed) := exchangePass id rest
    least :: exchangeSort remaining passed
  | _, ids => ids

section Model
variable {F : Type} [GoMath F]

def maxRequests (stats : List (BackendStats F)) : Nat :=
  stats.foldl (fun maxReq s => if s.requestCount > maxReq then s.requestCount else maxReq) 1

/-- h4[k]: a position that is not written keeps its zero. -/
def historyFeature (hist : List F) (k : Nat) : F :=
  let idx : Int := hist.length - 4 + k
  if k < hist.length ∧ 0 ≤ idx then hist.getD idx.toNat (GoFloat.lit 0) / GoFloat.lit 1000.0
  else GoFloat.lit 0

def features (maxReq : Nat) (s : BackendStats F) : List F :=
  [s.latencyEWMA / GoFloat.lit 1000.0, s.errorRate1m,
    GoFloat.ofInt s.requestCount / GoFloat.ofInt maxReq,
    historyFeature s.loadHistory 0, historyFeature s.loadHistory 1,
    historyFeature s.loadHistory 2, historyFeature s.loadHistory 3, GoFloat.lit 0.0]

/-- Each range over the snapshot meets an order of its own. -/
def collectState (rt : Nat → Runtime) (collector : Option (Collector F)) : List F × List UInt32 :=
  match collector with
  | none => ([], [])
  | some snap =>
    if snap.keys.length = 0 then ([], [])
    else
      let ids := exchangeSort snap.keys.length ((rt 0).keyOrder snap.keys)
      let ranged := ((rt 1).keyOrder snap.keys).filterMap snap.lookup
      let maxReq := maxRequests ranged
      let globalErrSum := sumFrom (GoFloat.lit 0) (ranged.map BackendStats.errorRate1m)
      let globalLatSum := sumFrom (GoFloat.lit 0) (ranged.map BackendStats.latencyEWMA)
      let n : F := GoFloat.ofInt ids.length
      (((ids.filterMap snap.lookup).flatMap (features maxReq)) ++
        [GoFloat.lit 0.0, n / GoFloat.lit 64.0, globalLatSum / n / GoFloat.lit 1000.0,
          globalErrSum / n], ids)

end Model

/-! ### The ids -/

theorem exchangePassPerm (first : UInt32) (rest : List UInt32) :
    ((exchangePass first rest).1 :: (exchangePass first rest).2).Perm (first :: rest) := by
  induction rest generalizing first with
  | nil => exact .refl _
  | cons next rest ih =>
    rw [exchangePass]
    split
    · exact (List.Perm.swap _ _ _).trans ((ih next).cons first)
    · exact (List.Perm.swap _ _ _).trans (((ih first).cons next).trans (List.Perm.swap _ _ _))

theorem exchangeSortPerm (remaining : Nat) (ids : List UInt32) :
    (exchangeSort remaining ids).Perm ids := by
  fun_induction exchangeSort remaining ids with
  | case1 remaining id rest least passed same ih =>
    have pass := exchangePassPerm id rest
    rw [same] at pass
    exact (ih.cons least).trans pass
  | case2 => exact .refl _

theorem exchangePassLeast (first : UInt32) (rest : List UInt32) :
    ∀ id ∈ first :: rest, (exchangePass first rest).1 ≤ id := by
  induction rest generalizing first with
  | nil => exact fun id member => List.mem_singleton.mp member ▸ UInt32.le_refl first
  | cons next rest ih =>
    rw [exchangePass]
    split
    · rename_i below
      have later := ih next
      refine List.forall_mem_cons.mpr ⟨?_, later⟩
      exact UInt32.le_trans (later next List.mem_cons_self) (UInt32.le_of_lt below)
    · rename_i above
      have later := ih first
      obtain ⟨head, tail⟩ := List.forall_mem_cons.mp later
      refine List.forall_mem_cons.mpr ⟨head, List.forall_mem_cons.mpr ⟨?_, tail⟩⟩
      exact UInt32.le_trans head (UInt32.not_lt.mp above)

theorem exchangeSortSorted {remaining : Nat} {ids : List UInt32} (enough : ids.length ≤ remaining) :
    (exchangeSort remaining ids).Pairwise (· ≤ ·) := by
  fun_induction exchangeSort remaining ids with
  | case1 remaining id rest least passed same ih =>
    have pass := exchangePassPerm id rest
    have smallest := exchangePassLeast id rest
    rw [same] at pass smallest
    have shorter : passed.length ≤ remaining := by
      have length := pass.length_eq
      simp only [List.length_cons] at length enough
      omega
    refine List.pairwise_cons.mpr ⟨fun y member => ?_, ih shorter⟩
    have inside := (exchangeSortPerm remaining passed).mem_iff.mp member
    exact smallest y (pass.mem_iff.mp (List.mem_cons_of_mem least inside))
  | case2 remaining ids done =>
    cases ids with
    | nil => exact .nil
    | cons id rest =>
      cases remaining with
      | zero => exact absurd enough (by simp)
      | succ remaining => exact absurd rfl (done remaining id rest rfl)

variable {F : Type} [GoMath F]

theorem collectIdsPerm (rt : Nat → Runtime) (snap : Collector F) :
    (collectState rt (some snap)).2.Perm snap.keys := by
  simp only [collectState]
  split
  · rename_i empty
    rw [List.length_eq_zero_iff.mp empty]
  · exact (exchangeSortPerm _ _).trans ((rt 0).keyOrderPerm _)

theorem collectIdsAscend (rt : Nat → Runtime) (snap : Collector F) :
    (collectState rt (some snap)).2.Pairwise (· < ·) := by
  have distinct := (collectIdsPerm rt snap).nodup_iff.mpr snap.keys_nodup
  simp only [collectState] at distinct ⊢
  split at distinct
  · rename_i empty
    rw [if_pos empty]
    exact .nil
  · rename_i some_
    rw [if_neg some_]
    have sorted := exchangeSortSorted ((rt 0).keyOrderPerm snap.keys).length_eq.le
    exact (sorted.and distinct).imp fun ⟨order, different⟩ => UInt32.lt_of_le_of_ne order different

/-! ### The vector -/

omit [GoMath F] in
theorem filterMapLookupLength (snap : Collector F) {ids : List UInt32} (known : ids ⊆ snap.keys) :
    (ids.filterMap snap.lookup).length = ids.length := by
  induction ids with
  | nil => rfl
  | cons id rest ih =>
    obtain ⟨first, later⟩ := List.cons_subset.mp known
    obtain ⟨s, found⟩ := Option.isSome_iff_exists.mp (AList.lookup_isSome.mpr (AList.mem_keys.mpr first))
    rw [List.filterMap_cons, found, List.length_cons, List.length_cons, ih later]

omit [GoMath F] in
theorem rowsLength {α : Type} {row : α → List F} {width : Nat} (each : ∀ a, (row a).length = width)
    (rows : List α) : (rows.flatMap row).length = width * rows.length := by
  simp only [List.length_flatMap, each, List.map_const', List.sum_replicate_nat]
  exact Nat.mul_comm _ _

theorem featuresLength (maxReq : Nat) (s : BackendStats F) : (features maxReq s).length = 8 := rfl

theorem collectStateLength (rt : Nat → Runtime) {snap : Collector F} (some_ : snap.keys ≠ []) :
    (collectState rt (some snap)).1.length = 8 * snap.keys.length + 4 := by
  have ids := collectIdsPerm rt snap
  have nonempty : snap.keys.length ≠ 0 := fun zero => some_ (List.length_eq_zero_iff.mp zero)
  simp only [collectState, if_neg nonempty] at ids ⊢
  rw [List.length_append, rowsLength (featuresLength _), filterMapLookupLength snap ids.subset,
    ids.length_eq]
  rfl

end OmegaLb.Rl
