import OmegaLb.Admission
import OmegaLb.GoRuntime
import OmegaLb.GoText

/-! The label budget of cardinality.go. A dimension's map of allowed values holds the first values
it has met, as many as the budget has room for. The number of overflows does not reach 2^64. -/
namespace OmegaLb.Metrics
open Admission (admitNext admitted admittedLength admittedPrefix admittedSettled admittedSnoc memAdmit)
open GoText (Bytes ascii)

structure CardinalityBudget where
  counts : GoMap Bytes (GoMap Bytes Unit)
  maxVals : Int
  overflows : Nat

def overflowLabel : Bytes := ascii "_overflow"

def newCardinalityBudget (maxVals : Int) : CardinalityBudget := ⟨∅, if maxVals ≤ 0 then 50 else maxVals, 0⟩

/-- The dimension's map, made where there is none. -/
def CardinalityBudget.ensure (cb : CardinalityBudget) (dimension : Bytes) :
    GoMap Bytes Unit × GoMap Bytes (GoMap Bytes Unit) :=
  match cb.counts.lookup dimension with
  | some vals => (vals, cb.counts)
  | none => (∅, cb.counts.insert dimension ∅)

def CardinalityBudget.normalize (cb : CardinalityBudget) (dimension value : Bytes) : CardinalityBudget × Bytes :=
  let (vals, counts) := cb.ensure dimension
  if value ∈ vals then ({ cb with counts := counts }, value)
  else if GoMap.size vals ≥ cb.maxVals then
    ({ cb with counts := counts, overflows := cb.overflows + 1 }, overflowLabel)
  else ({ cb with counts := counts.insert dimension (vals.insert value ()) }, value)

def CardinalityBudget.overflowCount (cb : CardinalityBudget) : Nat := cb.overflows

/-- counts[dimension]: without an entry it is a nil map, which has no values. -/
def allowedIn (counts : GoMap Bytes (GoMap Bytes Unit)) (dimension : Bytes) : List Bytes :=
  match counts.lookup dimension with
  | some vals => vals.keys
  | none => []

def CardinalityBudget.dimensionSize (cb : CardinalityBudget) (dimension : Bytes) : Int :=
  (allowedIn cb.counts dimension).length

/-- The value is new and the dimension has no room. -/
def CardinalityBudget.Refuses (cb : CardinalityBudget) (dimension value : Bytes) : Prop :=
  value ∉ allowedIn cb.counts dimension ∧ cb.maxVals ≤ cb.dimensionSize dimension

instance (cb : CardinalityBudget) (dimension value : Bytes) : Decidable (cb.Refuses dimension value) :=
  inferInstanceAs (Decidable (_ ∧ _))

/-! ### One call -/

theorem allowedInsert (counts : GoMap Bytes (GoMap Bytes Unit)) (dimension : Bytes) (vals : GoMap Bytes Unit)
    (other : Bytes) : allowedIn (counts.insert dimension vals) other =
      if other = dimension then vals.keys else allowedIn counts other := by
  unfold allowedIn
  by_cases same : other = dimension
  · subst same
    rw [AList.lookup_insert, if_pos rfl]
  · rw [AList.lookup_insert_ne same, if_neg same]

theorem ensureAllowed (cb : CardinalityBudget) (dimension : Bytes) :
    (cb.ensure dimension).1.keys = allowedIn cb.counts dimension ∧
      ∀ other, allowedIn (cb.ensure dimension).2 other = allowedIn cb.counts other := by
  unfold CardinalityBudget.ensure
  cases found : cb.counts.lookup dimension with
  | some vals => exact ⟨by rw [allowedIn, found], fun _ => rfl⟩
  | none =>
    have absent : allowedIn cb.counts dimension = [] := by rw [allowedIn, found]
    refine ⟨absent.symm, fun other => ?_⟩
    rw [allowedInsert]
    split
    · rename_i same
      rw [same, absent]
      rfl
    · rfl

structure Normalized (cb cb' : CardinalityBudget) (dimension value label : Bytes) : Prop where
  limit : cb'.maxVals = cb.maxVals
  elsewhere : ∀ other, other ≠ dimension → allowedIn cb'.counts other = allowedIn cb.counts other
  here : allowedIn cb'.counts dimension =
    if value ∈ allowedIn cb.counts dimension ∨ cb.maxVals ≤ cb.dimensionSize dimension
    then allowedIn cb.counts dimension else value :: allowedIn cb.counts dimension
  label : label = if cb.Refuses dimension value then overflowLabel else value
  overflows : cb'.overflowCount = cb.overflowCount + if cb.Refuses dimension value then 1 else 0

theorem normalizeSpec (cb : CardinalityBudget) (dimension value : Bytes) :
    Normalized cb (cb.normalize dimension value).1 dimension value (cb.normalize dimension value).2 := by
  obtain ⟨keys, others⟩ := ensureAllowed cb dimension
  unfold CardinalityBudget.normalize
  generalize cb.ensure dimension = ensured at keys others ⊢
  obtain ⟨vals, counts⟩ := ensured
  have member : value ∈ vals ↔ value ∈ allowedIn cb.counts dimension := by rw [AList.mem_keys, keys]
  have size : GoMap.size vals = cb.dimensionSize dimension := by
    rw [CardinalityBudget.dimensionSize, ← keys]
    simp [GoMap.size, AList.keys, List.keys]
  dsimp only at keys others ⊢
  by_cases seen : value ∈ allowedIn cb.counts dimension
  · rw [if_pos (member.mpr seen)]
    have granted : ¬ cb.Refuses dimension value := fun refuses => refuses.1 seen
    refine ⟨rfl, fun other _ => others other, ?_, ?_, ?_⟩
    · rw [if_pos (.inl seen), others]
    · rw [if_neg granted]
    · rw [if_neg granted]
      rfl
  · rw [if_neg (member.not.mpr seen), size]
    by_cases full : cb.maxVals ≤ cb.dimensionSize dimension
    · rw [if_pos full]
      have refused : cb.Refuses dimension value := ⟨seen, full⟩
      refine ⟨rfl, fun other _ => others other, ?_, ?_, ?_⟩
      · rw [if_pos (.inr full), others]
      · rw [if_pos refused]
      · rw [if_pos refused]
        rfl
    · rw [if_neg full]
      have granted : ¬ cb.Refuses dimension value := fun refuses => full refuses.2
      have absent : value ∉ vals.keys := keys ▸ seen
      refine ⟨rfl, fun other different => ?_, ?_, ?_, ?_⟩
      · rw [allowedInsert, if_neg different, others]
      · rw [allowedInsert, if_pos rfl, AList.keys_insert, if_neg (not_or.mpr ⟨seen, full⟩)]
        have kept := @List.erase_of_not_mem Bytes instBEqOfDecidableEq _ _ _ absent
        rw [kept, keys]
      · rw [if_neg granted]
      · rw [if_neg granted]
        rfl

/-! ### A sequence of calls -/

abbrev Call := Bytes × Bytes

def CardinalityBudget.after (cb : CardinalityBudget) (calls : List Call) : CardinalityBudget :=
  calls.foldl (fun cb call => (cb.normalize call.1 call.2).1) cb

/-- What a call answers after those before it. -/
def labelAfter (maxVals : Int) (before : List Call) (call : Call) : Bytes :=
  (((newCardinalityBudget maxVals).after before).normalize call.1 call.2).2

def valuesOf (dimension : Bytes) (calls : List Call) : List Bytes :=
  (calls.filter fun call => decide (call.1 = dimension)).map Prod.snd

def limit (maxVals : Int) : Nat := if maxVals ≤ 0 then 50 else maxVals.toNat

structure Tracks (maxVals : Int) (calls : List Call) (cb : CardinalityBudget) : Prop where
  limited : cb.maxVals = limit maxVals
  allowed : ∀ dimension, (allowedIn cb.counts dimension).Perm (admitted (limit maxVals) (valuesOf dimension calls))

theorem afterTracks (maxVals : Int) (calls : List Call) :
    Tracks maxVals calls ((newCardinalityBudget maxVals).after calls) := by
  induction calls using List.reverseRecOn with
  | nil =>
    refine ⟨?_, fun _ => .nil⟩
    simp only [CardinalityBudget.after, List.foldl_nil, newCardinalityBudget, limit]
    split <;> omega
  | append_singleton calls call ih =>
    obtain ⟨dimension, value⟩ := call
    obtain ⟨limited, allowed⟩ := ih
    have step : (newCardinalityBudget maxVals).after (calls ++ [(dimension, value)]) =
        (((newCardinalityBudget maxVals).after calls).normalize dimension value).1 := by
      rw [CardinalityBudget.after, List.foldl_append]
      rfl
    rw [step]
    generalize (newCardinalityBudget maxVals).after calls = cb at limited allowed ⊢
    have spec := normalizeSpec cb dimension value
    refine ⟨spec.limit.trans limited, fun other => ?_⟩
    by_cases same : other = dimension
    · subst same
      have values : valuesOf other (calls ++ [(other, value)]) = valuesOf other calls ++ [value] := by
        simp [valuesOf]
      have room : cb.maxVals ≤ cb.dimensionSize other ↔
          limit maxVals ≤ (admitted (limit maxVals) (valuesOf other calls)).length := by
        rw [limited, CardinalityBudget.dimensionSize, (allowed other).length_eq]
        exact Int.ofNat_le
      rw [values, admittedSnoc, admitNext, spec.here]
      simp only [(allowed other).mem_iff, room]
      split
      · exact allowed other
      · exact ((allowed other).cons value).trans (List.perm_append_singleton value _).symm
    · have values : valuesOf other (calls ++ [(dimension, value)]) = valuesOf other calls := by
        simp [valuesOf, Ne.symm same]
      rw [values, spec.elsewhere other same]
      exact allowed other

/-! ### Labels -/

theorem valuesSplit (dimension value : Bytes) (before after : List Call) :
    valuesOf dimension (before ++ (dimension, value) :: after) =
      valuesOf dimension before ++ [value] ++ valuesOf dimension after := by
  simp [valuesOf]

/-- A value is refused unless it is among the first of its dimension. -/
theorem refusesAdmitted {maxVals : Int} {calls : List Call} {cb : CardinalityBudget}
    (tracks : Tracks maxVals calls cb) (dimension value : Bytes) :
    cb.Refuses dimension value ↔ value ∉ admitted (limit maxVals) (valuesOf dimension calls ++ [value]) := by
  have held := tracks.allowed dimension
  have room : cb.maxVals ≤ cb.dimensionSize dimension ↔
      limit maxVals ≤ (admitted (limit maxVals) (valuesOf dimension calls)).length := by
    rw [tracks.limited, CardinalityBudget.dimensionSize, held.length_eq]
    exact Int.ofNat_le
  rw [CardinalityBudget.Refuses, held.mem_iff, room, admittedSnoc, memAdmit, not_not]

theorem labelAdmitted (maxVals : Int) (before : List Call) (dimension value : Bytes) :
    labelAfter maxVals before (dimension, value) =
      if value ∈ admitted (limit maxVals) (valuesOf dimension before ++ [value]) then value else overflowLabel := by
  have refuses := refusesAdmitted (afterTracks maxVals before) dimension value
  rw [labelAfter, (normalizeSpec _ dimension value).label]
  by_cases inside : value ∈ admitted (limit maxVals) (valuesOf dimension before ++ [value])
  · rw [if_neg fun refused => refuses.mp refused inside, if_pos inside]
  · rw [if_pos (refuses.mpr inside), if_neg inside]

theorem labelsFew (maxVals : Int) {calls : List Call} {dimension : Bytes} {labels : List Bytes}
    (distinct : labels.Nodup)
    (yielded : ∀ label ∈ labels, label ≠ overflowLabel ∧ ∃ before value after,
      calls = before ++ (dimension, value) :: after ∧ labelAfter maxVals before (dimension, value) = label) :
    labels.length ≤ limit maxVals := by
  have inside : labels ⊆ admitted (limit maxVals) (valuesOf dimension calls) := by
    intro label listed
    obtain ⟨plain, before, value, after, rfl, same⟩ := yielded label listed
    rw [labelAdmitted] at same
    split at same
    · rename_i kept
      rw [← same, valuesSplit]
      exact (admittedPrefix _ _).subset kept
    · exact absurd same.symm plain
  exact Nat.le_trans (List.subperm_of_subset distinct inside).length_le (admittedLength _)

theorem labelStable (maxVals : Int) (before between : List Call) (dimension value : Bytes) :
    labelAfter maxVals (before ++ (dimension, value) :: between) (dimension, value) =
      labelAfter maxVals before (dimension, value) := by
  have seen : value ∈ valuesOf dimension before ++ [value] := List.mem_append_right _ List.mem_cons_self
  rw [labelAdmitted, labelAdmitted, valuesSplit, List.append_assoc]
  simp only [admittedSettled seen]

theorem overflowsCounted (maxVals : Int) (calls : List Call) :
    ((newCardinalityBudget maxVals).after calls).overflowCount = calls.zipIdx.countP fun call =>
      decide (((newCardinalityBudget maxVals).after (calls.take call.2)).Refuses call.1.1 call.1.2) := by
  induction calls using List.reverseRecOn with
  | nil => rfl
  | append_singleton calls call ih =>
    have step : (newCardinalityBudget maxVals).after (calls ++ [call]) =
        (((newCardinalityBudget maxVals).after calls).normalize call.1 call.2).1 := by
      rw [CardinalityBudget.after, List.foldl_append]
      rfl
    have earlier : ∀ indexed ∈ calls.zipIdx, (calls ++ [call]).take indexed.2 = calls.take indexed.2 := by
      intro indexed member
      have bound := (List.mem_zipIdx member).2.1
      exact List.take_append_of_le_length (by omega)
    rw [step, (normalizeSpec _ call.1 call.2).overflows, ih, List.zipIdx_append, List.countP_append]
    congr 1
    · refine List.countP_congr fun indexed member => ?_
      rw [earlier indexed member]
    · simp [List.zipIdx_cons, List.countP_cons]

/-! ### All sequences -/

structure Budgeted (maxVals : Int) : Prop where
  few : ∀ (calls : List Call) (dimension : Bytes) (labels : List Bytes), labels.Nodup →
    (∀ label ∈ labels, label ≠ overflowLabel ∧ ∃ before value after,
      calls = before ++ (dimension, value) :: after ∧ labelAfter maxVals before (dimension, value) = label) →
    labels.length ≤ limit maxVals
  stable : ∀ (before between : List Call) (dimension value : Bytes),
    labelAfter maxVals (before ++ (dimension, value) :: between) (dimension, value) =
      labelAfter maxVals before (dimension, value)
  apart : ∀ (before other : List Call) (dimension value : Bytes),
    valuesOf dimension before = valuesOf dimension other →
    labelAfter maxVals before (dimension, value) = labelAfter maxVals other (dimension, value)
  admitted : ∀ (before : List Call) (dimension value : Bytes),
    ¬ ((newCardinalityBudget maxVals).after before).Refuses dimension value →
      labelAfter maxVals before (dimension, value) = value
  refused : ∀ (before : List Call) (dimension value : Bytes),
    ((newCardinalityBudget maxVals).after before).Refuses dimension value →
      labelAfter maxVals before (dimension, value) = overflowLabel
  counted : ∀ calls : List Call, ((newCardinalityBudget maxVals).after calls).overflowCount =
    calls.zipIdx.countP fun call =>
      decide (((newCardinalityBudget maxVals).after (calls.take call.2)).Refuses call.1.1 call.1.2)

theorem budgetKeeps (maxVals : Int) : Budgeted maxVals where
  few _ _ _ := labelsFew maxVals
  stable := labelStable maxVals
  apart before other dimension value same := by rw [labelAdmitted, labelAdmitted, same]
  admitted before dimension value granted := (normalizeSpec _ dimension value).label.trans (if_neg granted)
  refused before dimension value refuses := (normalizeSpec _ dimension value).label.trans (if_pos refuses)
  counted := overflowsCounted maxVals

end OmegaLb.Metrics
