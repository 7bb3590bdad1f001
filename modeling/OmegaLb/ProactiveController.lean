import OmegaLb.HaRingRuns
import OmegaLb.StepRun
import Mathlib.Algebra.Order.Floor.Semiring
import Mathlib.Data.Rat.Floor
import Mathlib.Tactic.FieldSimp
import Mathlib.Tactic.Linarith
import Mathlib.Tactic.Ring

/-! ProactiveController of the Python proxy over exact rationals. The ring and the metrics have the
same backends, so every index of the two loops is one of the ring, and a count is never negative, so
int() of what is computed from it rounds down. -/
namespace OmegaLb.Proactive
open HaRing (HAring clamp getDSet)
open StepRun (Run Guarded eachGuarded)

/-- What a step reads of MetricsStore: the columns of load_hist, the last of them once more, as the
aggregation thread may have moved on, and the flags. -/
structure Observed where
  columns : Nat
  load : Nat → Nat → ℚ
  perBackendLoad : Nat → ℚ
  health : Nat → Bool

structure ProactiveController where
  ring : HAring
  proactiveActive : Bool
  vnodeCounts : List Nat

def Observed.meanLoad (m : Observed) (n j : Nat) : ℚ :=
  ((List.range n).map fun i => m.load i (m.columns - 10 + j)).sum / n

def dot (v u : List ℚ) : ℚ := (List.zipWith (· * ·) v u).sum

def Observed.slope (m : Observed) (n : Nat) : ℚ :=
  let meanLoad := (List.range 10).map (m.meanLoad n)
  let xs := (List.range 10).map fun (j : Nat) => (j : ℚ) - 9 / 2
  let denom := dot xs xs
  if denom > 0 then dot xs meanLoad / denom else 0

def shed (m : Observed) (ring : HAring) (i : Nat) : HAring :=
  if m.perBackendLoad i > 7 / 10 ∧ m.health i then
    ring.putVnodes i (max 50 ⌊(ring.vnodes.getD i 0 : ℚ) * (97 / 100)⌋)
  else ring

def restore (counts : List Nat) (ring : HAring) (i : Nat) : HAring :=
  if counts.getD i 0 < 148 then
    ring.putVnodes i ⌊(counts.getD i 0 : ℚ) * (99 / 100) + 150 * (1 / 100)⌋
  else ring

def ProactiveController.step (c : ProactiveController) (m : Observed) : ProactiveController :=
  if m.columns < 10 then c
  else if m.slope c.ring.n * 30 > 3 / 4 then
    let ring := (List.range c.ring.n).foldl (shed m) c.ring
    ⟨ring, true, ring.vnodes⟩
  else
    let counts := c.ring.vnodes
    let ring := (List.range counts.length).foldl (restore counts) c.ring
    ⟨ring, false, ring.vnodes⟩

def ProactiveController.count (c : ProactiveController) (i : Nat) : Nat := c.ring.vnodes.getD i 0

/-! ### What is promised -/

def Rising (c : ProactiveController) (m : Observed) : Prop := 10 ≤ m.columns ∧ m.slope c.ring.n * 30 > 3 / 4

def Falling (c : ProactiveController) (m : Observed) : Prop := 10 ≤ m.columns ∧ ¬ m.slope c.ring.n * 30 > 3 / 4

def Hot (m : Observed) (i : Nat) : Prop := m.health i = true ∧ m.perBackendLoad i > 7 / 10

structure Sheds (c : ProactiveController) (m : Observed) (d : ProactiveController) : Prop where
  rising : Rising c m → ∀ i, i < c.ring.n → d.count i ≤ c.count i ∧
    (Hot m i → 50 < c.count i → d.count i < c.count i)
  falling : Falling c m → ∀ i, i < c.ring.n → (c.count i < 148 → c.count i < d.count i) ∧
    (148 ≤ c.count i → d.count i = c.count i)

def Steps (c : ProactiveController) (m : Observed) (d : ProactiveController) : Prop := c.step m = d

def Falls (c : ProactiveController) (m : Observed) (d : ProactiveController) : Prop := Falling c m ∧ Steps c m d

/-- Enough steps of the other branch, whatever they observe, bring every count to 148. -/
def Restores (c : ProactiveController) : Prop :=
  ∃ enough, ∀ ms d, enough ≤ ms.length → Run Falls c ms d →
    ∀ i, i < c.ring.n → 148 ≤ d.count i

/-- No hot backend is under the floor that shedding has, and none is where restoring rounds back. -/
def Clear (c : ProactiveController) (m : Observed) : Prop :=
  (Rising c m → ∀ i, i < c.ring.n → Hot m i → 50 ≤ c.count i) ∧
    (Falling c m → ∀ i, i < c.ring.n → c.count i ≤ 50 ∨ 148 ≤ c.count i)

/-! ### One count -/

theorem shedCount {count : Nat} (high : count ≤ 300) :
    clamp (max 50 ⌊(count : ℚ) * (97 / 100)⌋) = max 50 (count * 97 / 100) := by
  have floor : ⌊(count : ℚ) * (97 / 100)⌋ = ((count * 97 / 100 : Nat) : Int) := by
    have same : (count : ℚ) * (97 / 100) = ((count * 97 : Nat) : ℚ) / ((100 : Nat) : ℚ) := by
      push_cast
      ring
    rw [same, Rat.floor_natCast_div_natCast, Int.natCast_ediv]
  rw [floor]
  unfold clamp
  omega

theorem restoreCount {count : Nat} (low : 10 ≤ count) (high : count < 148) :
    clamp ⌊(count : ℚ) * (99 / 100) + 150 * (1 / 100)⌋ = if count ≤ 50 then count + 1 else count := by
  have floor : ⌊(count : ℚ) * (99 / 100) + 150 * (1 / 100)⌋ = (((count * 99 + 150) / 100 : Nat) : Int) := by
    have same : (count : ℚ) * (99 / 100) + 150 * (1 / 100) = ((count * 99 + 150 : Nat) : ℚ) / ((100 : Nat) : ℚ) := by
      push_cast
      ring
    rw [same, Rat.floor_natCast_div_natCast, Int.natCast_ediv]
  rw [floor]
  unfold clamp
  split <;> omega

/-! ### One step -/

/-- A loop that sets the count of each backend in its turn from that count alone. -/
theorem loopCounts {f : HAring → Nat → HAring} {g : Nat → Nat → Nat} {ring : HAring}
    (own : ∀ r i, i < ring.n → r.n = ring.n → r.vnodes.getD i 0 = ring.vnodes.getD i 0 →
      (f r i).vnodes = r.vnodes.set i (g i (r.vnodes.getD i 0))) {k : Nat} (within : k ≤ ring.n) :
    ((List.range k).foldl f ring).n = ring.n ∧ ∀ i, ((List.range k).foldl f ring).vnodes.getD i 0 =
      if i < k then g i (ring.vnodes.getD i 0) else ring.vnodes.getD i 0 := by
  induction k with
  | zero => exact ⟨rfl, fun i => (if_neg (Nat.not_lt_zero i)).symm⟩
  | succ k ih =>
    obtain ⟨size, counts⟩ := ih (Nat.le_of_succ_le within)
    have here := counts k
    rw [if_neg (Nat.lt_irrefl k)] at here
    have set_ := own _ k within size here
    rw [List.range_succ, List.foldl_append, List.foldl_cons, List.foldl_nil]
    generalize (List.range k).foldl f ring = r at size counts here set_ ⊢
    refine ⟨?_, fun i => ?_⟩
    · rw [HAring.n, set_, List.length_set]
      exact size
    · have inside : k < r.n := by omega
      rw [set_, getDSet _ _ _ inside]
      by_cases same : i = k
      · subst same
        rw [if_pos rfl, if_pos (Nat.lt_succ_self i), here]
      · rw [if_neg same, counts i]
        by_cases before : i < k
        · rw [if_pos before, if_pos (Nat.lt_succ_of_lt before)]
        · rw [if_neg before, if_neg (by omega)]

theorem setSame (counts : List Nat) (i : Nat) : counts.set i (counts.getD i 0) = counts := by
  rcases Nat.lt_or_ge i counts.length with inside | beyond
  · rw [List.getD_eq_getElem _ _ inside, List.set_getElem_self]
  · exact List.set_eq_of_length_le beyond

theorem countRange (r : HAring) {i : Nat} (inside : i < r.n) :
    10 ≤ r.vnodes.getD i 0 ∧ r.vnodes.getD i 0 ≤ 300 := by
  rw [List.getD_eq_getElem _ _ inside]
  exact r.clamped _ (List.getElem_mem inside)

def shedTo (count : Nat) : Nat := max 50 (count * 97 / 100)

def restoreTo (count : Nat) : Nat := if count ≤ 50 then count + 1 else count

instance (m : Observed) (i : Nat) : Decidable (Hot m i) := inferInstanceAs (Decidable (_ ∧ _))

theorem vnodesPut (r : HAring) (k : Nat) (count : Int) :
    (r.putVnodes k count).vnodes = r.vnodes.set k (clamp count) := rfl

theorem risingStep {c : ProactiveController} {m : Observed} (rising : Rising c m) :
    (c.step m).ring.n = c.ring.n ∧ ∀ i, i < c.ring.n →
      (c.step m).count i = if Hot m i then shedTo (c.count i) else c.count i := by
  have own : ∀ (r : HAring) i, i < c.ring.n → r.n = c.ring.n → r.vnodes.getD i 0 = c.ring.vnodes.getD i 0 →
      (shed m r i).vnodes =
        r.vnodes.set i (if Hot m i then shedTo (r.vnodes.getD i 0) else r.vnodes.getD i 0) := by
    intro r i inside size _
    unfold shed
    by_cases hot : Hot m i
    · rw [if_pos ⟨hot.2, hot.1⟩, if_pos hot, vnodesPut, shedCount (countRange r (size ▸ inside)).2, shedTo]
    · rw [if_neg fun both => hot ⟨both.2, both.1⟩, if_neg hot, setSame]
  obtain ⟨size, counts⟩ := loopCounts (g := fun i count => if Hot m i then shedTo count else count) own
    (Nat.le_refl c.ring.n)
  simp only [ProactiveController.step, if_neg (Nat.not_lt.mpr rising.1), if_pos rising.2]
  refine ⟨size, fun i inside => ?_⟩
  rw [ProactiveController.count, counts i, if_pos inside, ProactiveController.count]

theorem fallingStep {c : ProactiveController} {m : Observed} (falling : Falling c m) :
    (c.step m).ring.n = c.ring.n ∧ ∀ i, i < c.ring.n →
      (c.step m).count i = if c.count i < 148 then restoreTo (c.count i) else c.count i := by
  have own : ∀ (r : HAring) i, i < c.ring.n → r.n = c.ring.n → r.vnodes.getD i 0 = c.ring.vnodes.getD i 0 →
      (restore c.ring.vnodes r i).vnodes = r.vnodes.set i
        (if r.vnodes.getD i 0 < 148 then restoreTo (r.vnodes.getD i 0) else r.vnodes.getD i 0) := by
    intro r i inside size same
    unfold restore
    rw [← same]
    by_cases low : r.vnodes.getD i 0 < 148
    · rw [if_pos low, if_pos low, vnodesPut, restoreCount (countRange r (size ▸ inside)).1 low, restoreTo]
    · rw [if_neg low, if_neg low, setSame]
  obtain ⟨size, counts⟩ := loopCounts (g := fun _ count => if count < 148 then restoreTo count else count) own
    (Nat.le_refl c.ring.n)
  simp only [ProactiveController.step, if_neg (Nat.not_lt.mpr falling.1), if_neg falling.2]
  refine ⟨size, fun i inside => ?_⟩
  rw [ProactiveController.count, ProactiveController.count]
  exact (counts i).trans (if_pos inside)

theorem shedsExact (c : ProactiveController) (m : Observed) : Sheds c m (c.step m) ↔ Clear c m := by
  constructor
  · intro sheds
    refine ⟨fun rising i inside hot => ?_, fun falling i inside => ?_⟩
    · have most := (sheds.rising rising i inside).1
      rw [(risingStep rising).2 i inside, if_pos hot, shedTo] at most
      omega
    · have moves := (sheds.falling falling i inside).1
      rw [(fallingStep falling).2 i inside, restoreTo] at moves
      split at moves
      · split at moves <;> omega
      · omega
  · rintro ⟨floor, gap⟩
    refine ⟨fun rising i inside => ?_, fun falling i inside => ?_⟩
    · rw [(risingStep rising).2 i inside, shedTo]
      split
      · rename_i hot
        have above := floor rising i inside hot
        exact ⟨by omega, fun _ more => by omega⟩
      · rename_i cool
        exact ⟨Nat.le_refl _, fun hot => absurd hot cool⟩
    · have place := gap falling i inside
      rw [(fallingStep falling).2 i inside, restoreTo]
      constructor
      · intro low
        rw [if_pos low]
        split <;> omega
      · intro high
        rw [if_neg (Nat.not_lt.mpr high)]

/-! ### Runs -/

/-- Without a rise every count stays on its side of 148. -/
theorem fallsSide {c d : ProactiveController} {ms : List Observed} (run : Run Falls c ms d) :
    d.ring.n = c.ring.n ∧ ∀ i, i < c.ring.n → (148 ≤ d.count i ↔ 148 ≤ c.count i) := by
  induction run with
  | nil c => exact ⟨rfl, fun _ _ => Iff.rfl⟩
  | cons head _ ih =>
    obtain ⟨falling, rfl⟩ := head
    obtain ⟨size, counts⟩ := fallingStep falling
    rw [size] at ih
    refine ⟨ih.1, fun i inside => (ih.2 i inside).trans ?_⟩
    rw [counts i inside, restoreTo]
    split
    · split <;> omega
    · exact Iff.rfl

def calm : Observed := ⟨10, fun _ _ => 0, fun _ => 0, fun _ => true⟩

theorem calmFalling (c : ProactiveController) : Falling c calm := by
  refine ⟨Nat.le_refl 10, ?_⟩
  have flat : calm.slope c.ring.n = 0 := by
    have mean : ∀ j, calm.meanLoad c.ring.n j = 0 := by simp [Observed.meanLoad, calm]
    simp [Observed.slope, dot, mean, List.range_succ]
  rw [flat]
  norm_num

theorem calmRun (steps : Nat) (c : ProactiveController) : ∃ d, Run Falls c (List.replicate steps calm) d := by
  induction steps generalizing c with
  | zero => exact ⟨c, .nil c⟩
  | succ steps ih =>
    obtain ⟨d, rest⟩ := ih (c.step calm)
    exact ⟨d, .cons ⟨calmFalling c, rfl⟩ rest⟩

theorem restoresExact (c : ProactiveController) : Restores c ↔ ∀ i, i < c.ring.n → 148 ≤ c.count i := by
  constructor
  · rintro ⟨enough, restored⟩ i inside
    obtain ⟨d, run⟩ := calmRun enough c
    have reached := restored _ d (List.length_replicate ..).ge run i inside
    exact ((fallsSide run).2 i inside).mp reached
  · intro high
    exact ⟨0, fun ms d _ run i inside => ((fallsSide run).2 i inside).mpr (high i inside)⟩

theorem proactiveRuns (c : ProactiveController) :
    (∀ ms d, Run (fun c m d => Steps c m d ∧ Sheds c m d) c ms d ↔ Run (Guarded Clear Steps) c ms d) ∧
      (Restores c ↔ ∀ i, i < c.ring.n → 148 ≤ c.count i) := by
  refine ⟨fun ms d => ?_, restoresExact c⟩
  have exact_ : ∀ c m d, True → Steps c m d → (Sheds c m d ↔ Clear c m) := by
    intro c m d _ step
    rw [← step]
    exact shedsExact c m
  exact eachGuarded (fun _ _ _ known _ => known) exact_ trivial

def uniform (n count : Nat) (within : 10 ≤ count ∧ count ≤ 300) : ProactiveController :=
  ⟨HaRing.start n count within, false, []⟩

/-- Every load has risen by a tenth a second, to 0.9. -/
def rush : Observed := ⟨10, fun _ j => j / 10, fun _ => 9 / 10, fun _ => true⟩

/-- A hot backend at 10 gets 50; one at 51 stays there for ever. -/
theorem proactiveStuck : ¬ Sheds (uniform 1 10 (by decide)) rush ((uniform 1 10 (by decide)).step rush) ∧
    ¬ Sheds (uniform 1 51 (by decide)) calm ((uniform 1 51 (by decide)).step calm) ∧
    ¬ Restores (uniform 1 51 (by decide)) := by
  refine ⟨fun sheds => ?_, fun sheds => ?_, fun restores => ?_⟩
  · have rising : Rising (uniform 1 10 (by decide)) rush := ⟨by decide, by decide +kernel⟩
    have hot : Hot rush 0 := ⟨rfl, by decide +kernel⟩
    have most := (sheds.rising rising 0 (by decide)).1
    rw [(risingStep rising).2 0 (by decide), if_pos hot] at most
    exact absurd most (by decide)
  · have moves := (sheds.falling (calmFalling _) 0 (by decide)).1 (by decide)
    rw [(fallingStep (calmFalling _)).2 0 (by decide)] at moves
    exact absurd moves (by decide)
  · exact absurd ((restoresExact _).mp restores 0 (by decide)) (by decide)

end OmegaLb.Proactive
