import Mathlib.Data.Nat.ChineseRemainder
import Mathlib.Data.Int.ModEq
import Mathlib.Tactic.Ring
import Mathlib.Tactic.LinearCombination
import Mathlib.Tactic.Linarith

/-! Arithmetic progressions computed modulo `N` and only then reduced modulo `m`, as
a 32-bit product is before its remainder is taken. The wrap leaves the values
congruent to the start modulo gcd(step, N); the second reduction still meets every
residue when those values span a full period of the two moduli. -/
namespace OmegaLb.WrappedProgression

theorem reachesCongruent {N s o x : Nat} (bound : x < N) (congruent : x ≡ o [MOD Nat.gcd s N]) :
    ∃ n < N, (o + n * s) % N = x := by
  have positive : (0 : Int) < N := by omega
  obtain ⟨t, distance⟩ := (Nat.modEq_iff_dvd.mp congruent.symm : ((Nat.gcd s N : Nat) : Int) ∣ x - o)
  -- Bezout: gcd(s, N) = s * a + N * b, so t * a steps cover the distance modulo N
  have bezout := Nat.gcd_eq_gcd_ab s N
  have low := Int.emod_nonneg (t * s.gcdA N) positive.ne'
  have high := Int.emod_lt_of_pos (t * s.gcdA N) positive
  refine ⟨(t * s.gcdA N % N).toNat, by omega, ?_⟩
  have steps : (((t * s.gcdA N % N).toNat : Nat) : Int) ≡ t * s.gcdA N [ZMOD N] := by
    rw [Int.toNat_of_nonneg low]
    exact Int.mod_modEq _ _
  have lands : ((o + (t * s.gcdA N % N).toNat * s : Nat) : Int) ≡ x [ZMOD N] := by
    push_cast
    calc (o + ((t * s.gcdA N % N).toNat : Int) * s : Int)
        ≡ o + t * s.gcdA N * s [ZMOD N] := (steps.mul_right _).add_left _
      _ = x - N * (t * s.gcdB N) := by linear_combination -distance - t * bezout
      _ ≡ x [ZMOD N] := by simp [Int.ModEq]
  have same := Int.natCast_modEq_iff.mp lands
  rwa [Nat.ModEq, Nat.mod_eq_of_lt bound] at same

theorem covers {N m o s r : Nat} (step : 0 < s) (coprime : Nat.Coprime (Nat.gcd s N) m)
    (room : Nat.gcd s N * m ≤ N) (residue : r < m) : ∃ n < N, (o + n * s) % N % m = r := by
  have gcdPos : 0 < Nat.gcd s N := Nat.gcd_pos_of_pos_left N step
  let x := Nat.chineseRemainder coprime o r
  have below : (x : Nat) < N :=
    (Nat.chineseRemainder_lt_mul coprime o r gcdPos.ne' (by omega)).trans_le room
  obtain ⟨n, inside, lands⟩ := reachesCongruent below x.2.1
  refine ⟨n, inside, ?_⟩
  rw [lands]
  have meets : (x : Nat) % m = r % m := x.2.2
  rwa [Nat.mod_eq_of_lt residue] at meets

theorem misses {k : Nat} (positive : 0 < k) (o n : Nat) :
    (o + n * k) % (k * k) % (k + 1) ≠ o % k + 1 := by
  have low : (o + n * k) % (k * k) % k = o % k := by
    rw [Nat.mod_mul_left_mod, Nat.add_mul_mod_self_right]
  have small : (o + n * k) % (k * k) / k < k :=
    Nat.div_lt_of_lt_mul (Nat.mod_lt _ (Nat.mul_pos positive positive))
  have split := Nat.div_add_mod ((o + n * k) % (k * k)) k
  rw [low] at split
  generalize (o + n * k) % (k * k) / k = j at *
  generalize (o + n * k) % (k * k) = x at *
  intro same
  -- the value is (k + 1) * j + (o % k) - j, so a remainder of o % k + 1 needs k + 1 ∣ j + 1
  have shifted : x + (j + 1) = o % k + 1 + (k + 1) * j := by linarith
  have residue : o % k + 1 ≡ x + (j + 1) [MOD k + 1] := by
    rw [shifted, Nat.ModEq, Nat.add_mul_mod_self_left]
  have value : o % k + 1 ≡ x [MOD k + 1] := by
    rw [← same]
    exact Nat.mod_modEq _ _
  have cancelled : x + 0 ≡ x + (j + 1) [MOD k + 1] := value.symm.trans residue
  have divides := Nat.ModEq.add_left_cancel' x cancelled
  have zero : j + 1 = 0 := Nat.eq_zero_of_dvd_of_lt ((Nat.modEq_zero_iff_dvd).mp divides.symm) (by omega)
  omega

/-- The residue that `misses` names is the only one missed, from a start that is itself a residue. -/
theorem coversOthers {k o r : Nat} (positive : 0 < k) (start : o ≤ k) (residue : r < k + 1) (other : r ≠ o % k + 1) :
    ∃ n < k, (o + n * k) % (k * k) % (k + 1) = r := by
  have lands : ∀ {n t : Nat}, n < k → o + n * k < k * k → o + n * k = r + t * (k + 1) →
      ∃ n < k, (o + n * k) % (k * k) % (k + 1) = r := by
    intro n t below short value
    refine ⟨n, below, ?_⟩
    rw [Nat.mod_eq_of_lt short, value, Nat.add_mul_mod_self_right, Nat.mod_eq_of_lt residue]
  rcases Nat.lt_or_eq_of_le start with inside | rfl
  · have room : ∀ {n : Nat}, n < k → o + n * k < k * k := fun {n} below => by
      have rows : (n + 1) * k ≤ k * k := Nat.mul_le_mul_right k below
      rw [Nat.succ_mul] at rows
      omega
    rw [Nat.mod_eq_of_lt inside] at other
    by_cases back : r ≤ o
    · obtain ⟨d, rfl⟩ := Nat.exists_eq_add_of_le back
      exact lands (by omega) (room (by omega)) (by ring : r + d + d * k = r + d * (k + 1))
    · -- one turn further, since the step is one less than the modulus
      obtain ⟨d, rfl⟩ := Nat.exists_eq_add_of_le (by omega : r ≤ k)
      have below : o + d + 1 < r + d := by omega
      exact lands below (room below) (by ring : o + (o + d + 1) * (r + d) = r + (o + d) * (r + d + 1))
  · rw [Nat.mod_self, Nat.zero_add] at other
    cases r with
    | zero =>
      cases o with
      | zero => exact absurd positive (Nat.lt_irrefl 0)
      | succ o => exact ⟨o, by omega, by rw [show o + 1 + o * (o + 1) = (o + 1) * (o + 1) by ring]; simp⟩
    | succ r =>
      obtain ⟨d, rfl⟩ := Nat.exists_eq_add_of_le (by omega : r + 1 ≤ o)
      have short : (d + 1) * (r + 1 + d) < (r + 1 + d) * (r + 1 + d) :=
        Nat.mul_lt_mul_of_pos_right (by omega) (by omega)
      refine lands (by omega : d < r + 1 + d) ?_ (by ring : r + 1 + d + d * (r + 1 + d) = r + 1 + d * (r + 1 + d + 1))
      rwa [Nat.succ_mul, Nat.add_comm] at short

end OmegaLb.WrappedProgression
