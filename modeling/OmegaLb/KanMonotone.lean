import OmegaLb.KanInference

/-! Monotonicity of the symbolic equations of kan_inference.py, between two backends of a call
and between two calls that differ in one backend. -/
namespace OmegaLb.KanInference

variable {K : Type} [Field K] [LinearOrder K]

/-- No coefficient of set_coefficients rewards load. -/
structure KANInference.Penalties (k : KANInference K) : Prop where
  cpu : 0 ≤ k.cpuCoeff
  lat : 0 ≤ k.latCoeff
  err : 0 ≤ k.errCoeff

structure NoWorse (a b : Backend K) : Prop where
  cpu : a.cpu ≤ b.cpu
  lat : a.latMs ≤ b.latMs
  err : a.err ≤ b.err

variable [IsStrictOrderedRing K]

/-! ### Raw scores -/

theorem rawNonneg (k : KANInference K) (b : Backend K) : 0 ≤ k.raw b :=
  mul_nonneg (le_max_left 0 _) (flagNonneg b)

theorem scoresNonneg (k : KANInference K) (backends : List (Backend K)) :
    ∀ x ∈ backends.map k.raw, 0 ≤ x := by
  intro x member
  obtain ⟨b, _, rfl⟩ := List.mem_map.mp member
  exact rawNonneg k b

theorem flagMost (b : Backend K) : flag b ≤ 1 := by
  unfold flag
  split
  · exact le_refl 1
  · exact zero_le_one

theorem rawAntitone {k : KANInference K} (penalties : k.Penalties) {a b : Backend K} (better : NoWorse a b)
    (up : a.health = true) : k.raw b ≤ k.raw a := by
  have cpu := mul_le_mul_of_nonneg_left better.cpu penalties.cpu
  have err := mul_le_mul_of_nonneg_left better.err penalties.err
  have lat : k.latCoeff * a.latMs / 1000 ≤ k.latCoeff * b.latMs / 1000 :=
    div_le_div_of_nonneg_right (mul_le_mul_of_nonneg_left better.lat penalties.lat) (by norm_num)
  have inner : max 0 (1 - k.cpuCoeff * b.cpu - k.latCoeff * b.latMs / 1000 - k.errCoeff * b.err) ≤
      max 0 (1 - k.cpuCoeff * a.cpu - k.latCoeff * a.latMs / 1000 - k.errCoeff * a.err) :=
    max_le_max_left 0 (by linarith)
  have full : flag a = 1 := if_pos up
  unfold KANInference.raw
  rw [full]
  exact mul_le_mul inner (flagMost b) (flagNonneg b) (le_max_left 0 _)

omit [IsStrictOrderedRing K] in
theorem symbolicShares {k : KANInference K} {backends : List (Backend K)}
    (enough : 1 / 10 ^ 9 ≤ (backends.map k.raw).sum) :
    k.inferSymbolic backends = (backends.map k.raw).map (· / (backends.map k.raw).sum) := by
  simp only [KANInference.inferSymbolic, if_neg (not_lt.mpr enough)]

theorem symbolicEven {k : KANInference K} {backends : List (Backend K)}
    (little : (backends.map k.raw).sum < 1 / 10 ^ 9) (up : ∃ b ∈ backends, b.health = true) :
    k.inferSymbolic backends = (backends.map flag).map (· / (backends.map flag).sum) := by
  have some_ : (0 : K) < (backends.map flag).sum := lt_of_lt_of_le zero_lt_one (flagsSome up)
  simp only [KANInference.inferSymbolic, if_pos little, if_pos some_]

/-! ### Two backends of one call, one backend in two calls -/

theorem symbolicOrdered {k : KANInference K} (penalties : k.Penalties) {backends : List (Backend K)}
    {i j : Nat} {a b : Backend K} {x y : K} (first : backends[i]? = some a) (second : backends[j]? = some b)
    (up : a.health = true) (better : NoWorse a b) (own : (k.inferSymbolic backends)[i]? = some x)
    (other : (k.inferSymbolic backends)[j]? = some y) : y ≤ x := by
  by_cases little : (backends.map k.raw).sum < 1 / 10 ^ 9
  · have healthy : ∃ b ∈ backends, b.health = true := ⟨a, List.mem_of_getElem? first, up⟩
    have full : flag a = (1 : K) := if_pos up
    rw [symbolicEven little healthy] at own other
    simp only [List.getElem?_map, first, second, Option.map_some, Option.some.injEq] at own other
    rw [← own, ← other, full]
    exact div_le_div_of_nonneg_right (flagMost b) (zero_le_one.trans (flagsSome healthy))
  · rw [symbolicShares (not_lt.mp little)] at own other
    simp only [List.getElem?_map, first, second, Option.map_some, Option.some.injEq] at own other
    rw [← own, ← other]
    refine div_le_div_of_nonneg_right (rawAntitone penalties better up) ?_
    exact List.sum_nonneg (scoresNonneg k backends)

theorem symbolicRaised {k : KANInference K} (penalties : k.Penalties) {backends : List (Backend K)} {i : Nat}
    {b worse : Backend K} (at_ : backends[i]? = some b) (up : b.health = true) (raised : NoWorse b worse)
    (enough : 1 / 10 ^ 9 ≤ ((backends.set i worse).map k.raw).sum) {j : Nat} {x y : K}
    (before : (k.inferSymbolic backends)[j]? = some x)
    (after : (k.inferSymbolic (backends.set i worse))[j]? = some y) : if j = i then y ≤ x else x ≤ y := by
  have lower := rawAntitone penalties raised up
  have score : (backends.map k.raw)[i]? = some (k.raw b) := by rw [List.getElem?_map, at_, Option.map_some]
  have moved : (backends.set i worse).map k.raw = (backends.map k.raw).set i (k.raw worse) := List.map_set
  rw [moved] at enough
  have positive : 0 < ((backends.map k.raw).set i (k.raw worse)).sum := lt_of_lt_of_le (by positivity) enough
  have larger : 1 / 10 ^ 9 ≤ (backends.map k.raw).sum := by
    have total := Simplex.sumSet score (k.raw worse)
    linarith
  rw [symbolicShares larger, List.getElem?_map] at before
  rw [symbolicShares (moved ▸ enough), moved, List.getElem?_map] at after
  obtain ⟨own, there, rfl⟩ := Option.map_eq_some_iff.mp before
  obtain ⟨own', there', rfl⟩ := Option.map_eq_some_iff.mp after
  split
  · rename_i same
    subst same
    rw [List.getElem?_set_self (List.getElem?_eq_some_iff.mp score).1] at there'
    cases there'
    cases score.symm.trans there
    exact Simplex.shareLowered (scoresNonneg k backends) score lower positive
  · rename_i different
    rw [List.getElem?_set_ne (Ne.symm different), there] at there'
    cases there'
    exact Simplex.shareRaised score lower positive (scoresNonneg k backends own (List.mem_of_getElem? there))

theorem symbolicMonotone {k : KANInference K} (penalties : k.Penalties) (backends : List (Backend K)) :
    (∀ (i j : Nat) (a b : Backend K) (x y : K), backends[i]? = some a → backends[j]? = some b →
      a.health = true → NoWorse a b →
      (k.inferSymbolic backends)[i]? = some x → (k.inferSymbolic backends)[j]? = some y → y ≤ x) ∧
    ∀ (i : Nat) (b worse : Backend K), backends[i]? = some b → b.health = true → NoWorse b worse →
      1 / 10 ^ 9 ≤ ((backends.set i worse).map k.raw).sum →
      ∀ (j : Nat) (x y : K), (k.inferSymbolic backends)[j]? = some x →
        (k.inferSymbolic (backends.set i worse))[j]? = some y → if j = i then y ≤ x else x ≤ y := by
  refine ⟨?_, ?_⟩
  · intro i j a b x y first second up better own other
    exact symbolicOrdered penalties first second up better own other
  · intro i b worse at_ up raised enough j x y before after
    exact symbolicRaised penalties at_ up raised enough before after

def defaults : KANInference ℚ := .init none

def calm : Backend ℚ := ⟨1 / 5, 20, 0, true⟩

def busy : Backend ℚ := ⟨3 / 5, 50, 1 / 100, true⟩

theorem symbolicMonotoneDefaults : defaults.Penalties ∧ NoWorse calm busy ∧
    (∀ x y, (defaults.inferSymbolic [busy, calm])[1]? = some x →
      (defaults.inferSymbolic [busy, calm])[0]? = some y → y ≤ x) ∧
    ∀ j x y, (defaults.inferSymbolic [calm, busy])[j]? = some x →
      (defaults.inferSymbolic [busy, busy])[j]? = some y → if j = 0 then y ≤ x else x ≤ y := by
  have penalties : defaults.Penalties := ⟨by decide +kernel, by decide +kernel, by decide +kernel⟩
  have better : NoWorse calm busy := ⟨by decide +kernel, by decide +kernel, by decide +kernel⟩
  refine ⟨penalties, better, fun x y => ?_, fun j x y => ?_⟩
  · exact (symbolicMonotone penalties [busy, calm]).1 1 0 calm busy x y rfl rfl rfl better
  · exact (symbolicMonotone penalties [calm, busy]).2 0 calm busy rfl rfl better (by decide +kernel) j x y

end OmegaLb.KanInference
