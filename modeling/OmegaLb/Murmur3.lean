import Mathlib.Algebra.Group.Nat.Defs
import Mathlib.Data.Fintype.EquivFin
import Mathlib.Data.List.GetD

/-! MurmurHash3_x86_32: whole words from the front, what is left over as one word more, the number
of bytes, and a finaliser that loses nothing. -/
namespace OmegaLb.Murmur3

def c1 : UInt32 := 0xcc9e2d51
def c2 : UInt32 := 0x1b873593

def rotl32 (x r : UInt32) : UInt32 := (x <<< r) ||| (x >>> (32 - r))

def fmix32 (h : UInt32) : UInt32 :=
  let h := h ^^^ (h >>> 16)
  let h := h * 0x85ebca6b
  let h := h ^^^ (h >>> 13)
  let h := h * 0xc2b2ae35
  h ^^^ (h >>> 16)

def word (a b c d : UInt8) : UInt32 :=
  a.toUInt32 ||| (b.toUInt32 <<< 8) ||| (c.toUInt32 <<< 16) ||| (d.toUInt32 <<< 24)

def getblock32 (data : List UInt8) (i : Nat) : UInt32 :=
  word (data.getD (4 * i) 0) (data.getD (4 * i + 1) 0) (data.getD (4 * i + 2) 0) (data.getD (4 * i + 3) 0)

def scramble (k : UInt32) : UInt32 := rotl32 (k * c1) 15 * c2

def mixBlock (h k : UInt32) : UInt32 := rotl32 (h ^^^ scramble k) 13 * 5 + 0xe6546b64

def mixBody (data : List UInt8) (h : UInt32) : UInt32 :=
  (List.range (data.length / 4)).foldl (fun h i => mixBlock h (getblock32 data i)) h

def mixTail (h : UInt32) : List UInt8 → UInt32
  | [a, b, c] => h ^^^ scramble ((c.toUInt32 <<< 16) ^^^ (b.toUInt32 <<< 8) ^^^ a.toUInt32)
  | [a, b] => h ^^^ scramble ((b.toUInt32 <<< 8) ^^^ a.toUInt32)
  | [a] => h ^^^ scramble a.toUInt32
  | _ => h

def mixed (data : List UInt8) (seed : UInt32) : UInt32 :=
  mixTail (mixBody data seed) (data.drop (4 * (data.length / 4)))

def x86_32 (data : List UInt8) (seed : UInt32) : UInt32 :=
  fmix32 (mixed data seed ^^^ UInt32.ofNat data.length)

example : x86_32 [] 1 = 0x514e28b7 := by decide

example : x86_32 [0x74, 0x65, 0x73, 0x74] 0x9747b28c = 0x704b81dc := by decide

example : x86_32 [0x61, 0x61, 0x61] 0x9747b28c = 0x283e0130 := by decide

/-! ### One word at a time -/

theorem mixBodyShort {data : List UInt8} (short : data.length < 4) (h : UInt32) : mixBody data h = h := by
  rw [mixBody, Nat.div_eq_of_lt short]
  rfl

theorem mixedShort {data : List UInt8} (short : data.length < 4) (seed : UInt32) :
    mixed data seed = mixTail seed data := by
  rw [mixed, mixBodyShort short, Nat.div_eq_of_lt short, Nat.mul_zero, List.drop_zero]

theorem mixBodyCons (a b c d : UInt8) (data : List UInt8) (h : UInt32) :
    mixBody (a :: b :: c :: d :: data) h = mixBody data (mixBlock h (word a b c d)) := by
  have more : (a :: b :: c :: d :: data).length / 4 = data.length / 4 + 1 := by
    simp only [List.length_cons]
    omega
  rw [mixBody, more, List.range_succ_eq_map, List.foldl_cons, List.foldl_map]
  rfl

theorem mixedCons (a b c d : UInt8) (data : List UInt8) (seed : UInt32) :
    mixed (a :: b :: c :: d :: data) seed = mixed data (mixBlock seed (word a b c d)) := by
  have more : 4 * ((a :: b :: c :: d :: data).length / 4) = 4 * (data.length / 4) + 4 := by
    simp only [List.length_cons]
    omega
  rw [mixed, mixed, more, mixBodyCons]
  rfl

/-! ### Bytes that do not overlap -/

theorem orDisjoint {x y : UInt32} (disjoint : x &&& y = 0) : x ||| y = x ^^^ y := by
  apply UInt32.toBitVec_inj.mp
  have apart : x.toBitVec &&& y.toBitVec = 0#32 := congrArg UInt32.toBitVec disjoint
  rw [UInt32.toBitVec_or, UInt32.toBitVec_xor]
  ext i inside
  have here := congrArg (fun v : BitVec 32 => v[i]) apart
  simp only [BitVec.getElem_and, BitVec.getElem_zero] at here
  rw [BitVec.getElem_or, BitVec.getElem_xor]
  cases first : x.toBitVec[i] <;> cases second : y.toBitVec[i] <;> simp_all

theorem shiftDisjoint {x y k : UInt32} (inside : k.toNat < 32) (low : y.toNat < 2 ^ k.toNat) :
    (x <<< k) &&& y = 0 := by
  apply UInt32.toNat_inj.mp
  rw [UInt32.toNat_and, UInt32.toNat_shiftLeft, Nat.mod_eq_of_lt inside]
  apply Nat.eq_of_testBit_eq
  intro i
  rw [Nat.testBit_and, Nat.testBit_mod_two_pow, Nat.testBit_shiftLeft, UInt32.toNat_zero, Nat.zero_testBit]
  by_cases below : i < k.toNat
  · simp [Nat.not_le.mpr below]
  · have high : y.toNat.testBit i = false :=
      Nat.testBit_lt_two_pow (Nat.lt_of_lt_of_le low (Nat.pow_le_pow_right (by decide) (Nat.not_lt.mp below)))
    rw [high, Bool.and_false]

theorem byteSmall (a : UInt8) : a.toUInt32.toNat < 2 ^ 8 := by
  rw [UInt8.toNat_toUInt32]
  exact a.toNat_lt

theorem orAbove {x y k : UInt32} (inside : k.toNat < 32) (low : y.toNat < 2 ^ k.toNat)
    (room : x.toNat * 2 ^ k.toNat < 2 ^ 32) : (y ||| (x <<< k)).toNat = y.toNat + x.toNat * 2 ^ k.toNat := by
  rw [UInt32.toNat_or, UInt32.toNat_shiftLeft, Nat.mod_eq_of_lt inside, Nat.shiftLeft_eq, Nat.mod_eq_of_lt room,
    ← Nat.shiftLeft_eq, Nat.or_comm, ← Nat.shiftLeft_add_eq_or_of_lt low, Nat.shiftLeft_eq, Nat.add_comm]

theorem twoBytesNat (a b : UInt8) :
    (a.toUInt32 ||| (b.toUInt32 <<< 8)).toNat = a.toNat + b.toNat * 2 ^ 8 := by
  have high := byteSmall b
  rw [orAbove (by decide) (byteSmall a) (show b.toUInt32.toNat * 2 ^ 8 < 2 ^ 32 by omega)]
  rfl

theorem threeBytesNat (a b c : UInt8) : (a.toUInt32 ||| (b.toUInt32 <<< 8) ||| (c.toUInt32 <<< 16)).toNat =
    a.toNat + b.toNat * 2 ^ 8 + c.toNat * 2 ^ 16 := by
  have low := byteSmall a
  have middle := byteSmall b
  have high := byteSmall c
  rw [UInt8.toNat_toUInt32] at low middle
  have below : (a.toUInt32 ||| (b.toUInt32 <<< 8)).toNat < 2 ^ 16 := by
    rw [twoBytesNat]
    omega
  rw [orAbove (by decide) below (show c.toUInt32.toNat * 2 ^ 16 < 2 ^ 32 by omega), twoBytesNat]
  rfl

theorem wordNat (a b c d : UInt8) : (word a b c d).toNat =
    a.toNat + b.toNat * 2 ^ 8 + c.toNat * 2 ^ 16 + d.toNat * 2 ^ 24 := by
  have first := byteSmall a
  have second := byteSmall b
  have third := byteSmall c
  have fourth := byteSmall d
  rw [UInt8.toNat_toUInt32] at first second third
  have below : (a.toUInt32 ||| (b.toUInt32 <<< 8) ||| (c.toUInt32 <<< 16)).toNat < 2 ^ 24 := by
    rw [threeBytesNat]
    omega
  rw [word, orAbove (by decide) below (show d.toUInt32.toNat * 2 ^ 24 < 2 ^ 32 by omega), threeBytesNat]
  rfl

theorem twoBytes (a b : UInt8) : (b.toUInt32 <<< 8) ||| a.toUInt32 = (b.toUInt32 <<< 8) ^^^ a.toUInt32 :=
  orDisjoint (shiftDisjoint (by decide) (byteSmall a))

theorem threeBytes (a b c : UInt8) : (c.toUInt32 <<< 16) ||| (b.toUInt32 <<< 8) ||| a.toUInt32 =
    (c.toUInt32 <<< 16) ^^^ (b.toUInt32 <<< 8) ^^^ a.toUInt32 := by
  have low : ((b.toUInt32 <<< 8) ||| a.toUInt32).toNat < 2 ^ 16 := by
    have first := a.toNat_lt
    have second := b.toNat_lt
    rw [UInt32.or_comm, twoBytesNat]
    omega
  rw [UInt32.or_assoc, orDisjoint (shiftDisjoint (by decide) low), twoBytes, ← UInt32.xor_assoc]

theorem mixTailWord {tail : List UInt8} (some_ : tail ≠ []) (few : tail.length < 4) (h : UInt32) :
    mixTail h tail = h ^^^ scramble (word (tail.getD 0 0) (tail.getD 1 0) (tail.getD 2 0) (tail.getD 3 0)) := by
  have nothing (k : UInt32) : (0 : UInt8).toUInt32 <<< k = 0 := UInt32.zero_shiftLeft
  rcases tail with _ | ⟨a, _ | ⟨b, _ | ⟨c, _ | ⟨d, rest⟩⟩⟩⟩
  · exact absurd rfl some_
  · simp only [mixTail, word, List.getD_cons_zero, List.getD_cons_succ, List.getD_nil, nothing, UInt32.or_zero]
  · simp only [mixTail, word, List.getD_cons_zero, List.getD_cons_succ, List.getD_nil, nothing, UInt32.or_zero]
    rw [UInt32.or_comm, twoBytes]
  · simp only [mixTail, word, List.getD_cons_zero, List.getD_cons_succ, List.getD_nil, nothing, UInt32.or_zero]
    rw [UInt32.or_comm, UInt32.or_comm a.toUInt32, ← UInt32.or_assoc, threeBytes]
  · simp only [List.length_cons] at few
    omega

/-! ### The finaliser is one-to-one -/

theorem shiftedOut (x : UInt32) : x >>> 16 >>> 16 = 0 ∧ x >>> 13 >>> 13 >>> 13 = 0 := by
  have small : x.toNat < 2 ^ 32 := x.toNat_lt
  constructor
  · apply UInt32.toNat_inj.mp
    simp only [UInt32.toNat_shiftRight, Nat.shiftRight_eq_div_pow, Nat.div_div_eq_div_mul]
    exact Nat.div_eq_of_lt small
  · apply UInt32.toNat_inj.mp
    simp only [UInt32.toNat_shiftRight, Nat.shiftRight_eq_div_pow, Nat.div_div_eq_div_mul]
    exact Nat.div_eq_of_lt (Nat.lt_of_lt_of_le small (by decide))

def unshift16 (y : UInt32) : UInt32 := y ^^^ (y >>> 16)

def unshift13 (y : UInt32) : UInt32 := y ^^^ ((y >>> 13) ^^^ (y >>> 13 >>> 13))

theorem unshift16Left (x : UInt32) : unshift16 (x ^^^ (x >>> 16)) = x := by
  rw [unshift16, UInt32.shiftRight_xor, (shiftedOut x).1, UInt32.xor_zero, UInt32.xor_assoc,
    UInt32.xor_self, UInt32.xor_zero]

theorem unshift13Left (x : UInt32) : unshift13 (x ^^^ (x >>> 13)) = x := by
  have twice : x >>> 13 ^^^ x >>> 13 >>> 13 ^^^ x >>> 13 >>> 13 = x >>> 13 := by
    rw [UInt32.xor_assoc, UInt32.xor_self, UInt32.xor_zero]
  rw [unshift13, UInt32.shiftRight_xor, UInt32.shiftRight_xor, (shiftedOut x).2, UInt32.xor_zero, twice,
    UInt32.xor_assoc, UInt32.xor_self, UInt32.xor_zero]

def unmix (y : UInt32) : UInt32 := unshift13 (unshift16 y * 0x7ed1b41d) * 0xa5cb9243

/-- What the finaliser does after its first step. -/
def settle (h : UInt32) : UInt32 :=
  let h := h * 0x85ebca6b
  let h := h ^^^ (h >>> 13)
  let h := h * 0xc2b2ae35
  h ^^^ (h >>> 16)

theorem settleInjective : Function.Injective settle := by
  have first : (0x85ebca6b : UInt32) * 0xa5cb9243 = 1 := by decide
  have second : (0xc2b2ae35 : UInt32) * 0x7ed1b41d = 1 := by decide
  have undone : Function.LeftInverse unmix settle := by
    intro x
    unfold unmix settle
    dsimp only
    rw [unshift16Left, UInt32.mul_assoc _ 0xc2b2ae35, second, UInt32.mul_one, unshift13Left,
      UInt32.mul_assoc, first, UInt32.mul_one]
  exact undone.injective

theorem fmix32Injective : Function.Injective fmix32 := by
  intro x y same
  have shifted := settleInjective same
  have left := congrArg unshift16 shifted
  rwa [unshift16Left, unshift16Left] at left

theorem fmix32Onto : Function.Surjective fmix32 := by
  have bounded : Finite UInt32 := Finite.of_injective UInt32.toFin fun _ _ => UInt32.toFin_inj.mp
  exact Finite.surjective_of_injective fmix32Injective

/-- Two lengths finish one hash alike only where they are one and the same. -/
theorem lengthTells {h a b : UInt32} : fmix32 (h ^^^ a) = fmix32 (h ^^^ b) ↔ a = b :=
  ⟨fun same => (UInt32.xor_right_inj h).mp (fmix32Injective same), fun same => same ▸ rfl⟩

end OmegaLb.Murmur3
