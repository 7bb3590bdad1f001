import OmegaLb.HaRing

/-! Both hashes against MurmurHash3_x86_32. The loop of ring.go reslices its argument, so the length
it finishes with is that of the bytes left over; proxy.py keeps the length, but does not mask it. -/
namespace OmegaLb.MurmurAgreement
open GoText (Bytes ascii)
open Murmur3 (mixed mixedShort mixedCons mixTail x86_32 lengthTells)
open RingHash (rotl littleEndian murmurBlock murmurBlocks murmurTail murmur3_32)

/-! ### ring.go -/

theorem tailMixed {tail : Bytes} (few : tail.length < 4) (h : UInt32) : murmurTail h tail = mixTail h tail := by
  rcases tail with _ | ⟨a, _ | ⟨b, _ | ⟨c, _ | ⟨d, rest⟩⟩⟩⟩
  · rfl
  · rfl
  · rw [mixTail, ← Murmur3.twoBytes]
    rfl
  · rw [mixTail, ← Murmur3.threeBytes]
    rfl
  · simp only [List.length_cons] at few
    omega

theorem blocksMixed (h : UInt32) (data : Bytes) :
    mixTail (murmurBlocks h data).1 (murmurBlocks h data).2 = mixed data h ∧
      (murmurBlocks h data).2.length = data.length % 4 := by
  fun_induction murmurBlocks h data with
  | case1 h a b c d data ih =>
    obtain ⟨same, left⟩ := ih
    refine ⟨same.trans (mixedCons a b c d data h).symm, left.trans ?_⟩
    simp only [List.length_cons]
    omega
  | case2 h data few =>
    have short : data.length < 4 := by
      rcases data with _ | ⟨a, _ | ⟨b, _ | ⟨c, _ | ⟨d, rest⟩⟩⟩⟩
      · decide
      · simp
      · simp
      · simp
      · exact absurd rfl (few a b c d rest)
    exact ⟨(mixedShort short h).symm, (Nat.mod_eq_of_lt short).symm⟩

theorem goFinishes (data : Bytes) :
    murmur3_32 data = Murmur3.fmix32 (mixed data 0x9747b28c ^^^ UInt32.ofNat (data.length % 4)) := by
  obtain ⟨same, left⟩ := blocksMixed 0x9747b28c data
  have few : (murmurBlocks 0x9747b28c data).2.length < 4 := by omega
  rw [← left, ← same, ← tailMixed few]
  rfl

theorem goReference (data : Bytes) : murmur3_32 data = x86_32 data 0x9747b28c ↔ data.length % 2 ^ 32 < 4 := by
  rw [goFinishes, x86_32, lengthTells, ← UInt32.toNat_inj, UInt32.toNat_ofNat', UInt32.toNat_ofNat']
  omega

/-! ### proxy.py -/

def masked (k : Nat) : Nat := k &&& 0xffffffff

/-- struct.unpack_from("<I", data, offset) -/
def unpackFrom (data : Bytes) (offset : Nat) : Nat :=
  (data.getD offset 0).toNat + (data.getD (offset + 1) 0).toNat * 2 ^ 8 +
    (data.getD (offset + 2) 0).toNat * 2 ^ 16 + (data.getD (offset + 3) 0).toNat * 2 ^ 24

def spun (k : Nat) : Nat :=
  let k := masked (k * 0xcc9e2d51)
  let k := masked ((k <<< 15) ||| (k >>> 17))
  masked (k * 0x1b873593)

def wordIn (h k : Nat) : Nat :=
  let h := h ^^^ spun k
  let h := masked ((h <<< 13) ||| (h >>> 19))
  masked (h * 5 + 0xe6546b64)

def finish (h : Nat) : Nat :=
  let h := h ^^^ (h >>> 16)
  let h := masked (h * 0x85ebca6b)
  let h := h ^^^ (h >>> 13)
  let h := masked (h * 0xc2b2ae35)
  h ^^^ (h >>> 16)

/-- _murmur3_32 of proxy.py, on integers of any size. -/
def proxyMurmur3_32 (data : Bytes) (seed : Nat) : Nat :=
  let length := data.length
  let h := (List.range' 0 ((length - 3 + 3) / 4) 4).foldl (fun h i => wordIn h (unpackFrom data i)) (masked seed)
  let tailLen := length &&& 3
  let h :=
    if tailLen ≠ 0 then h ^^^ spun (unpackFrom (data.drop (length - tailLen) ++ List.replicate (4 - tailLen) 0) 0)
    else h
  finish (h ^^^ length)

theorem maskedLow (k : Nat) : masked k = (UInt32.ofNat k).toNat := by
  rw [UInt32.toNat_ofNat']
  exact Nat.and_two_pow_sub_one_eq_mod k 32

theorem maskedOf (k : UInt32) : masked k.toNat = k.toNat := by
  rw [maskedLow, UInt32.ofNat_toNat]

theorem unpackWord (data : Bytes) (offset : Nat) : unpackFrom data offset =
    (Murmur3.word (data.getD offset 0) (data.getD (offset + 1) 0) (data.getD (offset + 2) 0)
      (data.getD (offset + 3) 0)).toNat := (Murmur3.wordNat _ _ _ _).symm

theorem maskedMul (k c : UInt32) : masked (k.toNat * c.toNat) = (k * c).toNat := by
  rw [maskedLow, UInt32.toNat_ofNat', UInt32.toNat_mul]

theorem maskedSpin {r s : UInt32} (apart : 32 - r = s) (inside : r.toNat < 32 ∧ s.toNat < 32) (k : UInt32) :
    masked ((k.toNat <<< r.toNat) ||| (k.toNat >>> s.toNat)) = (Murmur3.rotl32 k r).toNat := by
  have small : k.toNat >>> s.toNat < 2 ^ 32 := Nat.lt_of_le_of_lt (Nat.shiftRight_le _ _) k.toNat_lt
  rw [maskedLow, UInt32.toNat_ofNat', Murmur3.rotl32, UInt32.toNat_or, UInt32.toNat_shiftLeft,
    UInt32.toNat_shiftRight, apart, Nat.mod_eq_of_lt inside.1, Nat.mod_eq_of_lt inside.2, Nat.or_mod_two_pow,
    Nat.mod_eq_of_lt small]

theorem spunScramble (k : UInt32) : spun k.toNat = (Murmur3.scramble k).toNat := by
  have first := maskedMul k Murmur3.c1
  have turned : _ = _ := maskedSpin (r := 15) (s := 17) rfl (by decide) (k * Murmur3.c1)
  have second := maskedMul (Murmur3.rotl32 (k * Murmur3.c1) 15) Murmur3.c2
  rw [← turned, ← first] at second
  exact second

theorem wordInBlock (h k : UInt32) : wordIn h.toNat k.toNat = (Murmur3.mixBlock h k).toNat := by
  have turned : _ = _ := maskedSpin (r := 13) (s := 19) rfl (by decide) (h ^^^ Murmur3.scramble k)
  have joined : masked ((Murmur3.rotl32 (h ^^^ Murmur3.scramble k) 13).toNat * 5 + 0xe6546b64) =
      (Murmur3.mixBlock h k).toNat := by
    rw [maskedLow, UInt32.toNat_ofNat', Murmur3.mixBlock, UInt32.toNat_add, UInt32.toNat_mul, Nat.mod_add_mod]
    rfl
  rw [← joined, ← turned, UInt32.toNat_xor, ← spunScramble]
  rfl

theorem everyFourth (n k : Nat) : List.range' (4 * k) n 4 = (List.range' k n).map (4 * ·) := by
  induction n generalizing k with
  | zero => rfl
  | succ n ih =>
    rw [List.range'_succ, List.range'_succ, List.map_cons, ← ih (k + 1)]
    rfl

theorem foldBody (data : Bytes) (h : UInt32) :
    (List.range' 0 ((data.length - 3 + 3) / 4) 4).foldl (fun h i => wordIn h (unpackFrom data i)) h.toNat =
      (Murmur3.mixBody data h).toNat := by
  have rounds : (data.length - 3 + 3) / 4 = data.length / 4 := by omega
  have words := everyFourth (data.length / 4) 0
  rw [Nat.mul_zero, ← List.range_eq_range'] at words
  rw [rounds, words, List.foldl_map, Murmur3.mixBody]
  refine List.foldl_hom UInt32.toNat fun h i => ?_
  rw [unpackWord]
  exact wordInBlock h _

theorem finishSettle (x : Nat) : finish x = (Murmur3.settle (UInt32.ofNat (x ^^^ (x >>> 16)))).toNat := by
  have first : masked ((x ^^^ (x >>> 16)) * 0x85ebca6b) = (UInt32.ofNat (x ^^^ (x >>> 16)) * 0x85ebca6b).toNat := by
    rw [maskedLow, UInt32.ofNat_mul]
    rfl
  unfold finish
  dsimp only
  rw [first]
  have shifted (k : UInt32) : k.toNat ^^^ (k.toNat >>> 13) = (k ^^^ (k >>> 13)).toNat := by
    rw [UInt32.toNat_xor, UInt32.toNat_shiftRight]
    rfl
  have second (k : UInt32) : masked (k.toNat * 0xc2b2ae35) = (k * 0xc2b2ae35).toNat := by
    rw [← maskedMul]
    rfl
  rw [shifted, second, Murmur3.settle, UInt32.toNat_xor, UInt32.toNat_shiftRight]
  rfl

theorem xorCancel {a b c : Nat} : a ^^^ b = a ^^^ c ↔ b = c := by
  refine ⟨fun same => ?_, congrArg _⟩
  rw [← Nat.zero_xor b, ← Nat.xor_self a, Nat.xor_assoc, same, ← Nat.xor_assoc, Nat.xor_self, Nat.zero_xor]

/-- The first shift of the finaliser still sees the bits of the length above 2^32. -/
theorem finishWord (h : UInt32) (length : Nat) :
    finish (h.toNat ^^^ length) = (Murmur3.fmix32 (h ^^^ UInt32.ofNat length)).toNat ↔
      length / 2 ^ 32 % 2 ^ 16 = 0 := by
  have low : (h ^^^ UInt32.ofNat length).toNat = (h.toNat ^^^ length) % 2 ^ 32 := by
    rw [UInt32.toNat_xor, UInt32.toNat_ofNat', Nat.xor_mod_two_pow, Nat.mod_eq_of_lt h.toNat_lt]
  have high : (h.toNat ^^^ length) / 2 ^ 32 = length / 2 ^ 32 := by
    rw [Nat.xor_div_two_pow, Nat.div_eq_of_lt h.toNat_lt, Nat.zero_xor]
  have shifted : ((h ^^^ UInt32.ofNat length) >>> 16).toNat = (h.toNat ^^^ length) % 2 ^ 32 / 2 ^ 16 := by
    rw [UInt32.toNat_shiftRight, low, Nat.shiftRight_eq_div_pow]
    rfl
  rw [finishSettle, UInt32.toNat_inj]
  refine (Murmur3.settleInjective.eq_iff (b := (h ^^^ UInt32.ofNat length) ^^^
    ((h ^^^ UInt32.ofNat length) >>> 16))).trans ?_
  rw [← UInt32.toNat_inj, UInt32.toNat_ofNat', Nat.xor_mod_two_pow, UInt32.toNat_xor, low, shifted,
    xorCancel, Nat.shiftRight_eq_div_pow, ← high]
  omega

theorem paddedByte (tail : Bytes) (more i : Nat) :
    (tail ++ List.replicate more 0).getD i 0 = tail.getD i 0 := by
  by_cases inside : i < tail.length
  · exact List.getD_append _ _ _ _ inside
  · rw [List.getD_append_right _ _ _ _ (Nat.not_lt.mp inside), List.getD_eq_default _ _ (Nat.not_lt.mp inside),
      List.getD_eq_getElem?_getD, List.getElem?_replicate]
    split <;> rfl

theorem proxyFinishes (data : Bytes) (seed : UInt32) :
    proxyMurmur3_32 data seed.toNat = finish ((mixed data seed).toNat ^^^ data.length) := by
  have left : data.length &&& 3 = data.length % 4 := Nat.and_two_pow_sub_one_eq_mod data.length 2
  have cut : data.length - data.length % 4 = 4 * (data.length / 4) := by omega
  unfold proxyMurmur3_32
  dsimp only
  rw [maskedOf, foldBody, left, cut, mixed]
  generalize rest : data.drop (4 * (data.length / 4)) = tail
  have size : tail.length = data.length % 4 := by
    rw [← rest, List.length_drop]
    omega
  generalize Murmur3.mixBody data seed = h
  congr 2
  rw [← size]
  by_cases none_ : tail = []
  · subst none_
    rfl
  · have some_ : tail.length ≠ 0 := fun zero => none_ (List.length_eq_zero_iff.mp zero)
    have few : tail.length < 4 := by omega
    rw [if_pos some_, Murmur3.mixTailWord none_ few, UInt32.toNat_xor, unpackWord, spunScramble]
    simp only [paddedByte, Nat.zero_add]

/-! ### The two of them -/

theorem proxyReference (data : Bytes) (seed : UInt32) :
    proxyMurmur3_32 data seed.toNat = (x86_32 data seed).toNat ↔ data.length / 2 ^ 32 % 2 ^ 16 = 0 := by
  rw [proxyFinishes, x86_32]
  exact finishWord _ _

/-- The hash of the proxy's ring, on 32-bit words throughout, is the reference. -/
theorem ringReference (data : Bytes) (seed : UInt32) : HaRing.murmur3_32 data seed = x86_32 data seed := by
  obtain ⟨same, left⟩ := blocksMixed seed data
  have few : (murmurBlocks seed data).2.length < 4 := by omega
  unfold HaRing.murmur3_32
  rw [x86_32, ← same]
  dsimp only
  split
  · rename_i none_
    rw [none_]
    rfl
  · rename_i some_
    rw [Murmur3.mixTailWord some_ few]
    rfl

theorem ringProxy {data : Bytes} (short : data.length < 2 ^ 32) (seed : UInt32) :
    proxyMurmur3_32 data seed.toNat = (HaRing.murmur3_32 data seed).toNat := by
  rw [ringReference]
  exact (proxyReference data seed).mpr (by omega)

/-- ring.go's hash is the reference, and the proxy's, exactly on what ends before its fourth byte,
and on lengths no machine holds. -/
theorem hashesAgree (data : Bytes) :
    (murmur3_32 data = x86_32 data 0x9747b28c ∧ proxyMurmur3_32 data 0x9747b28c = (murmur3_32 data).toNat) ↔
      data.length % 2 ^ 48 < 4 := by
  have reference := goReference data
  have proxy : proxyMurmur3_32 data 0x9747b28c = _ ↔ _ := proxyReference data 0x9747b28c
  constructor
  · rintro ⟨go, same⟩
    rw [go] at same
    have low := reference.mp go
    have high := proxy.mp same
    omega
  · intro short
    have go := reference.mpr (by omega)
    exact ⟨go, go.symm ▸ proxy.mpr (by omega)⟩

/-- Four bytes already tell them apart. -/
theorem fourBytesDiffer : murmur3_32 (ascii "abcd") ≠ x86_32 (ascii "abcd") 0x9747b28c ∧
    proxyMurmur3_32 (ascii "abcd") 0x9747b28c ≠ (murmur3_32 (ascii "abcd")).toNat := by
  decide

end OmegaLb.MurmurAgreement
