import OmegaLb.GoText

/-! UTF-8 as unicode/utf8 reads it: a byte string is cut into encoded runes and
bytes that start none, and each such byte is replaced by U+FFFD. -/
namespace OmegaLb.Utf8
open GoText (Bytes)

def isCont (b : UInt8) : Bool := 0x80 ≤ b && b ≤ 0xBF

def secondOk (a b : UInt8) : Bool :=
  -- no overlong form, no surrogate, nothing past U+10FFFF
  (if a = 0xE0 then 0xA0 else if a = 0xF0 then 0x90 else 0x80) ≤ b &&
    b ≤ (if a = 0xED then 0x9F else if a = 0xF4 then 0x8F else 0xBF)

def rune : Bytes → Option (Bytes × Bytes)
  | [] => none
  | a :: s =>
    if a < 0x80 then some ([a], s)
    else if 0xC2 ≤ a && a ≤ 0xDF then
      match s with
      | b :: s => if isCont b then some ([a, b], s) else none
      | [] => none
    else if 0xE0 ≤ a && a ≤ 0xEF then
      match s with
      | b :: c :: s => if secondOk a b && isCont c then some ([a, b, c], s) else none
      | _ => none
    else if 0xF0 ≤ a && a ≤ 0xF4 then
      match s with
      | b :: c :: d :: s =>
        if secondOk a b && isCont c && isCont d then some ([a, b, c, d], s) else none
      | _ => none
    else none

def IsRune (c : Bytes) : Prop := ∀ s, rune (c ++ s) = some (c, s)

def replacement : Bytes := [0xEF, 0xBF, 0xBD]

/-- The runes of a byte string, `none` for a byte that starts none. -/
def chunks : Nat → Bytes → List (Option Bytes)
  | 0, _ => []
  | fuel + 1, s =>
    match rune s with
    | some (c, rest) => some c :: chunks fuel rest
    | none =>
      match s with
      | [] => []
      | _ :: rest => none :: chunks fuel rest

def runes (s : Bytes) : List (Option Bytes) := chunks s.length s

def coerce (s : Bytes) : Bytes := (runes s).flatMap fun c => c.getD replacement

def Valid (s : Bytes) : Prop := ∃ cs : List Bytes, (∀ c ∈ cs, IsRune c) ∧ s = cs.flatten

/-- The four lengths of an encoded rune, with the tests that lead to each. -/
inductive Encoded : Bytes → Prop where
  | one {a : UInt8} (first : a < 0x80) : Encoded [a]
  | two {a b : UInt8} (high : ¬ a < 0x80) (first : (0xC2 ≤ a && a ≤ 0xDF) = true)
      (follows : isCont b = true) : Encoded [a, b]
  | three {a b c : UInt8} (high : ¬ a < 0x80) (notTwo : ¬ (0xC2 ≤ a && a ≤ 0xDF) = true)
      (first : (0xE0 ≤ a && a ≤ 0xEF) = true) (follows : (secondOk a b && isCont c) = true) :
      Encoded [a, b, c]
  | four {a b c d : UInt8} (high : ¬ a < 0x80) (notTwo : ¬ (0xC2 ≤ a && a ≤ 0xDF) = true)
      (notThree : ¬ (0xE0 ≤ a && a ≤ 0xEF) = true) (first : (0xF0 ≤ a && a ≤ 0xF4) = true)
      (follows : (secondOk a b && isCont c && isCont d) = true) : Encoded [a, b, c, d]

theorem runeEncoded {s c rest : Bytes} (ok : rune s = some (c, rest)) :
    s = c ++ rest ∧ Encoded c := by
  unfold rune at ok
  split at ok
  · contradiction
  · split at ok
    · cases Option.some.inj ok
      exact ⟨rfl, .one ‹_›⟩
    · rename_i high
      split at ok
      · rename_i two
        split at ok
        · split at ok <;> try contradiction
          cases Option.some.inj ok
          exact ⟨rfl, .two high two ‹_›⟩
        · contradiction
      · rename_i notTwo
        split at ok
        · rename_i three
          split at ok
          · split at ok <;> try contradiction
            cases Option.some.inj ok
            exact ⟨rfl, .three high notTwo three ‹_›⟩
          · contradiction
        · rename_i notThree
          split at ok <;> try contradiction
          rename_i four
          split at ok
          · split at ok <;> try contradiction
            cases Option.some.inj ok
            exact ⟨rfl, .four high notTwo notThree four ‹_›⟩
          · contradiction

theorem encodedRune {c : Bytes} (encoded : Encoded c) : IsRune c := by
  intro t
  cases encoded with
  | one first => simp only [List.cons_append, List.nil_append, rune, if_pos first]
  | two high first follows =>
    simp only [List.cons_append, List.nil_append, rune, if_neg high, if_pos first, if_pos follows]
  | three high notTwo first follows =>
    simp only [List.cons_append, List.nil_append, rune, if_neg high, if_neg notTwo, if_pos first,
      if_pos follows]
  | four high notTwo notThree first follows =>
    simp only [List.cons_append, List.nil_append, rune, if_neg high, if_neg notTwo, if_neg notThree,
      if_pos first, if_pos follows]

theorem contHigh {b : UInt8} (cont : isCont b = true) : 0x80 ≤ b := by
  simp only [isCont, Bool.and_eq_true, decide_eq_true_eq] at cont
  exact cont.1

theorem secondHigh {a b : UInt8} (second : secondOk a b = true) : 0x80 ≤ b := by
  simp only [secondOk, Bool.and_eq_true, decide_eq_true_eq] at second
  refine UInt8.le_trans ?_ second.1
  split
  · decide
  · split <;> decide

theorem encodedShape {c : Bytes} (encoded : Encoded c) :
    (∃ a, a < 0x80 ∧ c = [a]) ∨ 2 ≤ c.length ∧ ∀ b ∈ c, 0x80 ≤ b := by
  cases encoded with
  | one first => exact .inl ⟨_, first, rfl⟩
  | two high _ follows =>
    exact .inr ⟨by simp, by simp [UInt8.not_lt.mp high, contHigh follows]⟩
  | three high _ _ follows =>
    obtain ⟨second, third⟩ := Bool.and_eq_true_iff.mp follows
    exact .inr ⟨by simp, by simp [UInt8.not_lt.mp high, secondHigh second, contHigh third]⟩
  | four high _ _ _ follows =>
    obtain ⟨front, fourth⟩ := Bool.and_eq_true_iff.mp follows
    obtain ⟨second, third⟩ := Bool.and_eq_true_iff.mp front
    exact .inr ⟨by simp, by simp [UInt8.not_lt.mp high, secondHigh second, contHigh third,
      contHigh fourth]⟩

theorem isRuneShape {c : Bytes} (isRune : IsRune c) :
    (∃ a, a < 0x80 ∧ c = [a]) ∨ 2 ≤ c.length ∧ ∀ b ∈ c, 0x80 ≤ b :=
  encodedShape (runeEncoded (isRune [])).2

theorem runeNonempty {c : Bytes} (isRune : IsRune c) : c ≠ [] := by
  intro empty
  have bad := isRune []
  rw [empty] at bad
  contradiction

theorem asciiRune {b : UInt8} (small : b < 0x80) : IsRune [b] := encodedRune (.one small)

theorem replacementRune : IsRune replacement := fun s => by
  simp [rune, replacement, secondOk, isCont]

theorem chunksRunes {fuel : Nat} {s c : Bytes} (member : some c ∈ chunks fuel s) : IsRune c := by
  induction fuel generalizing s with
  | zero => simp [chunks] at member
  | succ fuel ih =>
    unfold chunks at member
    split at member
    · rename_i ok
      rcases List.mem_cons.mp member with same | rest
      · cases Option.some.inj same
        exact encodedRune (runeEncoded ok).2
      · exact ih rest
    · split at member
      · simp at member
      · rcases List.mem_cons.mp member with same | rest
        · contradiction
        · exact ih rest

theorem chunksRune {fuel : Nat} {s c rest : Bytes} (ok : rune s = some (c, rest)) :
    chunks (fuel + 1) s = some c :: chunks fuel rest := by
  simp only [chunks, ok]

theorem chunksFlatten {fuel : Nat} {cs : List Bytes} (all : ∀ c ∈ cs, IsRune c)
    (enough : cs.flatten.length ≤ fuel) : chunks fuel cs.flatten = cs.map some := by
  induction cs generalizing fuel with
  | nil => cases fuel <;> simp [chunks, rune]
  | cons c cs ih =>
    have head := all c List.mem_cons_self
    have positive := List.length_pos_iff.mpr (runeNonempty head)
    rw [List.flatten_cons, List.length_append] at enough
    obtain ⟨fuel, rfl⟩ : ∃ n, fuel = n + 1 := ⟨fuel - 1, by omega⟩
    have tail := @ih fuel (fun x member => all x (List.mem_cons_of_mem c member)) (by omega)
    rw [List.flatten_cons, chunksRune (head cs.flatten), tail, List.map_cons]

theorem coerceFlatten {cs : List Bytes} (all : ∀ c ∈ cs, IsRune c) : coerce cs.flatten = cs.flatten := by
  rw [coerce, runes, chunksFlatten all (Nat.le_refl _), List.flatMap_map]
  simp [List.flatMap_def]

theorem coerceValid {s : Bytes} (valid : Valid s) : coerce s = s := by
  obtain ⟨cs, all, rfl⟩ := valid
  exact coerceFlatten all

theorem validCoerce (s : Bytes) : Valid (coerce s) := by
  refine ⟨(runes s).map fun c => c.getD replacement, ?_, ?_⟩
  · intro c member
    obtain ⟨chunk, inside, same⟩ := List.mem_map.mp member
    rw [← same]
    cases chunk with
    | none => exact replacementRune
    | some r => exact chunksRunes inside
  · rw [coerce, List.flatMap_def]

theorem validAscii {s : Bytes} (all : s.all (fun b => b < 0x80) = true) : Valid s := by
  refine ⟨s.map fun b => [b], ?_, ?_⟩
  · intro c member
    obtain ⟨b, inside, same⟩ := List.mem_map.mp member
    rw [← same]
    exact asciiRune (by simpa using List.all_eq_true.mp all b inside)
  · rw [← List.flatMap_def]
    simp

end OmegaLb.Utf8
