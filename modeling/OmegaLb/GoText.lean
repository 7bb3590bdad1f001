import Mathlib.Data.List.Basic
import Mathlib.Tactic.IntervalCases

/-! Byte strings and decimal text as strconv writes and reads it. -/
namespace OmegaLb.GoText

abbrev Bytes := List UInt8

def ascii (s : String) : Bytes := s.toList.map fun c => UInt8.ofNat c.toNat

def decimal (n : Nat) : Bytes := (Nat.toDigits 10 n).map fun c => UInt8.ofNat c.toNat

def isDigit (b : UInt8) : Bool := 48 ≤ b && b ≤ 57

def digitsValue (ds : Bytes) : Nat := ds.foldl (fun acc d => 10 * acc + (d.toNat - 48)) 0

theorem digitByte {c : Char} (digit : c.isDigit = true) :
    (UInt8.ofNat c.toNat).toNat = c.toNat ∧ isDigit (UInt8.ofNat c.toNat) = true := by
  have range : 48 ≤ c.toNat ∧ c.toNat ≤ 57 := by
    simpa [Char.isDigit, UInt32.le_iff_toNat_le] using digit
  have value : (UInt8.ofNat c.toNat).toNat = c.toNat := by
    rw [UInt8.toNat_ofNat']
    exact Nat.mod_eq_of_lt (by omega)
  refine ⟨value, ?_⟩
  simp only [isDigit, Bool.and_eq_true, decide_eq_true_eq, UInt8.le_iff_toNat_le, value]
  exact range

theorem decimalDigits (n : Nat) : ∀ b ∈ decimal n, isDigit b = true := by
  intro b member
  obtain ⟨c, inside, same⟩ := List.mem_map.mp member
  subst same
  exact (digitByte (Nat.isDigit_of_mem_toDigits (by decide) (by decide) inside)).2

theorem decimalNonempty (n : Nat) : decimal n ≠ [] := by
  simp [decimal]

theorem digitsValueDecimal (n : Nat) : digitsValue (decimal n) = n := by
  have fold : ∀ (cs : List Char) (start : Nat), (∀ c ∈ cs, c.isDigit = true) →
      (cs.map fun c => UInt8.ofNat c.toNat).foldl (fun acc d => 10 * acc + (d.toNat - 48)) start =
        Nat.ofDigitChars 10 cs start := by
    intro cs
    induction cs with
    | nil => simp
    | cons c cs ih =>
      intro start digits
      have head := (digitByte (digits c (by simp))).1
      simp only [List.map_cons, List.foldl_cons, head, Nat.ofDigitChars_cons]
      exact ih _ fun x inside => digits x (by simp [inside])
  have digits : ∀ c ∈ Nat.toDigits 10 n, c.isDigit = true :=
    fun c inside => Nat.isDigit_of_mem_toDigits (by decide) (by decide) inside
  unfold digitsValue decimal
  rw [fold _ 0 digits, Nat.ofDigitChars_ten_toDigits]

theorem decimalHead (n : Nat) (positive : 0 < n) :
    ∃ b rest, decimal n = b :: rest ∧ isDigit b = true ∧ b ≠ 48 := by
  induction n using Nat.strongRecOn with
  | ind n ih =>
    by_cases small : n < 10
    · refine ⟨UInt8.ofNat (Nat.digitChar n).toNat, [], ?_, ?_, ?_⟩
      · simp [decimal, Nat.toDigits_of_lt_base small]
      · exact decimalDigits n _ (by simp [decimal, Nat.toDigits_of_lt_base small])
      · interval_cases n <;> decide
    · obtain ⟨b, rest, shape, digit, nonzero⟩ := ih (n / 10) (by omega) (by omega)
      refine ⟨b, rest ++ [UInt8.ofNat (Nat.digitChar (n % 10)).toNat], ?_, digit, nonzero⟩
      unfold decimal at *
      rw [Nat.toDigits_of_base_le (by decide) (by omega)]
      simp [shape]

end OmegaLb.GoText
