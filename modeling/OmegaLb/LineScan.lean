import OmegaLb.GoText

/-! Lines of a byte string and the bufio.Scanner over them: a newline ends a line, a
trailing carriage return is dropped, the bytes after the last newline are a last token.
A line that does not fit the buffer stops the scan, with the buffer full. -/
namespace OmegaLb.LineScan
open GoText (Bytes)

def newline : UInt8 := 10
def carriageReturn : UInt8 := 13

def split : Bytes → List Bytes × Bytes
  | [] => ([], [])
  | b :: s =>
    match split s with
    | (lines, tail) =>
      if b = newline then ([] :: lines, tail)
      else match lines with
        | [] => ([], b :: tail)
        | line :: lines => ((b :: line) :: lines, tail)

def dropCR (line : Bytes) : Bytes :=
  if line.getLast? = some carriageReturn then line.dropLast else line

structure Scan where
  tokens : List Bytes
  offset : Nat
  tooLong : Bool
  deriving DecidableEq, Repr

def scanLines (limit : Nat) : List Bytes → Bytes → Scan
  | [], tail =>
    if limit ≤ tail.length then ⟨[], limit, true⟩
    else ⟨if tail = [] then [] else [dropCR tail], tail.length, false⟩
  | line :: lines, tail =>
    if limit ≤ line.length then ⟨[], limit, true⟩
    else
      let rest := scanLines limit lines tail
      ⟨dropCR line :: rest.tokens, line.length + 1 + rest.offset, rest.tooLong⟩

def scan (limit : Nat) (s : Bytes) : Scan := scanLines limit (split s).1 (split s).2

def join (lines : List Bytes) (tail : Bytes) : Bytes :=
  lines.flatMap (fun line => line ++ [newline]) ++ tail

def Breakless (s : Bytes) : Prop := newline ∉ s

theorem splitBreakless {tail : Bytes} (clean : Breakless tail) : split tail = ([], tail) := by
  induction tail with
  | nil => rfl
  | cons b tail ih =>
    obtain ⟨head, rest⟩ := not_or.mp (List.mem_cons.not.mp clean)
    rw [split, ih rest]
    simp [Ne.symm head]

theorem splitLine {line : Bytes} (clean : Breakless line) (s : Bytes) :
    split (line ++ newline :: s) = (line :: (split s).1, (split s).2) := by
  induction line with
  | nil => rw [List.nil_append, split]; simp
  | cons b line ih =>
    obtain ⟨head, rest⟩ := not_or.mp (List.mem_cons.not.mp clean)
    rw [List.cons_append, split, ih rest]
    simp [Ne.symm head]

theorem splitJoin {lines : List Bytes} {tail : Bytes} (clean : ∀ line ∈ lines, Breakless line)
    (cleanTail : Breakless tail) : split (join lines tail) = (lines, tail) := by
  induction lines with
  | nil => exact splitBreakless cleanTail
  | cons line lines ih =>
    have rest := ih fun x member => clean x (List.mem_cons_of_mem line member)
    have shape : join (line :: lines) tail = line ++ newline :: join lines tail := by
      simp [join]
    rw [shape, splitLine (clean line List.mem_cons_self), rest]

theorem splitSpec (s : Bytes) : s = join (split s).1 (split s).2 ∧
    (∀ line ∈ (split s).1, Breakless line) ∧ Breakless (split s).2 := by
  induction s with
  | nil => exact ⟨rfl, by simp [split], by simp [split, Breakless]⟩
  | cons b s ih =>
    obtain ⟨whole, clean, cleanTail⟩ := ih
    rcases cut : split s with ⟨lines, tail⟩
    rw [cut] at whole clean cleanTail
    by_cases ends : b = newline
    · subst ends
      have shape : split (newline :: s) = ([] :: lines, tail) := by simp [split, cut]
      rw [shape]
      refine ⟨by simp [join, whole], fun line member => ?_, cleanTail⟩
      rcases List.mem_cons.mp member with rfl | inside
      · exact List.not_mem_nil
      · exact clean line inside
    · cases lines with
      | nil =>
        have shape : split (b :: s) = ([], b :: tail) := by simp [split, cut, ends]
        rw [shape]
        refine ⟨by simpa [join] using whole, by simp, ?_⟩
        simpa [Breakless, Ne.symm ends] using cleanTail
      | cons line lines =>
        have shape : split (b :: s) = ((b :: line) :: lines, tail) := by simp [split, cut, ends]
        rw [shape]
        refine ⟨by simpa [join] using whole, fun x member => ?_, cleanTail⟩
        rcases List.mem_cons.mp member with rfl | inside
        · have head := clean line List.mem_cons_self
          simpa [Breakless, Ne.symm ends] using head
        · exact clean x (List.mem_cons_of_mem line inside)

theorem splitAppend (s : Bytes) {part : Bytes} (clean : Breakless part) :
    split (s ++ part) = ((split s).1, (split s).2 ++ part) := by
  obtain ⟨whole, lines, tail⟩ := splitSpec s
  have glued : s ++ part = join (split s).1 ((split s).2 ++ part) := by
    rw [join, ← List.append_assoc, ← join, ← whole]
  have cleanTail : Breakless ((split s).2 ++ part) := by
    simpa [Breakless] using ⟨tail, clean⟩
  rw [glued, splitJoin lines cleanTail]

theorem splitAppendLine (s : Bytes) {line : Bytes} (clean : Breakless line) :
    split (s ++ (line ++ [newline])) = ((split s).1 ++ [(split s).2 ++ line], []) := by
  obtain ⟨whole, lines, tail⟩ := splitSpec s
  have glued : s ++ (line ++ [newline]) = join ((split s).1 ++ [(split s).2 ++ line]) [] := by
    conv => lhs; rw [whole]
    simp [join]
  have cleanLines : ∀ x ∈ (split s).1 ++ [(split s).2 ++ line], Breakless x := by
    intro x member
    rcases List.mem_append.mp member with inside | last
    · exact lines x inside
    · rw [List.mem_singleton.mp last]
      simpa [Breakless] using ⟨tail, clean⟩
  rw [glued, splitJoin cleanLines List.not_mem_nil]

/-! ### Scans that reach the end -/

def Fits (limit : Nat) (s : Bytes) : Prop :=
  (∀ line ∈ (split s).1, line.length < limit) ∧ (split s).2.length < limit

instance (limit : Nat) (s : Bytes) : Decidable (Fits limit s) :=
  inferInstanceAs (Decidable ((∀ line ∈ (split s).1, line.length < limit) ∧ (split s).2.length < limit))

theorem fitsAppend {limit : Nat} {s part : Bytes} (clean : Breakless part)
    (fits : Fits limit (s ++ part)) : Fits limit s := by
  rw [Fits, splitAppend s clean, List.length_append] at fits
  exact ⟨fits.1, by omega⟩

theorem fitsAppendLine {limit : Nat} {s line : Bytes} (clean : Breakless line)
    (fits : Fits limit (s ++ (line ++ [newline]))) : Fits limit s := by
  rw [Fits, splitAppendLine s clean] at fits
  have last := fits.1 _ (List.mem_append_right _ List.mem_cons_self)
  rw [List.length_append] at last
  exact ⟨fun x member => fits.1 x (List.mem_append_left _ member), by omega⟩

def tokens (s : Bytes) : List Bytes :=
  (split s).1.map dropCR ++ if (split s).2 = [] then [] else [dropCR (split s).2]

theorem scanLinesFits {limit : Nat} {lines : List Bytes} {tail : Bytes}
    (short : ∀ line ∈ lines, line.length < limit) (shortTail : tail.length < limit) :
    scanLines limit lines tail =
      ⟨lines.map dropCR ++ if tail = [] then [] else [dropCR tail], (join lines tail).length, false⟩ := by
  induction lines with
  | nil => simp [scanLines, join, Nat.not_le.mpr shortTail]
  | cons line lines ih =>
    have head := short line List.mem_cons_self
    have rest := ih fun x member => short x (List.mem_cons_of_mem line member)
    rw [scanLines, if_neg (Nat.not_le.mpr head), rest]
    simp [join]
    omega

theorem scanFits {limit : Nat} {s : Bytes} (fits : Fits limit s) :
    scan limit s = ⟨tokens s, s.length, false⟩ := by
  rw [scan, scanLinesFits fits.1 fits.2, ← (splitSpec s).1, tokens]

theorem fitsOfScan {limit : Nat} {s : Bytes} (whole : (scan limit s).tooLong = false) :
    Fits limit s := by
  have each : ∀ lines tail, (scanLines limit lines tail).tooLong = false →
      (∀ line ∈ lines, line.length < limit) ∧ tail.length < limit := by
    intro lines tail ok
    induction lines with
    | nil =>
      rw [scanLines] at ok
      split at ok
      · contradiction
      · rename_i short
        exact ⟨by simp, Nat.not_le.mp short⟩
    | cons line lines ih =>
      rw [scanLines] at ok
      split at ok
      · contradiction
      · rename_i short
        obtain ⟨rest, tailShort⟩ := ih ok
        refine ⟨fun x member => ?_, tailShort⟩
        rcases List.mem_cons.mp member with rfl | inside
        · exact Nat.not_le.mp short
        · exact rest x inside
  exact each _ _ whole

end OmegaLb.LineScan
