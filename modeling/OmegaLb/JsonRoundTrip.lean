import Mathlib.Data.List.Forall2
import Mathlib.Data.List.TakeDrop
import OmegaLb.Json

/-! What is written is read back, before any separator: strings to their coerced value,
decimals to their literal, an object of encoded fields to its members. No written byte
is a line break. -/
namespace OmegaLb.Json
open GoText (Bytes ascii decimal isDigit decimalDigits decimalNonempty decimalHead)
open Utf8 (rune runes chunks replacement coerce IsRune isRuneShape runeNonempty chunksRunes)

/-! ### Strings -/

theorem hexValueDigit {n : Nat} (small : n < 16) : hexValue (hexDigit n) = some n := by
  interval_cases n <;> rfl

theorem readHex4Digits {n : Nat} (small : n < 65536) (s : Bytes) :
    readHex4 (hexDigit (n / 4096 % 16) :: hexDigit (n / 256 % 16) :: hexDigit (n / 16 % 16) ::
      hexDigit (n % 16) :: s) = some (n, s) := by
  have digit (m : Nat) : hexValue (hexDigit (m % 16)) = some (m % 16) :=
    hexValueDigit (Nat.mod_lt m (by decide))
  simp only [readHex4, digit, bind, Option.bind]
  congr 2
  omega

theorem readChunkEscapeU {n : Nat} (small : n < 65536) (scalar : ¬ (0xD800 ≤ n ∧ n < 0xE000))
    (s : Bytes) : readChunk (escapeU n ++ s) = some (encodeRune n, s) := by
  have escaped : readChunk (escapeU n ++ s) = readEscapeU (hexDigit (n / 4096 % 16) ::
    hexDigit (n / 256 % 16) :: hexDigit (n / 16 % 16) :: hexDigit (n % 16) :: s) := rfl
  simp only [escaped, readEscapeU, readHex4Digits small, bind, Option.bind, if_neg scalar]

theorem readChunkRune {c : Bytes} (isRune : IsRune c) (s : Bytes)
    (head : ∀ b ∈ c, 32 ≤ b ∧ b ≠ backslash) : readChunk (c ++ s) = some (c, s) := by
  cases c with
  | nil => exact absurd rfl (runeNonempty isRune)
  | cons b c =>
    obtain ⟨big, plain⟩ := head b List.mem_cons_self
    have read := isRune s
    rw [List.cons_append] at read ⊢
    unfold readChunk
    split
    · contradiction
    · exact absurd (List.cons.inj ‹_›).1 plain
    · exact absurd (List.cons.inj ‹_›).1 plain
    · rename_i same
      obtain ⟨rfl, rfl⟩ := List.cons.inj same
      rw [if_neg (by simp [UInt8.not_lt.mpr big, plain]), read]

theorem encodeAscii {b : UInt8} (small : b < 0x80) : encodeRune b.toNat = [b] := by
  have size : b.toNat < 0x80 := UInt8.lt_iff_toNat_lt.mp small
  rw [encodeRune, if_pos size, UInt8.ofNat_toNat]

theorem readChunkByte {b : UInt8} (small : b < 0x80) (s : Bytes) :
    readChunk (escapeByte b ++ s) = some ([b], s) := by
  have size : b.toNat < 0x80 := UInt8.lt_iff_toNat_lt.mp small
  unfold escapeByte
  split
  · rename_i quoted
    rcases quoted with rfl | rfl <;> rfl
  · rename_i notQuoted
    obtain ⟨plain, _⟩ := not_or.mp notQuoted
    split
    · subst b; rfl
    · split
      · subst b; rfl
      · split
        · subst b; rfl
        · split
          · subst b; rfl
          · split
            · subst b; rfl
            · split
              · rw [readChunkEscapeU (by omega) (by omega), encodeAscii small]
              · rename_i shown
                obtain ⟨big, _⟩ := not_or.mp shown
                exact readChunkRune (Utf8.asciiRune small) s (by simp [plain, UInt8.not_lt.mp big])

theorem quoteChunkLong {c : Bytes} (long : 2 ≤ c.length) :
    quoteChunk (some c) = if c = [0xE2, 0x80, 0xA8] then escapeU 0x2028
      else if c = [0xE2, 0x80, 0xA9] then escapeU 0x2029 else c := by
  match c, long with
  | _ :: _ :: _, _ => rfl

theorem readChunkQuote {chunk : Option Bytes} (ok : ∀ c, chunk = some c → IsRune c) (s : Bytes) :
    readChunk (quoteChunk chunk ++ s) = some (chunk.getD replacement, s) := by
  cases chunk with
  | none => exact readChunkEscapeU (by decide) (by decide) s
  | some c =>
    have isRune := ok c rfl
    rcases isRuneShape isRune with ⟨b, small, rfl⟩ | ⟨long, high⟩
    · exact readChunkByte small s
    · rw [quoteChunkLong long, Option.getD_some]
      split
      · subst c
        exact readChunkEscapeU (by decide) (by decide) s
      · split
        · subst c
          exact readChunkEscapeU (by decide) (by decide) s
        · refine readChunkRune isRune s fun b member => ?_
          have bound := high b member
          exact ⟨UInt8.le_trans (by decide) bound, fun same => by subst same; contradiction⟩

def Shown (text : Bytes) : Prop :=
  (∃ rest, text = backslash :: rest ∧ ∀ b ∈ rest, 32 ≤ b) ∨
    text ≠ [] ∧ ∀ b ∈ text, 32 ≤ b ∧ b ≠ dquote

theorem Shown.bytes {text : Bytes} (shown : Shown text) : ∀ b ∈ text, 32 ≤ b := by
  intro b member
  rcases shown with ⟨rest, rfl, tail⟩ | ⟨_, all⟩
  · rcases List.mem_cons.mp member with rfl | inside
    · decide
    · exact tail b inside
  · exact (all b member).1

theorem Shown.head {text : Bytes} (shown : Shown text) :
    ∃ b rest, text = b :: rest ∧ b ≠ dquote := by
  rcases shown with ⟨rest, rfl, _⟩ | ⟨nonempty, all⟩
  · exact ⟨backslash, rest, rfl, by decide⟩
  · obtain ⟨b, rest, rfl⟩ := List.exists_cons_of_ne_nil nonempty
    exact ⟨b, rest, rfl, (all b List.mem_cons_self).2⟩

theorem hexDigitShown {n : Nat} (small : n < 16) : 32 ≤ hexDigit n := by
  interval_cases n <;> decide

theorem escapeUShown (n : Nat) : Shown (escapeU n) := by
  have digit (m : Nat) : 32 ≤ hexDigit (m % 16) := hexDigitShown (Nat.mod_lt m (by decide))
  have letter : 32 ≤ letterU := by decide
  exact .inl ⟨_, rfl, by simp [digit, letter]⟩

theorem escapeByteShown (b : UInt8) : Shown (escapeByte b) := by
  have escaped {x : UInt8} (big : 32 ≤ x) : Shown [backslash, x] := .inl ⟨[x], rfl, by simpa using big⟩
  unfold escapeByte
  split
  · rename_i quoted
    rcases quoted with rfl | rfl
    · exact escaped (by decide)
    · exact escaped (by decide)
  · rename_i plain
    split
    · exact escaped (by decide)
    · split
      · exact escaped (by decide)
      · split
        · exact escaped (by decide)
        · split
          · exact escaped (by decide)
          · split
            · exact escaped (by decide)
            · split
              · exact escapeUShown b.toNat
              · rename_i shown
                have big : 32 ≤ b := UInt8.not_lt.mp (not_or.mp shown).1
                have notEnd : b ≠ dquote := (not_or.mp plain).2
                exact .inr ⟨List.cons_ne_nil b [], by simp [big, notEnd]⟩

theorem quoteChunkShown {chunk : Option Bytes} (ok : ∀ c, chunk = some c → IsRune c) :
    Shown (quoteChunk chunk) := by
  cases chunk with
  | none => exact escapeUShown 0xFFFD
  | some c =>
    have isRune := ok c rfl
    rcases isRuneShape isRune with ⟨b, _, rfl⟩ | ⟨long, high⟩
    · exact escapeByteShown b
    · rw [quoteChunkLong long]
      split
      · exact escapeUShown 0x2028
      · split
        · exact escapeUShown 0x2029
        · refine .inr ⟨runeNonempty isRune, fun b member => ?_⟩
          have bound := high b member
          exact ⟨UInt8.le_trans (by decide) bound, fun same => by subst same; contradiction⟩

theorem readStringChunks {cs : List (Option Bytes)} (all : ∀ chunk ∈ cs, ∀ c, chunk = some c → IsRune c)
    {fuel : Nat} (enough : cs.length < fuel) (s : Bytes) :
    readString fuel (cs.flatMap quoteChunk ++ dquote :: s) =
      some (cs.flatMap fun c => c.getD replacement, s) := by
  induction cs generalizing fuel with
  | nil =>
    obtain ⟨fuel, rfl⟩ := Nat.exists_eq_add_one_of_ne_zero (Nat.ne_zero_of_lt enough)
    rfl
  | cons chunk cs ih =>
    obtain ⟨fuel, rfl⟩ := Nat.exists_eq_add_one_of_ne_zero (Nat.ne_zero_of_lt enough)
    have ok := all chunk List.mem_cons_self
    have tail := ih (fun x member => all x (List.mem_cons_of_mem chunk member))
      (Nat.lt_of_succ_lt_succ enough)
    have head := readChunkQuote ok (cs.flatMap quoteChunk ++ dquote :: s)
    obtain ⟨b, rest, shape, notEnd⟩ := (quoteChunkShown ok).head
    rw [List.flatMap_cons, List.append_assoc]
    rw [shape, List.cons_append] at head ⊢
    unfold readString
    split
    · exact absurd (List.cons.inj ‹_›).1 notEnd
    · simp only [head, tail, bind, Option.bind, List.flatMap_cons]

theorem runesOk (s : Bytes) : ∀ chunk ∈ runes s, ∀ c, chunk = some c → IsRune c := by
  intro chunk member c same
  subst same
  exact chunksRunes member

theorem countChunks {cs : List (Option Bytes)} (all : ∀ chunk ∈ cs, ∀ c, chunk = some c → IsRune c) :
    cs.length ≤ (cs.flatMap quoteChunk).length := by
  induction cs with
  | nil => exact Nat.zero_le _
  | cons chunk cs ih =>
    obtain ⟨b, rest, shape, _⟩ := (quoteChunkShown (all chunk List.mem_cons_self)).head
    have tail := ih fun x member => all x (List.mem_cons_of_mem chunk member)
    simp only [List.length_cons, List.flatMap_cons, List.length_append, shape]
    omega

theorem readStringQuote (t s : Bytes) {fuel : Nat}
    (enough : ((runes t).flatMap quoteChunk ++ dquote :: s).length < fuel) :
    readString fuel ((runes t).flatMap quoteChunk ++ dquote :: s) = some (coerce t, s) := by
  have count := countChunks (runesOk t)
  rw [List.length_append] at enough
  exact readStringChunks (runesOk t) (by omega) s

theorem quoteShown (t : Bytes) : ∀ b ∈ quote t, 32 ≤ b := by
  intro b member
  simp only [quote, List.cons_append, List.mem_cons, List.mem_append, List.mem_flatMap,
    List.not_mem_nil, or_false] at member
  rcases member with rfl | ⟨chunk, inside, member⟩ | rfl
  · decide
  · exact (quoteChunkShown (runesOk t chunk inside)).bytes b member
  · decide

/-! ### Values before a separator -/

def EndsValue (sep : UInt8) : Prop := sep = comma ∨ sep = closeBrace ∨ sep = closeBracket

/-- The reader takes the text as the value, before a comma or the closing byte. -/
def ReadsBack (close : UInt8) (read : Bytes → Option (Value × Bytes)) (text : Bytes) (v : Value) :
    Prop :=
  ∀ sep rest, sep = comma ∨ sep = close → read (text ++ sep :: rest) = some (v, sep :: rest)

/-- Written before a comma or a closing brace, the text is read as the value. -/
def Encodes (text : Bytes) (v : Value) : Prop :=
  (∃ b rest, text = b :: rest ∧ isSpace b = false) ∧
    ∀ fuel depth sep rest, sep = comma ∨ sep = closeBrace →
      readValue (fuel + 1) depth (text ++ sep :: rest) = some (v, sep :: rest)

theorem skipSpaceHead {b : UInt8} (solid : isSpace b = false) (s : Bytes) :
    skipSpace (b :: s) = b :: s := by
  simp [skipSpace, solid]

theorem encodesQuote (t : Bytes) : Encodes (quote t) (.str (coerce t)) := by
  refine ⟨⟨dquote, _, rfl, by decide⟩, fun fuel depth sep rest _ => ?_⟩
  have body := readStringQuote t (sep :: rest) (Nat.lt_succ_self _)
  have opened : readValue (fuel + 1) depth (quote t ++ sep :: rest) =
      (readString (((runes t).flatMap quoteChunk ++ [dquote] ++ sep :: rest).length + 1)
        ((runes t).flatMap quoteChunk ++ [dquote] ++ sep :: rest)).map
          fun read => (.str read.1, read.2) := rfl
  rw [opened, List.append_assoc, List.singleton_append, body, Option.map_some]

theorem encodesBool (b : Bool) : Encodes (if b then ascii "true" else ascii "false") (.bool b) := by
  cases b with
  | false => exact ⟨⟨102, _, rfl, by decide⟩, fun _ _ _ _ _ => rfl⟩
  | true => exact ⟨⟨116, _, rfl, by decide⟩, fun _ _ _ _ _ => rfl⟩

theorem spanDigits {ds : Bytes} (digits : ∀ b ∈ ds, isDigit b = true) {sep : UInt8}
    (stop : isDigit sep = false) (rest : Bytes) :
    (ds ++ sep :: rest).span isDigit = (ds, sep :: rest) := by
  rw [List.span_eq_takeWhile_dropWhile, List.takeWhile_append_of_pos digits,
    List.dropWhile_append_of_pos digits]
  simp [stop]

theorem readIntegerDecimal (n : Nat) {sep : UInt8} (stop : isDigit sep = false) (rest : Bytes) :
    readInteger (decimal n ++ sep :: rest) = some (decimal n, sep :: rest) := by
  rcases Nat.eq_zero_or_pos n with rfl | positive
  · rfl
  · obtain ⟨b, ds, shape, _, nonzero⟩ := decimalHead n positive
    have whole : readInteger (decimal n ++ sep :: rest) = readDigits (decimal n ++ sep :: rest) := by
      rw [shape, List.cons_append]
      unfold readInteger
      split
      · exact absurd (List.cons.inj ‹_›).1 nonzero
      · rfl
    rw [whole, readDigits, spanDigits (decimalDigits n) stop, shape]

theorem readNumberTail {sep : UInt8} (ends : EndsValue sep) (rest : Bytes) :
    readFraction (sep :: rest) = some ([], sep :: rest) ∧
      readExponent (sep :: rest) = some ([], sep :: rest) ∧ isDigit sep = false := by
  rcases ends with rfl | rfl | rfl
  · exact ⟨rfl, rfl, rfl⟩
  · exact ⟨rfl, rfl, rfl⟩
  · exact ⟨rfl, rfl, rfl⟩

theorem readNumberDecimal (n : Nat) {sep : UInt8} (ends : EndsValue sep) (rest : Bytes) :
    readNumber (decimal n ++ sep :: rest) = some (decimal n, sep :: rest) := by
  obtain ⟨frac, exp, stop⟩ := readNumberTail ends rest
  have unsigned : readSign (decimal n ++ sep :: rest) = ([], decimal n ++ sep :: rest) := by
    obtain ⟨b, ds, shape⟩ := List.exists_cons_of_ne_nil (decimalNonempty n)
    have digit := decimalDigits n b (by rw [shape]; exact List.mem_cons_self)
    have notMinus : b ≠ minus := fun same => by subst same; contradiction
    rw [shape, List.cons_append]
    unfold readSign
    split
    · exact absurd (List.cons.inj ‹_›).1 notMinus
    · rfl
  simp only [readNumber, unsigned, readIntegerDecimal n stop, frac, exp, bind, Option.bind,
    List.nil_append, List.append_nil]

theorem readNumberNegative (n : Nat) {sep : UInt8} (ends : EndsValue sep) (rest : Bytes) :
    readNumber (minus :: decimal n ++ sep :: rest) = some (minus :: decimal n, sep :: rest) := by
  obtain ⟨frac, exp, stop⟩ := readNumberTail ends rest
  have signed : readSign (minus :: decimal n ++ sep :: rest) =
    ([minus], decimal n ++ sep :: rest) := rfl
  simp only [readNumber, signed, readIntegerDecimal n stop, frac, exp, bind, Option.bind,
    List.append_nil, List.singleton_append]

theorem readValueNumber {b : UInt8} (starts : isDigit b = true ∨ b = minus) (fuel depth : Nat)
    (s : Bytes) :
    readValue (fuel + 1) depth (b :: s) = (readNumber (b :: s)).map fun (n, s) => (.num n, s) := by
  have other {x : UInt8} (noDigit : isDigit x = false) (notMinus : x ≠ minus) : b ≠ x := by
    rintro rfl
    rcases starts with digit | same
    · rw [digit] at noDigit
      contradiction
    · exact notMinus same
  have solid : isSpace b = false := by
    simp [isSpace, @other 32, @other 9, @other 13, @other 10, isDigit, minus]
  unfold readValue
  rw [skipSpaceHead solid]
  split
  · exact absurd (List.cons.inj ‹_›).1 (other (by decide) (by decide))
  · exact absurd (List.cons.inj ‹_›).1 (other (by decide) (by decide))
  · exact absurd (List.cons.inj ‹_›).1 (other (by decide) (by decide))
  · unfold readLiteral
    split
    · exact absurd (List.cons.inj ‹_›).1 (other (by decide) (by decide))
    · exact absurd (List.cons.inj ‹_›).1 (other (by decide) (by decide))
    · exact absurd (List.cons.inj ‹_›).1 (other (by decide) (by decide))
    · rfl

theorem decimalStarts (n : Nat) : ∃ b ds, decimal n = b :: ds ∧ isDigit b = true := by
  obtain ⟨b, ds, shape⟩ := List.exists_cons_of_ne_nil (decimalNonempty n)
  exact ⟨b, ds, shape, decimalDigits n b (by rw [shape]; exact List.mem_cons_self)⟩

theorem readValueDecimal (n fuel depth : Nat) {sep : UInt8} (ends : EndsValue sep) (rest : Bytes) :
    readValue (fuel + 1) depth (decimal n ++ sep :: rest) =
      some (.num (decimal n), sep :: rest) := by
  obtain ⟨b, ds, shape, digit⟩ := decimalStarts n
  have number := readNumberDecimal n ends rest
  rw [shape, List.cons_append] at number ⊢
  rw [readValueNumber (.inl digit), number, Option.map_some]

theorem encodesNat (n : Nat) : Encodes (decimal n) (.num (decimal n)) := by
  obtain ⟨b, ds, shape, digit⟩ := decimalStarts n
  refine ⟨⟨b, ds, shape, ?_⟩, fun fuel depth sep rest ends => ?_⟩
  · revert digit
    simp only [isDigit, isSpace]
    grind
  · exact readValueDecimal n fuel depth (ends.imp_right .inl) rest

theorem encodesNegative (n : Nat) : Encodes (minus :: decimal n) (.num (minus :: decimal n)) := by
  refine ⟨⟨minus, _, rfl, by decide⟩, fun fuel depth sep rest ends => ?_⟩
  have number := readNumberNegative n (ends.imp_right .inl) rest
  rw [List.cons_append] at number ⊢
  rw [readValueNumber (.inr rfl), number, Option.map_some]

/-! ### Objects -/

theorem expectHead {b : UInt8} (solid : isSpace b = false) (s : Bytes) :
    expect b (b :: s) = some s := by
  rw [expect, skipSpaceHead solid]
  exact if_pos rfl

theorem expectOther {b x : UInt8} (solid : isSpace x = false) (other : x ≠ b) (s : Bytes) :
    expect b (x :: s) = none := by
  rw [expect, skipSpaceHead solid]
  exact if_neg other

abbrev EncodesFields : List (Bytes × Bytes) → List (Bytes × Value) → Prop :=
  List.Forall₂ fun field member => coerce field.1 = member.1 ∧ Encodes field.2 member.2

abbrev ReadsFields (read : Bytes → Option (Value × Bytes)) :
    List (Bytes × Bytes) → List (Bytes × Value) → Prop :=
  List.Forall₂ fun field member =>
    coerce field.1 = member.1 ∧ ReadsBack closeBrace read field.2 member.2

theorem readMembersStep {read : Bytes → Option (Value × Bytes)} {field : Bytes × Bytes}
    {member : Bytes × Value} (key : coerce field.1 = member.1)
    (value : ReadsBack closeBrace read field.2 member.2) (n : Nat) {sep : UInt8}
    (ends : sep = comma ∨ sep = closeBrace) (rest : Bytes) :
    readMembers read (n + 1) (writeMember field ++ sep :: rest) =
      if sep = comma then (readMembers read n rest).map fun (ms, s) => (member :: ms, s)
      else some ([member], rest) := by
  have name := readStringQuote field.1 (colon :: (field.2 ++ sep :: rest)) (Nat.lt_succ_self _)
  have text := value sep rest ends
  have shape : writeMember field ++ sep :: rest = dquote ::
      ((runes field.1).flatMap quoteChunk ++ dquote :: colon :: (field.2 ++ sep :: rest)) := by
    simp [writeMember, quote]
  have quoteFirst := @expectHead dquote (by decide)
  have colonNext := @expectHead colon (by decide)
  rw [shape]
  simp only [readMembers, quoteFirst, name, colonNext, text, key, bind, Option.bind]
  rcases ends with rfl | rfl
  · rw [@expectHead comma (by decide), if_pos rfl]
  · rw [@expectOther comma closeBrace (by decide) (by decide), if_neg (by decide),
      @expectHead closeBrace (by decide), Option.map_some]

theorem readMembersWritten {read : Bytes → Option (Value × Bytes)} {fields : List (Bytes × Bytes)}
    {members : List (Bytes × Value)} (pairs : ReadsFields read fields members)
    (nonempty : fields ≠ []) {n : Nat} (enough : fields.length ≤ n) (rest : Bytes) :
    readMembers read n (writeMembers fields ++ closeBrace :: rest) = some (members, rest) := by
  induction pairs generalizing n with
  | nil => exact absurd rfl nonempty
  | @cons field member fields members pair pairs ih =>
    obtain ⟨n, rfl⟩ := Nat.exists_eq_add_one_of_ne_zero (Nat.ne_zero_of_lt enough)
    cases pairs with
    | nil =>
      rw [writeMembers, readMembersStep pair.1 pair.2 n (.inr rfl), if_neg (by decide)]
    | cons next pairs =>
      have tail := ih (List.cons_ne_nil _ _) (Nat.le_of_succ_le_succ enough)
      rw [writeMembers, List.append_assoc, List.cons_append,
        readMembersStep pair.1 pair.2 n (.inl rfl), if_pos rfl, tail, Option.map_some]

theorem countMembers (fields : List (Bytes × Bytes)) :
    fields.length ≤ (writeMembers fields).length := by
  induction fields with
  | nil => exact Nat.zero_le _
  | cons field fields ih =>
    cases fields with
    | nil =>
      simp only [writeMembers, writeMember, List.length_append, List.length_cons, List.length_nil]
      omega
    | cons next fields =>
      simp only [writeMembers, List.length_append, List.length_cons] at ih ⊢
      omega

theorem readObjectWritten {read : Bytes → Option (Value × Bytes)} {fields : List (Bytes × Bytes)}
    {members : List (Bytes × Value)} (pairs : ReadsFields read fields members)
    (nonempty : fields ≠ []) (rest : Bytes) :
    readObject read (writeMembers fields ++ closeBrace :: rest) = some (.obj members, rest) := by
  have count : fields.length ≤ (writeMembers fields ++ closeBrace :: rest).length + 1 := by
    have bound := countMembers fields
    rw [List.length_append]
    omega
  have inner := readMembersWritten pairs nonempty count rest
  obtain ⟨t, text⟩ : ∃ t, writeMembers fields ++ closeBrace :: rest = dquote :: t := by
    obtain ⟨field, others, rfl⟩ := List.exists_cons_of_ne_nil nonempty
    cases others with
    | nil => exact ⟨_, rfl⟩
    | cons next others => exact ⟨_, rfl⟩
  rw [text] at inner ⊢
  simp only [readObject, @expectOther closeBrace dquote (by decide) (by decide), inner,
    Option.map_some]

theorem skipSpaceBlank {space : Bytes} (blank : ∀ b ∈ space, isSpace b = true) {b : UInt8}
    (solid : isSpace b = false) (s : Bytes) : skipSpace (space ++ b :: s) = b :: s := by
  rw [skipSpace, List.dropWhile_append_of_pos blank]
  exact skipSpaceHead solid s

theorem parseObjectWritten {space : Bytes} (blank : ∀ b ∈ space, isSpace b = true)
    {fields : List (Bytes × Bytes)} {members : List (Bytes × Value)}
    (pairs : ∀ fuel, fields.length ≤ fuel → ReadsFields (readValue fuel 1) fields members)
    (nonempty : fields ≠ []) : parse (space ++ writeObject fields) = some (.obj members) := by
  have count := countMembers fields
  have size : fields.length ≤ (space ++ writeObject fields).length := by
    simp only [writeObject, List.length_append, List.length_cons]
    omega
  have inner := readObjectWritten (pairs _ size) nonempty []
  have opened : readValue ((space ++ writeObject fields).length + 1) 0 (space ++ writeObject fields) =
      readObject (readValue (space ++ writeObject fields).length 1)
        (writeMembers fields ++ [closeBrace]) := by
    generalize (space ++ writeObject fields).length = fuel
    unfold readValue
    rw [writeObject, List.cons_append, skipSpaceBlank blank (by decide)]
    rfl
  simp only [parse, opened, inner, bind, Option.bind]
  rfl

theorem parseObject {space : Bytes} (blank : ∀ b ∈ space, isSpace b = true)
    {fields : List (Bytes × Bytes)} {members : List (Bytes × Value)}
    (pairs : EncodesFields fields members) (nonempty : fields ≠ []) :
    parse (space ++ writeObject fields) = some (.obj members) := by
  apply parseObjectWritten blank _ nonempty
  intro fuel enough
  have some := List.length_pos_of_ne_nil nonempty
  obtain ⟨fuel, rfl⟩ := Nat.exists_eq_add_one_of_ne_zero (show fuel ≠ 0 by omega)
  exact pairs.imp fun field member pair => ⟨pair.1, pair.2.2 fuel 1⟩

end OmegaLb.Json
