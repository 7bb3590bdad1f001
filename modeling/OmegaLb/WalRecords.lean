import Mathlib.Data.List.Forall2
import OmegaLb.RingWal

/-! Records on the file. A marshalled entry is one unbroken line that is read back as it
was stored, also behind blank bytes; a file of such lines is read back in order. -/
namespace OmegaLb.RingWal
open GoText (Bytes ascii decimal isDigit digitsValue decimalDigits decimalNonempty digitsValueDecimal)
open Json (Value Encodes EncodesFields encodesNat encodesNegative encodesQuote encodesBool
  parseObject isSpace writeObject writeMembers writeMember quote quoteShown)
open Utf8 (coerce coerceValid validCoerce validAscii Valid)
open LineScan

def WALEntry.stored (e : WALEntry) : WALEntry := { e with op := coerce e.op }

/-! ### Numbers -/

theorem parseUintDecimal {bits n : Nat} (small : n < 2 ^ bits) :
    parseUint bits (decimal n) = some n := by
  rw [parseUint, digitsValueDecimal, if_pos]
  exact ⟨decimalNonempty n, List.all_eq_true.mpr (decimalDigits n), small⟩

theorem parseIntDecimal {bits n : Nat} (small : n < 2 ^ (bits - 1)) :
    parseInt bits (decimal n) = some (n : Int) := by
  obtain ⟨b, ds, shape⟩ := List.exists_cons_of_ne_nil (decimalNonempty n)
  have digit := decimalDigits n b (by rw [shape]; exact List.mem_cons_self)
  have notMinus : b ≠ Json.minus := fun same => by subst same; contradiction
  have unsigned : parseInt bits (decimal n) = if decimal n ≠ [] ∧ (decimal n).all isDigit ∧
      digitsValue (decimal n) < 2 ^ (bits - 1) then some ↑(digitsValue (decimal n)) else none := by
    rw [shape]
    unfold parseInt
    split
    · exact absurd (List.cons.inj ‹_›).1 notMinus
    · rfl
  rw [unsigned, digitsValueDecimal, if_pos]
  exact ⟨decimalNonempty n, List.all_eq_true.mpr (decimalDigits n), small⟩

theorem parseIntNegative {bits n : Nat} (small : n ≤ 2 ^ (bits - 1)) :
    parseInt bits (Json.minus :: decimal n) = some (-n : Int) := by
  have signed : parseInt bits (Json.minus :: decimal n) =
      if decimal n ≠ [] ∧ (decimal n).all isDigit ∧ digitsValue (decimal n) ≤ 2 ^ (bits - 1) then
        some (-digitsValue (decimal n) : Int) else none := rfl
  rw [signed, digitsValueDecimal, if_pos]
  exact ⟨decimalNonempty n, List.all_eq_true.mpr (decimalDigits n), small⟩

theorem parseIntDecimalInt (v : Int64) : parseInt 64 (decimalInt v.toInt) = some v.toInt := by
  have low := Int64.le_toInt v
  have high := Int64.toInt_lt v
  cases shape : v.toInt with
  | ofNat n =>
    rw [shape] at high
    exact parseIntDecimal (by simpa using high)
  | negSucc n =>
    rw [shape] at low
    rw [decimalInt, parseIntNegative (by simp; omega)]
    rfl

/-! ### Entries -/

def members (e : WALEntry) : List (Bytes × Value) :=
  [(ascii "seq", .num (decimal e.seq.toNat)), (ascii "op", .str (coerce e.op)),
    (ascii "id", .num (decimal e.backendID.toNat))] ++
  (if e.vnodes = 0 then [] else [(ascii "vnodes", .num (decimalInt e.vnodes.toInt))]) ++
  [(ascii "committed", .bool e.committed)]

theorem coerceNames : ∀ entry ∈ fieldNames, coerce entry.1 = entry.1 := by decide

theorem encodesInt (n : Int) : Encodes (decimalInt n) (.num (decimalInt n)) := by
  cases n with
  | ofNat n => exact encodesNat n
  | negSucc n => exact encodesNegative (n + 1)

theorem encodesFields (e : WALEntry) : EncodesFields (fields e) (members e) := by
  have name (n : Bytes) (f : Field) (known : (n, f) ∈ fieldNames) : coerce n = n :=
    coerceNames (n, f) known
  have vnodes : EncodesFields (if e.vnodes = 0 then [] else [(ascii "vnodes", decimalInt e.vnodes.toInt)])
      (if e.vnodes = 0 then [] else [(ascii "vnodes", .num (decimalInt e.vnodes.toInt))]) := by
    split
    · exact .nil
    · exact .cons ⟨name (ascii "vnodes") .vnodes (by decide), encodesInt e.vnodes.toInt⟩ .nil
  have front : EncodesFields [(ascii "seq", decimal e.seq.toNat), (ascii "op", quote e.op),
      (ascii "id", decimal e.backendID.toNat)] [(ascii "seq", .num (decimal e.seq.toNat)),
      (ascii "op", .str (coerce e.op)), (ascii "id", .num (decimal e.backendID.toNat))] :=
    .cons ⟨name (ascii "seq") .seq (by decide), encodesNat e.seq.toNat⟩
      (.cons ⟨name (ascii "op") .op (by decide), encodesQuote e.op⟩
        (.cons ⟨name (ascii "id") .id (by decide), encodesNat e.backendID.toNat⟩ .nil))
  have last : EncodesFields [(ascii "committed", marshalBool e.committed)]
      [(ascii "committed", .bool e.committed)] :=
    .cons ⟨name (ascii "committed") .committed (by decide), encodesBool e.committed⟩ .nil
  exact List.rel_append (List.rel_append front vnodes) last

theorem storeMembers (e : WALEntry) : (members e).foldlM storeMember zeroEntry = some e.stored := by
  have seq : parseUint 64 (decimal e.seq.toNat) = some e.seq.toNat := parseUintDecimal e.seq.toNat_lt
  have id : parseUint 32 (decimal e.backendID.toNat) = some e.backendID.toNat :=
    parseUintDecimal e.backendID.toNat_lt
  have vnodes := parseIntDecimalInt e.vnodes
  have names : fieldOf (ascii "seq") = some .seq ∧ fieldOf (ascii "op") = some .op ∧
      fieldOf (ascii "id") = some .id ∧ fieldOf (ascii "vnodes") = some .vnodes ∧
      fieldOf (ascii "committed") = some .committed := by decide
  obtain ⟨nameSeq, nameOp, nameId, nameVnodes, nameCommitted⟩ := names
  rcases e with ⟨s, op, b, v, c⟩
  by_cases none : v = 0
  · subst none
    simp [members, storeMember, store, WALEntry.stored, zeroEntry, nameSeq, nameOp, nameId,
      nameCommitted, seq, id]
  · simp [members, none, storeMember, store, WALEntry.stored, zeroEntry, nameSeq, nameOp, nameId,
      nameVnodes, nameCommitted, seq, id, vnodes]

theorem fieldsNonempty (e : WALEntry) : fields e ≠ [] := List.cons_ne_nil _ _

theorem unmarshalMarshal {space : Bytes} (blank : ∀ b ∈ space, isSpace b = true) (e : WALEntry) :
    unmarshal (space ++ marshal e) = some e.stored := by
  rw [unmarshal, marshal, parseObject blank (encodesFields e) (fieldsNonempty e)]
  exact storeMembers e

/-! ### Lines -/

theorem decimalShown (n : Nat) : ∀ b ∈ decimal n, 32 ≤ b := by
  intro b member
  have digit := decimalDigits n b member
  simp only [isDigit, Bool.and_eq_true, decide_eq_true_eq] at digit
  exact UInt8.le_trans (by decide) digit.1

theorem fieldsShown (e : WALEntry) : ∀ field ∈ fields e, ∀ b ∈ field.2, 32 ≤ b := by
  have vnodes : ∀ b ∈ decimalInt e.vnodes.toInt, 32 ≤ b := by
    cases e.vnodes.toInt with
    | ofNat n => exact decimalShown n
    | negSucc n => exact List.forall_mem_cons.mpr ⟨by decide, decimalShown (n + 1)⟩
  have committed : ∀ b ∈ marshalBool e.committed, 32 ≤ b := by
    have shown : (marshalBool e.committed).all (fun b => 32 ≤ b) = true := by
      cases e.committed <;> decide
    simpa using shown
  intro field member
  simp only [fields, List.mem_append, List.mem_cons, List.not_mem_nil, or_false] at member
  rcases member with ((rfl | rfl | rfl) | optional) | rfl
  · exact decimalShown _
  · exact quoteShown _
  · exact decimalShown _
  · split at optional
    · contradiction
    · rw [List.mem_singleton.mp optional]
      exact vnodes
  · exact committed

theorem writeMembersShown {fs : List (Bytes × Bytes)} (all : ∀ field ∈ fs, ∀ b ∈ field.2, 32 ≤ b) :
    ∀ b ∈ writeMembers fs, 32 ≤ b := by
  have one (field : Bytes × Bytes) (shown : ∀ b ∈ field.2, 32 ≤ b) :
      ∀ b ∈ writeMember field, 32 ≤ b := by
    intro b member
    rcases List.mem_append.mp member with inside | inside
    · exact quoteShown _ b inside
    · rcases List.mem_cons.mp inside with rfl | value
      · decide
      · exact shown b value
  induction fs with
  | nil => exact fun _ member => absurd member List.not_mem_nil
  | cons field fs ih =>
    have head := one field (all field List.mem_cons_self)
    have tail := ih fun x member => all x (List.mem_cons_of_mem field member)
    cases fs with
    | nil => exact head
    | cons next fs =>
      intro b member
      rcases List.mem_append.mp member with inside | inside
      · exact head b inside
      · rcases List.mem_cons.mp inside with rfl | rest
        · decide
        · exact tail b rest

theorem marshalShown (e : WALEntry) : ∀ b ∈ marshal e, 32 ≤ b := by
  intro b member
  simp only [marshal, writeObject, List.cons_append, List.mem_cons, List.mem_append,
    List.not_mem_nil, or_false] at member
  rcases member with rfl | inside | rfl
  · decide
  · exact writeMembersShown (fieldsShown e) b inside
  · decide

theorem marshalBreakless (e : WALEntry) : Breakless (marshal e) := by
  intro member
  exact absurd (marshalShown e newline member) (by decide)

theorem dropCRMarshal (front : Bytes) (e : WALEntry) :
    dropCR (front ++ marshal e) = front ++ marshal e := by
  have last : (front ++ marshal e).getLast? = some Json.closeBrace :=
    List.getLast?_eq_some_iff.mpr
      ⟨front ++ Json.openBrace :: writeMembers (fields e), by simp [marshal, writeObject]⟩
  rw [dropCR, last, if_neg (by decide)]

theorem marshalNonempty (e : WALEntry) : marshal e ≠ [] := List.cons_ne_nil _ _

theorem entriesOfRecord {space : Bytes} (blank : ∀ b ∈ space, isSpace b = true) (e : WALEntry) :
    entriesOf [dropCR (space ++ marshal e)] = [e.stored] := by
  have kept : space ++ marshal e ≠ [] := fun empty =>
    marshalNonempty e (List.append_eq_nil_iff.mp empty).2
  simp [entriesOf, dropCRMarshal, kept, unmarshalMarshal blank]

theorem entriesOfAppend (front back : List Bytes) :
    entriesOf (front ++ back) = entriesOf front ++ entriesOf back := by
  simp [entriesOf]

theorem entriesOfRecords (entries : List WALEntry) :
    entriesOf (entries.map fun e => dropCR (marshal e)) = entries.map WALEntry.stored := by
  induction entries with
  | nil => rfl
  | cons e entries ih =>
    have head := @entriesOfRecord [] (fun _ member => absurd member List.not_mem_nil) e
    rw [List.nil_append] at head
    rw [List.map_cons, List.map_cons, ← List.singleton_append, entriesOfAppend, head, ih]
    rfl

/-! ### Files of records -/

def encode (entries : List WALEntry) : Bytes := entries.flatMap line

theorem encodeSnoc (entries : List WALEntry) (e : WALEntry) :
    encode (entries ++ [e]) = encode entries ++ line e := by
  simp [encode]

def Short (e : WALEntry) : Prop := (marshal e).length < maxScanTokenSize

instance (e : WALEntry) : Decidable (Short e) :=
  inferInstanceAs (Decidable ((marshal e).length < maxScanTokenSize))

theorem writeMembersSnoc {front : List (Bytes × Bytes)} (nonempty : front ≠ [])
    (field : Bytes × Bytes) :
    writeMembers (front ++ [field]) = writeMembers front ++ Json.comma :: writeMember field := by
  induction front with
  | nil => exact absurd rfl nonempty
  | cons first front ih =>
    cases front with
    | nil => rfl
    | cons next front =>
      have rest := ih (List.cons_ne_nil next front)
      rw [List.cons_append] at rest
      simp [writeMembers, rest]

def leadingFields (e : WALEntry) : List (Bytes × Bytes) :=
  [(ascii "seq", decimal e.seq.toNat), (ascii "op", quote e.op),
    (ascii "id", decimal e.backendID.toNat)] ++
  (if e.vnodes = 0 then [] else [(ascii "vnodes", decimalInt e.vnodes.toInt)])

theorem marshalLength (e : WALEntry) : (marshal e).length =
    (writeMembers (leadingFields e)).length + (quote (ascii "committed")).length +
      (marshalBool e.committed).length + 4 := by
  have split : fields e = leadingFields e ++ [(ascii "committed", marshalBool e.committed)] := rfl
  have leading : leadingFields e ≠ [] := List.cons_ne_nil _ _
  rw [marshal, writeObject, split, writeMembersSnoc leading]
  simp only [writeMember, List.length_append, List.length_cons, List.length_nil]
  omega

theorem markShort (seq : UInt64) {e : WALEntry} (short : Short e) : Short (mark seq e) := by
  rw [mark]
  split
  · have marked := marshalLength { e with committed := true }
    have plain := marshalLength e
    have true4 : (marshalBool true).length = 4 := by decide
    have most : 4 ≤ (marshalBool e.committed).length := by cases e.committed <;> decide
    have same : leadingFields { e with committed := true } = leadingFields e := rfl
    rw [same, true4] at marked
    rw [Short] at short ⊢
    omega
  · exact short

theorem encodeJoin (entries : List WALEntry) : encode entries = join (entries.map marshal) [] := by
  rw [encode, join, List.flatMap_map, List.append_nil]
  rfl

theorem splitEncode (entries : List WALEntry) : split (encode entries) = (entries.map marshal, []) := by
  rw [encodeJoin]
  refine splitJoin (fun x member => ?_) List.not_mem_nil
  obtain ⟨e, _, rfl⟩ := List.mem_map.mp member
  exact marshalBreakless e

theorem encodeFits {entries : List WALEntry} :
    Fits maxScanTokenSize (encode entries) ↔ ∀ e ∈ entries, Short e := by
  simp [Fits, splitEncode, Short, maxScanTokenSize]

theorem tokensEncode (entries : List WALEntry) :
    entriesOf (tokens (encode entries)) = entries.map WALEntry.stored := by
  have cut := splitEncode entries
  simp only [tokens, cut, if_true, List.append_nil, List.map_map]
  exact entriesOfRecords entries

theorem readAllFits {f : File} (fits : Fits maxScanTokenSize f.content) :
    readAll f = (⟨f.content, f.content.length⟩, entriesOf (tokens f.content), none) := by
  simp only [readAll, scanFits fits, if_neg Bool.false_ne_true]

theorem readAllTooLong {f : File} (long : ¬ Fits maxScanTokenSize f.content) :
    ∃ offset entries, readAll f = (⟨f.content, offset⟩, entries, some .tooLong) := by
  have found : (scan maxScanTokenSize f.content).tooLong = true :=
    Bool.not_eq_false _ ▸ fun whole => long (fitsOfScan whole)
  refine ⟨(scan maxScanTokenSize f.content).offset,
    entriesOf (scan maxScanTokenSize f.content).tokens, ?_⟩
  simp only [readAll, found, if_true]

theorem readAllEncode {entries : List WALEntry} (short : ∀ e ∈ entries, Short e) (offset : Nat) :
    readAll ⟨encode entries, offset⟩ =
      (⟨encode entries, (encode entries).length⟩, entries.map WALEntry.stored, none) := by
  rw [readAllFits (encodeFits.mpr short), tokensEncode]

/-! ### Writing at the end -/

def AtEnd (f : File) : Prop := f.offset = f.content.length

theorem writeAtEnd {f : File} (atEnd : AtEnd f) (bytes : Bytes) :
    f.write bytes = ⟨f.content ++ bytes, (f.content ++ bytes).length⟩ := by
  rcases f with ⟨content, offset⟩
  have last : offset = content.length := atEnd
  rw [File.write]
  split
  · rename_i none
    simp [none, last]
  · simp [last]

theorem printLinesAtEnd {f : File} (atEnd : AtEnd f) (entries : List WALEntry) :
    printLines (fun _ => none) f entries =
      ⟨f.content ++ encode entries, (f.content ++ encode entries).length⟩ := by
  induction entries generalizing f with
  | nil =>
    rcases f with ⟨content, offset⟩
    have last : offset = content.length := atEnd
    simp [printLines, encode, last]
  | cons e entries ih =>
    have written := writeAtEnd atEnd (line e)
    have next : AtEnd (f.write (line e)) := by rw [written]; rfl
    have rest := ih next
    rw [printLines, printed, rest, written]
    simp [encode]

theorem rewriteClean (f : File) (entries : List WALEntry) :
    rewrite f entries .clean = (⟨encode entries, (encode entries).length⟩, none) := by
  have empty : AtEnd f.truncate.seekStart := rfl
  have printed := printLinesAtEnd empty entries
  rw [rewrite, RewriteIo.clean, if_pos rfl, if_pos rfl, printed]
  rfl

end OmegaLb.RingWal
