import OmegaLb.JsonRoundTrip

/-! Arrays, and objects inside other values, read back as they are written. -/
namespace OmegaLb.Json
open GoText (Bytes ascii decimal isDigit)
open Utf8 (coerce)

def writeItems : List Bytes → Bytes
  | [] => []
  | [item] => item
  | item :: next :: rest => item ++ comma :: writeItems (next :: rest)

def writeArray (items : List Bytes) : Bytes := openBracket :: writeItems items ++ [closeBracket]

/-! ### Scalars -/

def Closing (close : UInt8) : Prop := close = closeBrace ∨ close = closeBracket

theorem endsClosing {close sep : UInt8} (closing : Closing close) (ends : sep = comma ∨ sep = close) :
    EndsValue sep := by
  rcases ends with rfl | rfl
  · exact .inl rfl
  · exact .inr closing

theorem readsNat {close : UInt8} (closing : Closing close) (n fuel depth : Nat) :
    ReadsBack close (readValue (fuel + 1) depth) (decimal n) (.num (decimal n)) := by
  intro sep rest ends
  exact readValueDecimal n fuel depth (endsClosing closing ends) rest

theorem readsEncoded {text : Bytes} {v : Value} (encodes : Encodes text v) (fuel depth : Nat) :
    ReadsBack closeBrace (readValue (fuel + 1) depth) text v := encodes.2 fuel depth

/-! ### Objects -/

theorem readsObject {fields : List (Bytes × Bytes)} {members : List (Bytes × Value)}
    {fuel depth : Nat} (shallow : depth < maxNestingDepth)
    (pairs : ReadsFields (readValue fuel (depth + 1)) fields members) (nonempty : fields ≠ [])
    (close : UInt8) :
    ReadsBack close (readValue (fuel + 1) depth) (writeObject fields) (.obj members) := by
  intro sep rest _
  have inner := readObjectWritten pairs nonempty (sep :: rest)
  have opened : readValue (fuel + 1) depth (writeObject fields ++ sep :: rest) =
      if depth < maxNestingDepth then
        readObject (readValue fuel (depth + 1)) (writeMembers fields ++ [closeBrace] ++ sep :: rest)
      else none := rfl
  rw [opened, if_pos shallow, List.append_assoc, List.singleton_append, inner]

/-! ### Arrays -/

/-- What a written item cannot start with inside an array. -/
def Solid (text : Bytes) : Prop := ∃ b rest, text = b :: rest ∧ isSpace b = false ∧ b ≠ closeBracket

abbrev ReadsItems (read : Bytes → Option (Value × Bytes)) : List Bytes → List Value → Prop :=
  List.Forall₂ fun text v => Solid text ∧ ReadsBack closeBracket read text v

theorem readsItemsMap {α : Type} {read : Bytes → Option (Value × Bytes)} {text : α → Bytes}
    {value : α → Value} {xs : List α}
    (each : ∀ x ∈ xs, Solid (text x) ∧ ReadsBack closeBracket read (text x) (value x)) :
    ReadsItems read (xs.map text) (xs.map value) := by
  unfold ReadsItems
  rw [List.forall₂_map_left_iff, List.forall₂_map_right_iff, List.forall₂_same]
  exact each

theorem solidDecimal (n : Nat) : Solid (decimal n) := by
  obtain ⟨b, ds, shape, digit⟩ := decimalStarts n
  refine ⟨b, ds, shape, ?_⟩
  revert digit
  simp only [isDigit, isSpace]
  grind

theorem solidObject (fields : List (Bytes × Bytes)) : Solid (writeObject fields) :=
  ⟨openBrace, _, rfl, by decide⟩

theorem readItemsStep {read : Bytes → Option (Value × Bytes)} {text : Bytes} {v : Value}
    (item : ReadsBack closeBracket read text v) (n : Nat) {sep : UInt8}
    (ends : sep = comma ∨ sep = closeBracket) (rest : Bytes) :
    readItems read (n + 1) (text ++ sep :: rest) =
      if sep = comma then (readItems read n rest).map fun (vs, s) => (v :: vs, s)
      else some ([v], rest) := by
  have first := item sep rest ends
  simp only [readItems, first, bind, Option.bind]
  rcases ends with rfl | rfl
  · rw [@expectHead comma (by decide), if_pos rfl]
  · rw [@expectOther comma closeBracket (by decide) (by decide), if_neg (by decide),
      @expectHead closeBracket (by decide), Option.map_some]

theorem readItemsWritten {read : Bytes → Option (Value × Bytes)} {texts : List Bytes}
    {vs : List Value} (items : ReadsItems read texts vs) (nonempty : texts ≠ []) {n : Nat}
    (enough : texts.length ≤ n) (rest : Bytes) :
    readItems read n (writeItems texts ++ closeBracket :: rest) = some (vs, rest) := by
  induction items generalizing n with
  | nil => exact absurd rfl nonempty
  | @cons text v texts vs item items ih =>
    obtain ⟨n, rfl⟩ := Nat.exists_eq_add_one_of_ne_zero (Nat.ne_zero_of_lt enough)
    cases items with
    | nil => rw [writeItems, readItemsStep item.2 n (.inr rfl), if_neg (by decide)]
    | cons next items =>
      have tail := ih (List.cons_ne_nil _ _) (Nat.le_of_succ_le_succ enough)
      rw [writeItems, List.append_assoc, List.cons_append, readItemsStep item.2 n (.inl rfl),
        if_pos rfl, tail, Option.map_some]

theorem countItems {texts : List Bytes} (solid : ∀ text ∈ texts, Solid text) :
    texts.length ≤ (writeItems texts).length := by
  induction texts with
  | nil => exact Nat.zero_le _
  | cons text texts ih =>
    obtain ⟨b, rest, shape, _⟩ := solid text List.mem_cons_self
    have tail := ih fun t member => solid t (List.mem_cons_of_mem text member)
    cases texts with
    | nil => simp [writeItems, shape]
    | cons next texts =>
      simp only [writeItems, List.length_append, List.length_cons] at tail ⊢
      omega

theorem readArrayWritten {read : Bytes → Option (Value × Bytes)} {texts : List Bytes}
    {vs : List Value} (items : ReadsItems read texts vs) (rest : Bytes) :
    readArray read (writeItems texts ++ closeBracket :: rest) = some (.arr vs, rest) := by
  have closes := @expectHead closeBracket (by decide)
  cases items with
  | nil => simp only [readArray, writeItems, List.nil_append, closes]
  | @cons text v texts vs item items =>
    have solid := (List.forall₂_and_left _ _).mp (List.Forall₂.cons item items) |>.1
    have count : (text :: texts).length ≤
        (writeItems (text :: texts) ++ closeBracket :: rest).length + 1 := by
      have bound := countItems solid
      rw [List.length_append]
      omega
    have inner := readItemsWritten (.cons item items) (List.cons_ne_nil _ _) count rest
    obtain ⟨b, t, shape, notSpace, notClose⟩ := item.1
    obtain ⟨u, start⟩ : ∃ u, writeItems (text :: texts) ++ closeBracket :: rest = b :: u := by
      cases texts with
      | nil => exact ⟨_, by rw [writeItems, shape]; rfl⟩
      | cons next texts => exact ⟨_, by rw [writeItems, shape]; rfl⟩
    rw [start] at inner ⊢
    simp only [readArray, expectOther notSpace notClose, inner, Option.map_some]

theorem readsArray {texts : List Bytes} {vs : List Value} {fuel depth : Nat}
    (shallow : depth < maxNestingDepth) (items : ReadsItems (readValue fuel (depth + 1)) texts vs)
    (close : UInt8) : ReadsBack close (readValue (fuel + 1) depth) (writeArray texts) (.arr vs) := by
  intro sep rest _
  have inner := readArrayWritten items (sep :: rest)
  have opened : readValue (fuel + 1) depth (writeArray texts ++ sep :: rest) =
      if depth < maxNestingDepth then
        readArray (readValue fuel (depth + 1)) (writeItems texts ++ [closeBracket] ++ sep :: rest)
      else none := rfl
  rw [opened, if_pos shallow, List.append_assoc, List.singleton_append, inner]

end OmegaLb.Json
