import OmegaLb.Utf8

/-! JSON text as encoding/json writes and checks it (Go 1.22): string escapes with the
HTML characters among them, the number grammar, nesting to 10000. A string is read to
its unquoted, valid UTF-8 value; what follows a value is returned with it. -/
namespace OmegaLb.Json
open GoText (Bytes decimal isDigit)
open Utf8 (rune runes replacement)

@[match_pattern] abbrev dquote : UInt8 := 34
@[match_pattern] abbrev plus : UInt8 := 43
@[match_pattern] abbrev comma : UInt8 := 44
@[match_pattern] abbrev minus : UInt8 := 45
@[match_pattern] abbrev dot : UInt8 := 46
@[match_pattern] abbrev digitZero : UInt8 := 48
@[match_pattern] abbrev colon : UInt8 := 58
@[match_pattern] abbrev openBracket : UInt8 := 91
@[match_pattern] abbrev backslash : UInt8 := 92
@[match_pattern] abbrev closeBracket : UInt8 := 93
@[match_pattern] abbrev letterU : UInt8 := 117
@[match_pattern] abbrev openBrace : UInt8 := 123
@[match_pattern] abbrev closeBrace : UInt8 := 125

/-! ### Writing strings -/

def hexDigit (n : Nat) : UInt8 := if n < 10 then UInt8.ofNat (48 + n) else UInt8.ofNat (87 + n)

def escapeU (n : Nat) : Bytes :=
  [backslash, letterU, hexDigit (n / 4096 % 16), hexDigit (n / 256 % 16), hexDigit (n / 16 % 16),
    hexDigit (n % 16)]

def escapeByte (b : UInt8) : Bytes :=
  if b = backslash ∨ b = dquote then [backslash, b]
  else if b = 8 then [backslash, 98]
  else if b = 12 then [backslash, 102]
  else if b = 10 then [backslash, 110]
  else if b = 13 then [backslash, 114]
  else if b = 9 then [backslash, 116]
  else if b < 32 ∨ b = 60 ∨ b = 62 ∨ b = 38 then escapeU b.toNat
  else [b]

def quoteChunk : Option Bytes → Bytes
  | none => escapeU 0xFFFD
  | some [b] => escapeByte b
  | some c =>
    if c = [0xE2, 0x80, 0xA8] then escapeU 0x2028
    else if c = [0xE2, 0x80, 0xA9] then escapeU 0x2029
    else c

def quote (s : Bytes) : Bytes := dquote :: (runes s).flatMap quoteChunk ++ [dquote]

/-! ### Reading strings -/

def hexValue (b : UInt8) : Option Nat :=
  if isDigit b then some (b.toNat - 48)
  else if 97 ≤ b ∧ b ≤ 102 then some (b.toNat - 87)
  else if 65 ≤ b ∧ b ≤ 70 then some (b.toNat - 55)
  else none

def readHex4 : Bytes → Option (Nat × Bytes)
  | a :: b :: c :: d :: s => do
    let a ← hexValue a
    let b ← hexValue b
    let c ← hexValue c
    let d ← hexValue d
    some (4096 * a + 256 * b + 16 * c + d, s)
  | _ => none

def encodeRune (n : Nat) : Bytes :=
  if n < 0x80 then [UInt8.ofNat n]
  else if n < 0x800 then [UInt8.ofNat (0xC0 + n / 64), UInt8.ofNat (0x80 + n % 64)]
  else if 0xD800 ≤ n ∧ n < 0xE000 ∨ 0x110000 ≤ n then replacement
  else if n < 0x10000 then
    [UInt8.ofNat (0xE0 + n / 4096), UInt8.ofNat (0x80 + n / 64 % 64), UInt8.ofNat (0x80 + n % 64)]
  else
    [UInt8.ofNat (0xF0 + n / 262144), UInt8.ofNat (0x80 + n / 4096 % 64),
      UInt8.ofNat (0x80 + n / 64 % 64), UInt8.ofNat (0x80 + n % 64)]

def unescape (e : UInt8) : Option UInt8 :=
  if e = backslash ∨ e = dquote ∨ e = 47 then some e
  else if e = 98 then some 8
  else if e = 102 then some 12
  else if e = 110 then some 10
  else if e = 114 then some 13
  else if e = 116 then some 9
  else none

def lowSurrogate : Bytes → Option (Nat × Bytes)
  | backslash :: letterU :: s => do
    let (v, s) ← readHex4 s
    if 0xDC00 ≤ v ∧ v < 0xE000 then some (v, s) else none
  | _ => none

def readEscapeU (s : Bytes) : Option (Bytes × Bytes) := do
  let (u, s) ← readHex4 s
  if 0xD800 ≤ u ∧ u < 0xE000 then
    match lowSurrogate s with
    | some (v, after) =>
      if u < 0xDC00 then some (encodeRune (0x10000 + 1024 * (u - 0xD800) + (v - 0xDC00)), after)
      else some (replacement, s)
    | none => some (replacement, s)
  else some (encodeRune u, s)

def readChunk : Bytes → Option (Bytes × Bytes)
  | [] => none
  | backslash :: letterU :: s => readEscapeU s
  | backslash :: e :: s => (unescape e).map fun b => ([b], s)
  | b :: s =>
    if b < 32 ∨ b = backslash then none
    else
      match rune (b :: s) with
      | some (c, after) => some (c, after)
      | none => some (replacement, s)

def readString : Nat → Bytes → Option (Bytes × Bytes)
  | 0, _ => none
  | fuel + 1, s =>
    match s with
    | dquote :: rest => some ([], rest)
    | s => do
      let (c, s) ← readChunk s
      let (t, s) ← readString fuel s
      some (c ++ t, s)

/-! ### Numbers -/

def readSign : Bytes → Bytes × Bytes
  | minus :: s => ([minus], s)
  | s => ([], s)

def readDigits (s : Bytes) : Option (Bytes × Bytes) :=
  match s.span isDigit with
  | ([], _) => none
  | found => some found

def readInteger : Bytes → Option (Bytes × Bytes)
  | digitZero :: s => some ([digitZero], s)
  | s => readDigits s

def readFraction : Bytes → Option (Bytes × Bytes)
  | dot :: s => (readDigits s).map fun (ds, s) => (dot :: ds, s)
  | s => some ([], s)

def readExponent : Bytes → Option (Bytes × Bytes)
  | [] => some ([], [])
  | e :: s =>
    if e = 101 ∨ e = 69 then
      let (sign, s) := match s with
        | plus :: s => ([plus], s)
        | s => readSign s
      (readDigits s).map fun (ds, s) => (e :: sign ++ ds, s)
    else some ([], e :: s)

def readNumber (s : Bytes) : Option (Bytes × Bytes) := do
  let (sign, s) := readSign s
  let (int, s) ← readInteger s
  let (frac, s) ← readFraction s
  let (exp, s) ← readExponent s
  some (sign ++ int ++ frac ++ exp, s)

/-! ### Values -/

inductive Value where
  | null
  | bool (b : Bool)
  | num (literal : Bytes)
  | str (s : Bytes)
  | arr (items : List Value)
  | obj (members : List (Bytes × Value))

def isSpace (b : UInt8) : Bool := b = 32 || b = 9 || b = 13 || b = 10

def skipSpace (s : Bytes) : Bytes := s.dropWhile isSpace

def expect (b : UInt8) (s : Bytes) : Option Bytes :=
  match skipSpace s with
  | [] => none
  | x :: s => if x = b then some s else none

def readMembers (readValue : Bytes → Option (Value × Bytes)) :
    Nat → Bytes → Option (List (Bytes × Value) × Bytes)
  | 0, _ => none
  | fuel + 1, s => do
    let s ← expect dquote s
    let (key, s) ← readString (s.length + 1) s
    let s ← expect colon s
    let (v, s) ← readValue s
    match expect comma s with
    | some s => (readMembers readValue fuel s).map fun (ms, s) => ((key, v) :: ms, s)
    | none => (expect closeBrace s).map fun s => ([(key, v)], s)

def readItems (readValue : Bytes → Option (Value × Bytes)) :
    Nat → Bytes → Option (List Value × Bytes)
  | 0, _ => none
  | fuel + 1, s => do
    let (v, s) ← readValue s
    match expect comma s with
    | some s => (readItems readValue fuel s).map fun (vs, s) => (v :: vs, s)
    | none => (expect closeBracket s).map fun s => ([v], s)

def readObject (readValue : Bytes → Option (Value × Bytes)) (s : Bytes) : Option (Value × Bytes) :=
  match expect closeBrace s with
  | some s => some (.obj [], s)
  | none => (readMembers readValue (s.length + 1) s).map fun (ms, s) => (.obj ms, s)

def readArray (readValue : Bytes → Option (Value × Bytes)) (s : Bytes) : Option (Value × Bytes) :=
  match expect closeBracket s with
  | some s => some (.arr [], s)
  | none => (readItems readValue (s.length + 1) s).map fun (vs, s) => (.arr vs, s)

def readLiteral : Bytes → Option (Value × Bytes)
  | 116 :: 114 :: 117 :: 101 :: s => some (.bool true, s)
  | 102 :: 97 :: 108 :: 115 :: 101 :: s => some (.bool false, s)
  | 110 :: 117 :: 108 :: 108 :: s => some (.null, s)
  | s => (readNumber s).map fun (n, s) => (.num n, s)

def maxNestingDepth : Nat := 10000

def readValue : Nat → Nat → Bytes → Option (Value × Bytes)
  | 0, _, _ => none
  | fuel + 1, depth, s =>
    match skipSpace s with
    | dquote :: s => (readString (s.length + 1) s).map fun (t, s) => (.str t, s)
    | openBrace :: s =>
      if depth < maxNestingDepth then readObject (readValue fuel (depth + 1)) s else none
    | openBracket :: s =>
      if depth < maxNestingDepth then readArray (readValue fuel (depth + 1)) s else none
    | s => readLiteral s

def parse (s : Bytes) : Option Value := do
  let (v, s) ← readValue (s.length + 1) 0 s
  if skipSpace s = [] then some v else none

/-! ### Writing objects -/

def writeMember (field : Bytes × Bytes) : Bytes := quote field.1 ++ colon :: field.2

def writeMembers : List (Bytes × Bytes) → Bytes
  | [] => []
  | [field] => writeMember field
  | field :: next :: rest => writeMember field ++ comma :: writeMembers (next :: rest)

def writeObject (fields : List (Bytes × Bytes)) : Bytes :=
  openBrace :: writeMembers fields ++ [closeBrace]

end OmegaLb.Json
