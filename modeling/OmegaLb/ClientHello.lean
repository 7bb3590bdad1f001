import OmegaLb.SniInspector

/-! The ClientHello record of the layout that inspector.go documents. A hello carries the bounds
of its own length fields, so every encoding here is a record whose lengths are consistent. -/
namespace OmegaLb.Tls
open GoText (Bytes)

def encode16 (n : Nat) : Bytes := [UInt8.ofNat (n / 256), UInt8.ofNat n]

def encode24 (n : Nat) : Bytes := [UInt8.ofNat (n / 65536), UInt8.ofNat (n / 256), UInt8.ofNat n]

def encodeName (e : UInt8 × Bytes) : Bytes := e.1 :: encode16 e.2.length ++ e.2

def encodeNames (names : List (UInt8 × Bytes)) : Bytes := names.flatMap encodeName

inductive Extension where
  | serverName (names : List (UInt8 × Bytes))
  | other (type : UInt16) (nonzero : type ≠ 0) (data : Bytes)

def Extension.type : Extension → Nat
  | .serverName _ => 0
  | .other type _ _ => type.toNat

def Extension.data : Extension → Bytes
  | .serverName names => encode16 (encodeNames names).length ++ encodeNames names
  | .other _ _ data => data

def Extension.encode (e : Extension) : Bytes := encode16 e.type ++ encode16 e.data.length ++ e.data

def encodeBlock (es : List Extension) : Bytes := es.flatMap Extension.encode

def encodeExtensions : Option (List Extension) → Bytes
  | none => []
  | some es => encode16 (encodeBlock es).length ++ encodeBlock es

def encodeBody (version : UInt8 × UInt8) (random sessionID cipherSuites compression : Bytes)
    (extensions : Option (List Extension)) : Bytes :=
  [version.1, version.2] ++ random ++ UInt8.ofNat sessionID.length :: sessionID ++
    encode16 cipherSuites.length ++ cipherSuites ++
    UInt8.ofNat compression.length :: compression ++ encodeExtensions extensions

structure ClientHello where
  recordMinor : UInt8
  version : UInt8 × UInt8
  random : Bytes
  sessionID : Bytes
  cipherSuites : Bytes
  compression : Bytes
  extensions : Option (List Extension)
  randomLength : random.length = 32
  idFits : sessionID.length ≤ 32
  compressionFits : compression.length < 256
  recordFits :
    4 + (encodeBody version random sessionID cipherSuites compression extensions).length < 65536

def ClientHello.body (h : ClientHello) : Bytes :=
  encodeBody h.version h.random h.sessionID h.cipherSuites h.compression h.extensions

def ClientHello.encode (h : ClientHello) : Bytes :=
  [0x16, 0x03, h.recordMinor] ++ encode16 (4 + h.body.length) ++ 0x01 :: encode24 h.body.length ++ h.body

def Extension.names : Extension → Option (List (UInt8 × Bytes))
  | .serverName names => some names
  | .other _ _ _ => none

def firstHost (names : List (UInt8 × Bytes)) : Option Bytes :=
  (names.find? fun e => e.1 = 0).map Prod.snd

/-- The first host_name entry of the first server_name extension. -/
def blockHost (es : List Extension) : Option Bytes := (es.findSome? Extension.names).bind firstHost

def ClientHello.hostName (h : ClientHello) : Option Bytes := h.extensions.bind blockHost

def named : Option Bytes → Sni
  | some name => .ok name
  | none => .error .noSNI

/-! ### Reading at an offset -/

variable {front back data : Bytes} {pos : Nat}

theorem byteAtMiddle (b : UInt8) (at_ : front.length = pos) :
    byteAt (front ++ b :: back) pos = b.toNat := by
  subst at_
  simp [byteAt]

theorem wordMiddle {n : Nat} (fits : n < 65536) (at_ : front.length = pos) :
    word (front ++ (encode16 n ++ back)) pos = n := by
  have second : front ++ (encode16 n ++ back) =
      (front ++ [UInt8.ofNat (n / 256)]) ++ UInt8.ofNat n :: back := by simp [encode16]
  rw [word]
  nth_rewrite 2 [second]
  rw [byteAtMiddle _ (by simp [at_])]
  rw [show front ++ (encode16 n ++ back) = front ++ UInt8.ofNat (n / 256) :: UInt8.ofNat n :: back from rfl,
    byteAtMiddle _ at_]
  simp only [UInt8.toNat_ofNat']
  omega

theorem sliceMiddle (name : Bytes) (at_ : front.length = pos) :
    ((front ++ (name ++ back)).take (pos + name.length)).drop pos = name := by
  subst at_
  rw [List.drop_take, Nat.add_sub_cancel_left, List.drop_left, List.take_left]

theorem encodeNameLength (e : UInt8 × Bytes) : (encodeName e).length = 3 + e.2.length := by
  simp [encodeName, encode16]
  omega

theorem findHostEncoded {names : List (UInt8 × Bytes)} (fits : (encodeNames names).length < 65536)
    (at_ : front.length = pos) {listEnd : Nat} (ends : pos + (encodeNames names).length = listEnd)
    (whole : data = front ++ (encodeNames names ++ back)) :
    nameAt data (findHost data listEnd pos) = named (firstHost names) := by
  induction names generalizing front pos with
  | nil =>
    rw [findHost, if_neg (by simp [← ends, encodeNames])]
    rfl
  | cons e rest ih =>
    obtain ⟨nameType, name⟩ := e
    have cons : encodeNames ((nameType, name) :: rest) = encodeName (nameType, name) ++ encodeNames rest :=
      List.flatMap_cons
    have length : (encodeNames ((nameType, name) :: rest)).length =
        3 + name.length + (encodeNames rest).length := by
      rw [cons, List.length_append, encodeNameLength]
    have atType : byteAt data pos = nameType.toNat := by
      rw [whole, cons]
      exact byteAtMiddle nameType at_
    have atLen : word data (pos + 1) = name.length := by
      have shape : data = (front ++ [nameType]) ++ (encode16 name.length ++
          (name ++ (encodeNames rest ++ back))) := by simp [whole, cons, encodeName]
      rw [shape]
      exact wordMiddle (by omega) (by simp [at_])
    have inside : pos + 3 ≤ listEnd ∧ pos + 3 + name.length ≤ listEnd := by omega
    rw [findHost, if_pos inside.1, atLen, if_neg (by omega), atType]
    by_cases host : nameType = 0
    · subst host
      have shape : data = (front ++ 0 :: encode16 name.length) ++ (name ++ (encodeNames rest ++ back)) := by
        simp [whole, cons, encodeName]
      rw [if_pos UInt8.toNat_zero, nameAt, shape, sliceMiddle name (by simp [encode16, at_])]
      rfl
    · have other : ¬ nameType.toNat = 0 := fun zero => host (UInt8.toNat_inj.mp zero)
      have shape : data = (front ++ encodeName (nameType, name)) ++ (encodeNames rest ++ back) := by
        simp [whole, cons]
      rw [if_neg other, ih (by omega) (by simp [encodeNameLength, at_]; omega) (by omega) shape, firstHost,
        firstHost, List.find?_cons_of_neg (by simp [host])]

theorem encodeLength (e : Extension) : e.encode.length = 4 + e.data.length := by
  simp [Extension.encode, encode16]
  omega

theorem typeFits (e : Extension) : e.type < 65536 := by
  cases e with
  | serverName names => exact Nat.zero_lt_succ _
  | other type nonzero data => exact type.toNat_lt

theorem extensionHeader (e : Extension) (fits : e.data.length < 65536) (at_ : front.length = pos)
    (whole : data = front ++ (e.encode ++ back)) :
    word data pos = e.type ∧ word data (pos + 2) = e.data.length := by
  have typed : data = front ++ (encode16 e.type ++ (encode16 e.data.length ++ e.data ++ back)) := by
    simp [whole, Extension.encode]
  have sized : data = (front ++ encode16 e.type) ++ (encode16 e.data.length ++ (e.data ++ back)) := by
    simp [whole, Extension.encode]
  constructor
  · rw [typed]
    exact wordMiddle (typeFits e) at_
  · rw [sized]
    exact wordMiddle fits (by simp [encode16, at_])

theorem hostAfterEncoded {names : List (UInt8 × Bytes)} (fits : (encodeNames names).length < 65536)
    (at_ : front.length = pos) {end_ : Nat} (ends : pos + 6 + (encodeNames names).length ≤ end_)
    (whole : data = front ++ ((Extension.serverName names).encode ++ back)) :
    nameAt data (hostAfter data end_ pos) = named (firstHost names) := by
  have header : data = (front ++ (encode16 0 ++ encode16 (Extension.serverName names).data.length)) ++
      (encode16 (encodeNames names).length ++ (encodeNames names ++ back)) := by
    simp [whole, Extension.encode, Extension.type, Extension.data]
  have shape : data = (front ++ (encode16 0 ++ (encode16 (Extension.serverName names).data.length ++
      encode16 (encodeNames names).length))) ++ (encodeNames names ++ back) := by
    simp [header]
  have listLen : word data (pos + 4) = (encodeNames names).length := by
    rw [header]
    exact wordMiddle fits (by simp [encode16, at_])
  rw [hostAfter, if_neg (by omega), listLen, min_eq_left ends]
  exact findHostEncoded fits (by simp [encode16, at_]) rfl shape

theorem findNameEncoded {es : List Extension} (fits : (encodeBlock es).length < 65536)
    (at_ : front.length = pos) {end_ : Nat} (ends : pos + (encodeBlock es).length = end_)
    (whole : data = front ++ (encodeBlock es ++ back)) :
    nameAt data (findName data end_ pos) = named (blockHost es) := by
  induction es generalizing front pos with
  | nil =>
    rw [findName, findServerName, if_neg (by simp [← ends, encodeBlock])]
    rfl
  | cons e rest ih =>
    have cons : encodeBlock (e :: rest) = e.encode ++ encodeBlock rest := List.flatMap_cons
    have length : (encodeBlock (e :: rest)).length = 4 + e.data.length + (encodeBlock rest).length := by
      rw [cons, List.length_append, encodeLength]
    have first : data = front ++ (e.encode ++ (encodeBlock rest ++ back)) := by simp [whole, cons]
    obtain ⟨atType, atLen⟩ := extensionHeader e (by omega) at_ first
    rw [findName, findServerName, if_pos (by omega), atType, atLen]
    cases e with
    | serverName names =>
      have inner : (Extension.serverName names).data.length = 2 + (encodeNames names).length := by
        simp [Extension.data, encode16]
        omega
      have isName : (Extension.serverName names).type = 0 := rfl
      rw [if_pos isName, Option.bind_some]
      exact hostAfterEncoded (by omega) at_ (by omega) first
    | other type nonzero inner =>
      have different : ¬ (Extension.other type nonzero inner).type = 0 :=
        fun zero => nonzero (UInt16.toNat_inj.mp zero)
      have shape : data = (front ++ (Extension.other type nonzero inner).encode) ++
          (encodeBlock rest ++ back) := by simp [first]
      have next : nameAt data (findName data end_
          (pos + 4 + (Extension.other type nonzero inner).data.length)) = named (blockHost rest) :=
        ih (by omega) (by simp [encodeLength, at_]; omega) (by omega) shape
      rw [if_neg different, ← findName, next]
      rfl

/-! ### The whole record -/

def ClientHello.header (h : ClientHello) : Bytes :=
  [0x16, 0x03, h.recordMinor] ++ encode16 (4 + h.body.length) ++ 0x01 :: encode24 h.body.length

theorem encodeHeader (h : ClientHello) : h.encode = h.header ++ h.body := by
  simp [ClientHello.encode, ClientHello.header]

theorem encodeTotal (h : ClientHello) : h.encode.length = 9 + h.body.length := by
  simp [encodeHeader, ClientHello.header, encode16, encode24]
  omega

theorem helloAccepted (h : ClientHello) : headerError h.encode = none := by
  have fits : 4 + h.body.length < 65536 := h.recordFits
  have length := encodeTotal h
  have recordLen : word h.encode 3 = 4 + h.body.length := by
    have shape : h.encode = [0x16, 0x03, h.recordMinor] ++ (encode16 (4 + h.body.length) ++
        0x01 :: (encode24 h.body.length ++ h.body)) := by simp [ClientHello.encode]
    rw [shape]
    exact wordMiddle (by omega) rfl
  have hsLen : hsLen h.encode = h.body.length := by
    simp only [hsLen, byteAt, ClientHello.encode, encode16, encode24, List.cons_append, List.nil_append,
      List.getD_cons_succ, List.getD_cons_zero, UInt8.toNat_ofNat']
    omega
  have first : byteAt h.encode 0 = 0x16 := rfl
  have second : byteAt h.encode 1 = 0x03 := rfl
  have sixth : byteAt h.encode 5 = 0x01 := rfl
  simp only [headerError, length, recordLen, hsLen, first, second, sixth]
  rw [if_neg (by omega), if_neg (by omega), if_neg (by omega), if_neg (by omega)]

/-- What stands before the extensions. -/
def ClientHello.fixed (h : ClientHello) : Bytes :=
  h.header ++ [h.version.1, h.version.2] ++ h.random ++
    UInt8.ofNat h.sessionID.length :: h.sessionID ++ encode16 h.cipherSuites.length ++ h.cipherSuites ++
    UInt8.ofNat h.compression.length :: h.compression

theorem fixedLength (h : ClientHello) : h.fixed.length =
    44 + h.sessionID.length + 2 + h.cipherSuites.length + 1 + h.compression.length := by
  simp [ClientHello.fixed, ClientHello.header, encode16, encode24, h.randomLength]
  omega

theorem encodeFixed (h : ClientHello) : h.encode = h.fixed ++ encodeExtensions h.extensions := by
  simp [encodeHeader, ClientHello.fixed, ClientHello.body, encodeBody]

theorem encodeSplit (h : ClientHello) :
    h.encode.length = h.fixed.length + (encodeExtensions h.extensions).length := by
  rw [encodeFixed, List.length_append]

theorem idLength (h : ClientHello) : byteAt h.encode 43 = h.sessionID.length := by
  have shape : h.encode = (h.header ++ ([h.version.1, h.version.2] ++ h.random)) ++
      UInt8.ofNat h.sessionID.length :: (h.sessionID ++ (encode16 h.cipherSuites.length ++
        (h.cipherSuites ++ (UInt8.ofNat h.compression.length :: (h.compression ++
          encodeExtensions h.extensions))))) := by simp [encodeFixed, ClientHello.fixed]
  have small := h.idFits
  rw [shape, byteAtMiddle _ (by simp [ClientHello.header, encode16, encode24, h.randomLength]),
    UInt8.toNat_ofNat', Nat.mod_eq_of_lt (by omega)]

theorem suitesLength (h : ClientHello) : word h.encode (44 + h.sessionID.length) = h.cipherSuites.length := by
  have shape : h.encode = (h.header ++ ([h.version.1, h.version.2] ++ (h.random ++
      UInt8.ofNat h.sessionID.length :: h.sessionID))) ++ (encode16 h.cipherSuites.length ++
        (h.cipherSuites ++ (UInt8.ofNat h.compression.length :: (h.compression ++
          encodeExtensions h.extensions)))) := by simp [encodeFixed, ClientHello.fixed]
  have fits : 4 + h.body.length < 65536 := h.recordFits
  have total := encodeTotal h
  have length := encodeSplit h
  have fixed := fixedLength h
  rw [shape]
  refine wordMiddle (by omega) ?_
  simp [ClientHello.header, encode16, encode24, h.randomLength]
  omega

theorem compressionLength (h : ClientHello) :
    byteAt h.encode (44 + h.sessionID.length + 2 + h.cipherSuites.length) = h.compression.length := by
  have shape : h.encode = (h.header ++ ([h.version.1, h.version.2] ++ (h.random ++
      UInt8.ofNat h.sessionID.length :: (h.sessionID ++ (encode16 h.cipherSuites.length ++
        h.cipherSuites))))) ++ UInt8.ofNat h.compression.length :: (h.compression ++
          encodeExtensions h.extensions) := by simp [encodeFixed, ClientHello.fixed]
  rw [shape, byteAtMiddle, UInt8.toNat_ofNat', Nat.mod_eq_of_lt h.compressionFits]
  simp [ClientHello.header, encode16, encode24, h.randomLength]
  omega

theorem blockEncoded (h : ClientHello) : blockAt h.encode h.encode.length =
    if h.encode.length < h.fixed.length + 2 then .error .noSNI else .ok h.fixed.length := by
  have length := encodeSplit h
  have fixed := fixedLength h
  simp only [blockAt, idLength, suitesLength, compressionLength]
  rw [if_neg (by omega), if_neg (by omega), if_neg (by omega), ← fixed]

theorem helloNameEncoded (h : ClientHello) :
    (helloName h.encode).bind (nameAt h.encode) = named h.hostName := by
  have whole := encodeFixed h
  have fits : 4 + h.body.length < 65536 := h.recordFits
  have total := encodeTotal h
  have length := encodeSplit h
  have fixed := fixedLength h
  rw [helloName, blockEncoded]
  cases extensions : h.extensions with
  | none =>
    rw [extensions, encodeExtensions, List.length_nil] at length
    rw [if_pos (by omega), ClientHello.hostName, extensions]
    rfl
  | some es =>
    have block : (encodeExtensions (some es)).length = 2 + (encodeBlock es).length := by
      simp [encodeExtensions, encode16]
      omega
    rw [extensions] at length whole
    have shape : h.encode = h.fixed ++ (encode16 (encodeBlock es).length ++ (encodeBlock es ++ [])) := by
      simp [whole, encodeExtensions]
    have blockLen : word h.encode h.fixed.length = (encodeBlock es).length := by
      rw [shape]
      exact wordMiddle (by omega) rfl
    have inner : h.encode = (h.fixed ++ encode16 (encodeBlock es).length) ++ (encodeBlock es ++ []) := by
      simp [shape]
    have front : (h.fixed ++ encode16 (encodeBlock es).length).length = h.fixed.length + 2 := by
      simp [encode16]
    have found := findNameEncoded (by omega) front rfl inner
    rw [if_neg (by omega), ClientHello.hostName, extensions]
    simp only [bind, Except.bind, blockLen, min_eq_left (show h.fixed.length + 2 + (encodeBlock es).length ≤
      h.encode.length by omega)]
    exact found

theorem decodesHello (h : ClientHello) : extractSNI h.encode = .ok (named h.hostName) := by
  rw [extractReads, readSNI, helloAccepted]
  exact congrArg _ (helloNameEncoded h)

/-- Two extensions, and a list whose host_name comes second. -/
def offered : ClientHello := ⟨1, (3, 3), List.replicate 32 7, [9], [0, 47], [0],
  some [.other 10 (by decide) [0, 2, 0, 29], .serverName [(1, [120]), (0, [97, 46, 98])]],
  rfl, by decide, by decide, by decide⟩

theorem offeredDecoded : extractSNI offered.encode = .ok (.ok [97, 46, 98]) := decodesHello offered

end OmegaLb.Tls
