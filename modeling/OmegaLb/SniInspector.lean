import OmegaLb.GoRuntime
import OmegaLb.GoText

/-! ExtractSNI of inspector.go. Every index and every slice is taken as the source takes it and
may panic; the reading at the end never does. -/
namespace OmegaLb.Tls
open GoText (Bytes)

inductive SniError where
  | notClientHello
  | noSNI
  | truncatedRecord (want actual : Nat)
  | truncatedHandshake (want actual : Nat)
  deriving DecidableEq, Repr

def SniError.text : SniError → String
  | .notClientHello => "tls: not a ClientHello record"
  | .noSNI => "tls: no SNI extension in ClientHello"
  | .truncatedRecord want actual => s!"tls: truncated record: want {want}, have {actual}"
  | .truncatedHandshake want actual => s!"tls: truncated handshake: want {want}, have {actual}"

abbrev Sni := Except SniError Bytes

/-- binary.BigEndian.Uint16(data[pos : pos+2]) -/
def uint16 (data : Bytes) (pos : Nat) : Go Nat := do
  let b ← goSlice data pos (pos + 2)
  let high ← goIndex b 0
  let low ← goIndex b 1
  return high.toNat * 256 + low.toNat

def nameLoop (data : Bytes) (listEnd pos : Nat) : Go Sni :=
  if pos + 3 ≤ listEnd then do
    let nameType ← goIndex data pos
    let nameLen ← uint16 data (pos + 1)
    if pos + 3 + nameLen > listEnd then return .error .noSNI
    else if nameType = 0x00 then
      let name ← goSlice data (pos + 3) (pos + 3 + nameLen)
      return .ok name
    else nameLoop data listEnd (pos + 3 + nameLen)
  else .ok (.error .noSNI)
termination_by listEnd - pos

def extensionLoop (data : Bytes) (end_ pos : Nat) : Go Sni :=
  if pos + 4 ≤ end_ then do
    let extType ← uint16 data pos
    let extLen ← uint16 data (pos + 2)
    if extType = 0x0000 then
      if pos + 6 > end_ then return .error .noSNI
      else
        let listLen ← uint16 data (pos + 4)
        let listEnd := pos + 6 + listLen
        let listEnd := if listEnd > end_ then end_ else listEnd
        nameLoop data listEnd (pos + 6)
    else extensionLoop data end_ (pos + 4 + extLen)
  else .ok (.error .noSNI)
termination_by end_ - pos

def extensions (data : Bytes) (pos : Nat) : Go Sni := do
  let extensionsLen ← uint16 data pos
  let end_ := pos + 2 + extensionsLen
  let end_ := if end_ > data.length then data.length else end_
  extensionLoop data end_ (pos + 2)

def body (data : Bytes) : Go Sni := do
  let pos := 9 + 2 + 32
  if pos ≥ data.length then return .error .notClientHello
  else
    let sessionIDLen ← goIndex data pos
    let pos := pos + 1 + sessionIDLen.toNat
    if pos + 2 > data.length then return .error .notClientHello
    else
      let cipherSuitesLen ← uint16 data pos
      let pos := pos + 2 + cipherSuitesLen
      if pos + 1 > data.length then return .error .notClientHello
      else
        let compressionLen ← goIndex data pos
        let pos := pos + 1 + compressionLen.toNat
        if pos + 2 > data.length then return .error .noSNI else extensions data pos

def handshake (data : Bytes) : Go Sni := do
  let msgType ← goIndex data 5
  if msgType ≠ 0x01 then return .error .notClientHello
  else if data.length < 9 then return .error .notClientHello
  else
    let high ← goIndex data 6
    let middle ← goIndex data 7
    let low ← goIndex data 8
    let hsLen := high.toNat * 65536 + middle.toNat * 256 + low.toNat
    if data.length < 9 + hsLen then return .error (.truncatedHandshake (9 + hsLen) data.length)
    else body data

def extractSNI (data : Bytes) : Go Sni :=
  if data.length < 6 then .ok (.error .notClientHello)
  else do
    let contentType ← goIndex data 0
    if contentType ≠ 0x16 then return .error .notClientHello
    else
      let version ← goIndex data 1
      if version ≠ 0x03 then return .error .notClientHello
      else
        let recordLen ← uint16 data 3
        if data.length < 5 + recordLen then
          return .error (.truncatedRecord (5 + recordLen) data.length)
        else handshake data

/-! ### What it reads -/

def byteAt (data : Bytes) (i : Nat) : Nat := (data.getD i 0).toNat

def word (data : Bytes) (pos : Nat) : Nat := byteAt data pos * 256 + byteAt data (pos + 1)

/-- The host_name that the walk over a server_name list comes to: where it starts, and its length. -/
def findHost (data : Bytes) (listEnd pos : Nat) : Option (Nat × Nat) :=
  if pos + 3 ≤ listEnd then
    if pos + 3 + word data (pos + 1) > listEnd then none
    else if byteAt data pos = 0 then some (pos + 3, word data (pos + 1))
    else findHost data listEnd (pos + 3 + word data (pos + 1))
  else none
termination_by listEnd - pos

/-- Where the first server_name extension of the block starts. -/
def findServerName (data : Bytes) (end_ pos : Nat) : Option Nat :=
  if pos + 4 ≤ end_ then
    if word data pos = 0 then some pos
    else findServerName data end_ (pos + 4 + word data (pos + 2))
  else none
termination_by end_ - pos

def hostAfter (data : Bytes) (end_ q : Nat) : Option (Nat × Nat) :=
  if q + 6 > end_ then none else findHost data (min (q + 6 + word data (q + 4)) end_) (q + 6)

def findName (data : Bytes) (end_ pos : Nat) : Option (Nat × Nat) :=
  (findServerName data end_ pos).bind (hostAfter data end_)

def nameAt (data : Bytes) : Option (Nat × Nat) → Sni
  | none => .error .noSNI
  | some (start, length) => .ok ((data.take (start + length)).drop start)

/-- Where the length of the extension block stands. -/
def blockAt (data : Bytes) (limit : Nat) : Except SniError Nat :=
  let afterId := 44 + byteAt data 43
  let afterSuites := afterId + 2 + word data afterId
  let afterCompression := afterSuites + 1 + byteAt data afterSuites
  if 43 ≥ limit then .error .notClientHello
  else if afterId + 2 > limit then .error .notClientHello
  else if afterSuites + 1 > limit then .error .notClientHello
  else if afterCompression + 2 > limit then .error .noSNI
  else .ok afterCompression

def helloName (data : Bytes) : Except SniError (Option (Nat × Nat)) := do
  let pos ← blockAt data data.length
  return findName data (min (pos + 2 + word data pos) data.length) (pos + 2)

def hsLen (data : Bytes) : Nat := byteAt data 6 * 65536 + byteAt data 7 * 256 + byteAt data 8

def headerError (data : Bytes) : Option SniError :=
  if data.length < 6 ∨ byteAt data 0 ≠ 0x16 ∨ byteAt data 1 ≠ 0x03 then some .notClientHello
  else if data.length < 5 + word data 3 then some (.truncatedRecord (5 + word data 3) data.length)
  else if byteAt data 5 ≠ 0x01 ∨ data.length < 9 then some .notClientHello
  else if data.length < 9 + hsLen data then some (.truncatedHandshake (9 + hsLen data) data.length)
  else none

def readSNI (data : Bytes) : Sni :=
  match headerError data with
  | some err => .error err
  | none => (helloName data).bind (nameAt data)

theorem serverHere {data : Bytes} {end_ pos : Nat} (inside : pos + 4 ≤ end_) (isName : word data pos = 0) :
    findServerName data end_ pos = some pos := by
  rw [findServerName, if_pos inside, if_pos isName]

theorem serverNext {data : Bytes} {end_ pos : Nat} (inside : pos + 4 ≤ end_) (isOther : word data pos ≠ 0) :
    findServerName data end_ pos = findServerName data end_ (pos + 4 + word data (pos + 2)) := by
  rw [findServerName, if_pos inside, if_neg isOther]

theorem serverPast {data : Bytes} {end_ pos : Nat} (short : end_ < pos + 4) :
    findServerName data end_ pos = none := by
  rw [findServerName, if_neg (not_le.mpr short)]

theorem indexByte {data : Bytes} {i : Nat} (inside : i < data.length) :
    ∃ b : UInt8, goIndex data i = .ok b ∧ b.toNat = byteAt data i := by
  refine ⟨data[i], goIndexFound (List.getElem?_eq_getElem inside), ?_⟩
  rw [byteAt, List.getD_eq_getElem?_getD, List.getElem?_eq_getElem inside]
  rfl

theorem byteDiffers {b : UInt8} {n : Nat} (value : b.toNat = n) (c : UInt8) : n ≠ c.toNat ↔ b ≠ c := by
  rw [← value, ne_eq, ne_eq, UInt8.toNat_inj]

theorem uint16Word {data : Bytes} {pos : Nat} (inside : pos + 2 ≤ data.length) :
    uint16 data pos = .ok (word data pos) := by
  have first : pos < data.length := by omega
  have second : pos + 1 < data.length := by omega
  have slice : goSlice data pos (pos + 2) = .ok [data[pos], data[pos + 1]] := by
    rw [goSlice, if_pos ⟨by omega, inside⟩, List.drop_take, Nat.add_sub_cancel_left,
      List.drop_eq_getElem_cons first, List.drop_eq_getElem_cons second]
    rfl
  obtain ⟨high, atHigh, isHigh⟩ := indexByte first
  obtain ⟨low, atLow, isLow⟩ := indexByte second
  rw [goIndexFound (List.getElem?_eq_getElem first)] at atHigh
  rw [goIndexFound (List.getElem?_eq_getElem second)] at atLow
  rw [← Except.ok.inj atHigh] at isHigh
  rw [← Except.ok.inj atLow] at isLow
  rw [uint16, slice, word, ← isHigh, ← isLow]
  rfl

theorem nameLoopReads {data : Bytes} {listEnd : Nat} (inside : listEnd ≤ data.length) (pos : Nat) :
    nameLoop data listEnd pos = .ok (nameAt data (findHost data listEnd pos)) := by
  fun_induction findHost data listEnd pos with
  | case1 pos room long =>
    obtain ⟨b, found, _⟩ := indexByte (show pos < data.length by omega)
    rw [nameLoop, if_pos room, found, uint16Word (by omega)]
    simp only [bind, Except.bind, if_pos long]
    rfl
  | case2 pos room fits host =>
    obtain ⟨b, found, value⟩ := indexByte (show pos < data.length by omega)
    have zero : b = 0 := by
      rw [← UInt8.toNat_inj, value, host]
      rfl
    have slice : goSlice data (pos + 3) (pos + 3 + word data (pos + 1)) =
        .ok ((data.take (pos + 3 + word data (pos + 1))).drop (pos + 3)) :=
      if_pos ⟨by omega, by omega⟩
    rw [nameLoop, if_pos room, found, uint16Word (by omega)]
    simp only [bind, Except.bind, if_neg fits, if_pos zero, slice]
    rfl
  | case3 pos room fits other ih =>
    obtain ⟨b, found, value⟩ := indexByte (show pos < data.length by omega)
    have nonzero : ¬ b = 0 := by
      rintro rfl
      exact other value.symm
    rw [nameLoop, if_pos room, found, uint16Word (by omega)]
    simp only [bind, Except.bind, if_neg fits, if_neg nonzero]
    exact ih
  | case4 pos short =>
    rw [nameLoop, if_neg short]
    rfl

theorem extensionLoopReads {data : Bytes} {end_ : Nat} (inside : end_ ≤ data.length) (pos : Nat) :
    extensionLoop data end_ pos = .ok (nameAt data (findName data end_ pos)) := by
  unfold findName
  fun_induction findServerName data end_ pos with
  | case1 pos room isName =>
    rw [extensionLoop, if_pos room, uint16Word (by omega), uint16Word (by omega)]
    simp only [bind, Except.bind, if_pos isName, Option.bind, hostAfter]
    split
    · rfl
    · have listed : uint16 data (pos + 4) = .ok (word data (pos + 4)) := uint16Word (by omega)
      have limit : (if pos + 6 + word data (pos + 4) > end_ then end_ else pos + 6 + word data (pos + 4)) =
          min (pos + 6 + word data (pos + 4)) end_ := by
        split <;> omega
      simp only [listed, limit]
      exact nameLoopReads ((min_le_right _ _).trans inside) _
  | case2 pos room other ih =>
    rw [extensionLoop, if_pos room, uint16Word (by omega), uint16Word (by omega)]
    simp only [bind, Except.bind, if_neg other]
    exact ih
  | case3 pos short =>
    rw [extensionLoop, if_neg short]
    rfl

theorem extensionsReads {data : Bytes} {pos : Nat} (inside : pos + 2 ≤ data.length) :
    extensions data pos = .ok (nameAt data
      (findName data (min (pos + 2 + word data pos) data.length) (pos + 2))) := by
  have limit : (if pos + 2 + word data pos > data.length then data.length else pos + 2 + word data pos) =
      min (pos + 2 + word data pos) data.length := by
    split <;> omega
  simp only [extensions, uint16Word inside, bind, Except.bind, limit]
  exact extensionLoopReads (min_le_right _ _) _

theorem bodyReads (data : Bytes) : body data = .ok ((helloName data).bind (nameAt data)) := by
  unfold body helloName blockAt
  dsimp only
  by_cases short : 43 ≥ data.length
  · rw [if_pos short, if_pos short]
    rfl
  · obtain ⟨idLen, atId, isId⟩ := indexByte (show 43 < data.length by omega)
    rw [if_neg short, if_neg short]
    have afterId : 9 + 2 + 32 + 1 + byteAt data 43 = 44 + byteAt data 43 := rfl
    simp only [atId, bind, Except.bind, isId, afterId]
    generalize 44 + byteAt data 43 = pos
    by_cases short : pos + 2 > data.length
    · rw [if_pos short, if_pos short]
      rfl
    · rw [if_neg short, if_neg short, uint16Word (by omega)]
      dsimp only
      generalize pos + 2 + word data pos = pos
      by_cases short : pos + 1 > data.length
      · rw [if_pos short, if_pos short]
        rfl
      · obtain ⟨compressionLen, found, value⟩ := indexByte (show pos < data.length by omega)
        rw [if_neg short, if_neg short, found]
        dsimp only
        rw [value]
        by_cases short : pos + 1 + byteAt data pos + 2 > data.length
        · rw [if_pos short, if_pos short]
          rfl
        · rw [if_neg short, if_neg short, extensionsReads (by omega)]
          rfl

theorem handshakeReads {data : Bytes} (some_ : 6 ≤ data.length) : handshake data =
    .ok (if byteAt data 5 ≠ 0x01 ∨ data.length < 9 then .error .notClientHello
      else if data.length < 9 + hsLen data then
        .error (.truncatedHandshake (9 + hsLen data) data.length)
      else (helloName data).bind (nameAt data)) := by
  obtain ⟨msgType, atType, isType⟩ := indexByte (show 5 < data.length by omega)
  have hello : byteAt data 5 ≠ 0x01 ↔ msgType ≠ 0x01 := byteDiffers isType 0x01
  simp only [handshake, bind, Except.bind, hello]
  rw [show goIndex data 5 = .ok msgType from atType]
  dsimp only
  by_cases other : msgType ≠ 0x01
  · rw [if_pos other, if_pos (.inl other)]
    rfl
  · rw [if_neg other]
    by_cases short : data.length < 9
    · rw [if_pos short, if_pos (.inr short)]
      rfl
    · obtain ⟨high, atHigh, isHigh⟩ := indexByte (show 6 < data.length by omega)
      obtain ⟨middle, atMiddle, isMiddle⟩ := indexByte (show 7 < data.length by omega)
      obtain ⟨low, atLow, isLow⟩ := indexByte (show 8 < data.length by omega)
      rw [if_neg short, if_neg (not_or.mpr ⟨other, short⟩), show goIndex data 6 = .ok high from atHigh,
        show goIndex data 7 = .ok middle from atMiddle, show goIndex data 8 = .ok low from atLow]
      dsimp only
      rw [isHigh, isMiddle, isLow, ← hsLen]
      split
      · rfl
      · exact bodyReads data

theorem extractReads (data : Bytes) : extractSNI data = .ok (readSNI data) := by
  unfold extractSNI readSNI headerError
  by_cases short : data.length < 6
  · rw [if_pos short, if_pos (.inl short)]
  · obtain ⟨contentType, atType, isType⟩ := indexByte (show 0 < data.length by omega)
    obtain ⟨version, atVersion, isVersion⟩ := indexByte (show 1 < data.length by omega)
    have record : byteAt data 0 ≠ 0x16 ↔ contentType ≠ 0x16 := byteDiffers isType 0x16
    have tls : byteAt data 1 ≠ 0x03 ↔ version ≠ 0x03 := byteDiffers isVersion 0x03
    have recordLen : uint16 data 3 = .ok (word data 3) := uint16Word (by omega)
    simp only [if_neg short, bind, Except.bind, record, tls, recordLen]
    rw [show goIndex data 0 = .ok contentType from atType, show goIndex data 1 = .ok version from atVersion,
      handshakeReads (by omega)]
    dsimp only
    split
    · rename_i other
      rw [if_pos (.inr (.inl other))]
      rfl
    · split
      · rename_i other
        rw [if_pos (.inr (.inr other))]
        rfl
      · rename_i record tls
        rw [if_neg (not_or.mpr ⟨short, not_or.mpr ⟨record, tls⟩⟩)]
        split
        · rfl
        · split
          · rfl
          · split
            · rfl
            · rfl

end OmegaLb.Tls
