import OmegaLb.GoLoop
import OmegaLb.SniWalk

/-! ExtractSNI on bytes from anyone: no index leaves the data, and each loop ends after as many
rounds as headers of an entry fit in front of its bound. -/
namespace OmegaLb.Tls
open GoLoop (Rounds Unfolds loopRuns)
open GoText (Bytes)

/-! ### The rounds of the two loops -/

def nameRound (data : Bytes) (listEnd pos : Nat) : Go (Sni ⊕ Nat) :=
  if pos + 3 ≤ listEnd then do
    let nameType ← goIndex data pos
    let nameLen ← uint16 data (pos + 1)
    if pos + 3 + nameLen > listEnd then return .inl (.error .noSNI)
    else if nameType = 0x00 then
      let name ← goSlice data (pos + 3) (pos + 3 + nameLen)
      return .inl (.ok name)
    else return .inr (pos + 3 + nameLen)
  else .ok (.inl (.error .noSNI))

def extensionRound (data : Bytes) (end_ pos : Nat) : Go (Sni ⊕ Nat) :=
  if pos + 4 ≤ end_ then do
    let extType ← uint16 data pos
    let extLen ← uint16 data (pos + 2)
    if extType = 0x0000 then
      if pos + 6 > end_ then return .inl (.error .noSNI)
      else
        let listLen ← uint16 data (pos + 4)
        let listEnd := pos + 6 + listLen
        let listEnd := if listEnd > end_ then end_ else listEnd
        let name ← nameLoop data listEnd (pos + 6)
        return .inl name
    else return .inr (pos + 4 + extLen)
  else .ok (.inl (.error .noSNI))

theorem nameUnfolds (data : Bytes) (listEnd : Nat) : Unfolds (nameRound data listEnd) (nameLoop data listEnd) := by
  intro pos
  rw [nameLoop, nameRound]
  split
  · cases goIndex data pos with
    | error p => rfl
    | ok nameType =>
      cases uint16 data (pos + 1) with
      | error p => rfl
      | ok nameLen =>
        simp only [bind, Except.bind]
        split
        · rfl
        · split
          · cases goSlice data (pos + 3) (pos + 3 + nameLen) <;> rfl
          · rfl
  · rfl

theorem extensionUnfolds (data : Bytes) (end_ : Nat) :
    Unfolds (extensionRound data end_) (extensionLoop data end_) := by
  intro pos
  rw [extensionLoop, extensionRound]
  split
  · cases uint16 data pos with
    | error p => rfl
    | ok extType =>
      cases uint16 data (pos + 2) with
      | error p => rfl
      | ok extLen =>
        simp only [bind, Except.bind]
        split
        · split
          · rfl
          · cases uint16 data (pos + 4) with
            | error p => rfl
            | ok listLen =>
              dsimp only
              cases nameLoop data _ (pos + 6) <;> rfl
        · rfl
  · rfl

theorem nameAdvances {data : Bytes} {listEnd pos next : Nat}
    (again : nameRound data listEnd pos = .ok (.inr next)) : listEnd - next + 3 ≤ listEnd - pos := by
  unfold nameRound at again
  split at again
  · cases atType : goIndex data pos with
    | error p => simp [atType, bind, Except.bind] at again
    | ok nameType =>
      cases atLen : uint16 data (pos + 1) with
      | error p => simp [atType, atLen, bind, Except.bind] at again
      | ok nameLen =>
        simp only [atType, atLen, bind, Except.bind] at again
        split at again
        · cases again
        · split at again
          · cases slice : goSlice data (pos + 3) (pos + 3 + nameLen) <;> rw [slice] at again <;> cases again
          · cases again
            omega
  · cases again

theorem extensionAdvances {data : Bytes} {end_ pos next : Nat}
    (again : extensionRound data end_ pos = .ok (.inr next)) : end_ - next + 4 ≤ end_ - pos := by
  unfold extensionRound at again
  split at again
  · cases atType : uint16 data pos with
    | error p => simp [atType, bind, Except.bind] at again
    | ok extType =>
      cases atLen : uint16 data (pos + 2) with
      | error p => simp [atType, atLen, bind, Except.bind] at again
      | ok extLen =>
        simp only [atType, atLen, bind, Except.bind] at again
        split at again
        · split at again
          · cases again
          · cases atList : uint16 data (pos + 4) with
            | error p => simp [atList] at again
            | ok listLen =>
              simp only [atList] at again
              split at again <;> cases again
        · cases again
          omega
  · cases again

theorem nameLoopEnds (data : Bytes) (listEnd pos : Nat) :
    ∃ n, 3 * n ≤ listEnd - pos + 3 ∧ Rounds (nameRound data listEnd) pos n (nameLoop data listEnd pos) :=
  loopRuns (nameUnfolds data listEnd) (listEnd - ·) (by decide) (fun _ _ => nameAdvances) pos

theorem extensionLoopEnds (data : Bytes) (end_ pos : Nat) :
    ∃ n, 4 * n ≤ end_ - pos + 4 ∧
      Rounds (extensionRound data end_) pos n (extensionLoop data end_ pos) :=
  loopRuns (extensionUnfolds data end_) (end_ - ·) (by decide) (fun _ _ => extensionAdvances) pos

/-! ### The answers -/

/-- What a call may answer: a piece of the data, or an error, and the error of a truncated hello
names the length it has and one it has not. -/
inductive Answer (data : Bytes) : Sni → Prop where
  | host {start length : Nat} (inside : start + length ≤ data.length) :
      Answer data (.ok ((data.take (start + length)).drop start))
  | notClientHello : Answer data (.error .notClientHello)
  | noSNI : Answer data (.error .noSNI)
  | truncatedRecord {want : Nat} (short : data.length < want) :
      Answer data (.error (.truncatedRecord want data.length))
  | truncatedHandshake {want : Nat} (short : data.length < want) :
      Answer data (.error (.truncatedHandshake want data.length))

theorem findNameInside {data : Bytes} {end_ pos start length : Nat}
    (found : findName data end_ pos = some (start, length)) : start + length ≤ end_ := by
  obtain ⟨q, _, host⟩ := Option.bind_eq_some_iff.mp found
  exact (hostAfterRoom host).2

theorem headerAnswers {data : Bytes} {err : SniError} (refused : headerError data = some err) :
    Answer data (.error err) := by
  unfold headerError at refused
  split at refused
  · cases refused
    exact .notClientHello
  · split at refused
    · rename_i short
      cases refused
      exact .truncatedRecord short
    · split at refused
      · cases refused
        exact .notClientHello
      · split at refused
        · rename_i short
          cases refused
          exact .truncatedHandshake short
        · cases refused

theorem blockAnswers {data : Bytes} {limit : Nat} {err : SniError} (refused : blockAt data limit = .error err) :
    Answer data (.error err) := by
  unfold blockAt at refused
  dsimp only at refused
  split at refused
  · cases refused
    exact .notClientHello
  · split at refused
    · cases refused
      exact .notClientHello
    · split at refused
      · cases refused
        exact .notClientHello
      · split at refused
        · cases refused
          exact .noSNI
        · cases refused

theorem nameAnswers {data : Bytes} {end_ pos : Nat} (inside : end_ ≤ data.length) :
    Answer data (nameAt data (findName data end_ pos)) := by
  cases found : findName data end_ pos with
  | none => exact .noSNI
  | some name => exact .host ((findNameInside found).trans inside)

theorem readAnswers (data : Bytes) : Answer data (readSNI data) := by
  unfold readSNI
  cases header : headerError data with
  | some err => exact headerAnswers header
  | none =>
    unfold helloName
    cases block : blockAt data data.length with
    | error err => exact blockAnswers block
    | ok pos => exact nameAnswers (min_le_right _ _)

theorem extractSafe (data : Bytes) :
    (∃ out, extractSNI data = .ok out ∧ Answer data out) ∧
    (∀ end_ pos, ∃ n, 4 * n ≤ end_ - pos + 4 ∧
      Rounds (extensionRound data end_) pos n (extensionLoop data end_ pos)) ∧
    ∀ listEnd pos, ∃ n, 3 * n ≤ listEnd - pos + 3 ∧
      Rounds (nameRound data listEnd) pos n (nameLoop data listEnd pos) :=
  ⟨⟨readSNI data, extractReads data, readAnswers data⟩, extensionLoopEnds data, nameLoopEnds data⟩

end OmegaLb.Tls
