import OmegaLb.SniFrame

/-! What follows a hello that is not settled: other bytes behind the message, or other data in the other
extensions, for which ExtractSNI takes a name. -/
namespace OmegaLb.Tls
open GoText (Bytes)

variable {e d x : Bytes} {lim pos p q : Nat}

/-- `e`, with `k` bytes behind it that are zero but for the positions marked. -/
def filled (e : Bytes) (marks : List Nat) (k : Nat) : Bytes :=
  e ++ (List.range k).map fun i => if e.length + i ∈ marks then 255 else 0

theorem filledLength (e : Bytes) (marks : List Nat) (k : Nat) : (filled e marks k).length = e.length + k := by
  simp [filled]

theorem filledOwn (marks : List Nat) (k : Nat) {i : Nat} (inside : i < e.length) :
    byteAt (filled e marks k) i = byteAt e i := by
  rw [byteAt, byteAt, List.getD_eq_getElem?_getD, List.getD_eq_getElem?_getD, filled,
    List.getElem?_append_left inside]

theorem filledBehind (e : Bytes) (marks : List Nat) {k i : Nat} (inside : i < k) :
    byteAt (filled e marks k) (e.length + i) = if e.length + i ∈ marks then 255 else 0 := by
  rw [byteAt, List.getD_eq_getElem?_getD, filled, List.getElem?_append_right (by omega),
    Nat.add_sub_cancel_left, List.getElem?_map, List.getElem?_range inside]
  simp only [Option.map_some, Option.getD_some]
  split <;> rfl

theorem filledZero (e : Bytes) {marks : List Nat} (k : Nat) {i : Nat} (unmarked : i ∉ marks) :
    byteAt (filled e marks k) i = byteAt e i := by
  by_cases own : i < e.length
  · exact filledOwn marks k own
  · rw [byteBeyond (not_lt.mp own)]
    by_cases inside : i < e.length + k
    · have behind := filledBehind e marks (show i - e.length < k by omega)
      rw [Nat.add_sub_of_le (not_lt.mp own), if_neg unmarked] at behind
      exact behind
    · exact byteBeyond (by rw [filledLength]; omega)

theorem filledMark (e : Bytes) {marks : List Nat} {k i : Nat} (marked : i ∈ marks) (behind : e.length ≤ i)
    (inside : i < e.length + k) : byteAt (filled e marks k) i = 255 := by
  have at_ := filledBehind e marks (show i - e.length < k by omega)
  rw [Nat.add_sub_of_le behind, if_pos marked] at at_
  exact at_

theorem filledWord (e : Bytes) {marks : List Nat} (k : Nat) {i : Nat} (first : i ∉ marks)
    (second : i + 1 ∉ marks) : word (filled e marks k) i = word e i :=
  sameWord (filledZero e k first) (filledZero e k second)

theorem zeroWord {i : Nat} (behind : e.length ≤ i) : word e i = 0 := by
  rw [word, byteBeyond behind, byteBeyond (by omega)]

/-! ### A name from behind the hello -/

/-- A list length behind the hello, and an entry of three zeros behind that. -/
theorem entryBehind {marks : List Nat} {k end_ q : Nat} (marked : q + 5 ∈ marks)
    (entry : ∀ i, q + 6 ≤ i → i < q + 9 → i ∉ marks) (behind : e.length < q + 6) (room : q + 9 ≤ end_)
    (enough : end_ ≤ e.length + k) : hostAfter (filled e marks k) end_ q = some (q + 9, 0) := by
  have low : byteAt (filled e marks k) (q + 5) = 255 := filledMark e marked (by omega) (by omega)
  have listLen : 255 ≤ word (filled e marks k) (q + 4) := by
    rw [word, low]
    omega
  have nameLen : word (filled e marks k) (q + 6 + 1) = 0 := by
    rw [filledWord e k (entry _ (by omega) (by omega)) (entry _ (by omega) (by omega)), zeroWord (by omega)]
  have nameType : byteAt (filled e marks k) (q + 6) = 0 := by
    rw [filledZero e k (entry _ (by omega) (by omega)), byteBeyond (by omega)]
  rw [hostAfter, if_neg (by omega), findHost, if_pos (by omega), nameLen, if_neg (by omega), nameType,
    if_pos rfl]

theorem lastNamed {blockEnd : Nat} (short : ¬ pos + 4 ≤ min blockEnd e.length)
    (room : (if word e pos = 0 then pos else pos + 4 + word e (pos + 2)) + 9 ≤ blockEnd) :
    ∃ marks, ∀ k, blockEnd ≤ k →
      ∃ r, findName (filled e marks k) (min blockEnd (filled e marks k).length) pos = some r := by
  have whole : ∀ marks k, blockEnd ≤ k → min blockEnd (filled e marks k).length = blockEnd := by
    intro marks k enough
    rw [filledLength]
    omega
  by_cases isName : word e pos = 0
  · rw [if_pos isName] at room
    refine ⟨[pos + 4, pos + 5], fun k enough => ⟨(pos + 9, 0), ?_⟩⟩
    have atType : word (filled e [pos + 4, pos + 5] k) pos = word e pos := filledWord e k (by simp) (by simp)
    rw [whole _ k enough, findName, serverHere (by omega) (atType.trans isName)]
    exact entryBehind (by simp) (fun i after _ => by simp; omega) (by omega) room (by omega)
  · rw [if_neg isName] at room
    generalize next : pos + 4 + word e (pos + 2) = s at room
    refine ⟨[s + 4, s + 5], fun k enough => ⟨(s + 9, 0), ?_⟩⟩
    have atType : word (filled e [s + 4, s + 5] k) pos = word e pos :=
      filledWord e k (by simp; omega) (by simp; omega)
    have atLen : word (filled e [s + 4, s + 5] k) (pos + 2) = word e (pos + 2) :=
      filledWord e k (by simp; omega) (by simp; omega)
    have zero : word (filled e [s + 4, s + 5] k) s = 0 := by
      rw [filledWord e k (by simp) (by simp)]
      exact zeroWord (by omega)
    rw [whole _ k enough, findName, serverNext (by omega) (atType.symm ▸ isName), atLen, next,
      serverHere (by omega) zero]
    exact entryBehind (by simp) (fun i after _ => by simp; omega) (by omega) room (by omega)

theorem blockNamed {blockEnd : Nat} {listed : Nat → Prop} (unsettled : ¬ BlockSettled e listed blockEnd pos)
    (server : findServerName e (min blockEnd e.length) pos = none) : ∃ marks, ∀ k, blockEnd ≤ k →
      ∃ r, findName (filled e marks k) (min blockEnd (filled e marks k).length) pos = some r := by
  fun_induction BlockSettled e listed blockEnd pos with
  | case1 pos inside isName =>
    rw [serverHere inside isName] at server
    contradiction
  | case2 pos inside isOther ih =>
    rw [serverNext inside isOther] at server
    obtain ⟨marks, named⟩ := ih unsettled server
    refine ⟨marks, fun k enough => ?_⟩
    obtain ⟨r, found⟩ := named k enough
    have own : ∀ i, i < pos + 4 → byteAt (filled e marks k) i = byteAt e i :=
      fun i below => filledOwn marks k (by omega)
    have atType : word (filled e marks k) pos = word e pos := sameWord (own _ (by omega)) (own _ (by omega))
    have atLen : word (filled e marks k) (pos + 2) = word e (pos + 2) :=
      sameWord (own _ (by omega)) (own _ (by omega))
    have size := filledLength e marks k
    refine ⟨r, ?_⟩
    rw [findName, serverNext (by omega) (atType.symm ▸ isOther), atLen]
    exact found
  | case3 pos short => exact lastNamed short (by omega)

/-- Without an extension block inside the hello, one that is made up behind it is walked. -/
theorem missingOverrun (missing : e.length < blockPos e + 2) {k : Nat} (enough : blockPos e + 11 ≤ k) :
    Taken (filled e [blockPos e, blockPos e + 1, blockPos e + 6, blockPos e + 7] k) (blockPos e)
      (blockPos e + 2) (blockPos e + 11) 0 := by
  have least := blockPosLeast e
  have same : blockPos (filled e [blockPos e, blockPos e + 1, blockPos e + 6, blockPos e + 7] k) =
      blockPos e := blockPosSame fun i _ below => filledZero e k (by simp; omega)
  generalize blockPos e = p at *
  have length := filledLength e [p, p + 1, p + 6, p + 7] k
  have low : byteAt (filled e [p, p + 1, p + 6, p + 7] k) (p + 1) = 255 :=
    filledMark e (by simp) (by omega) (by omega)
  have blockLen : 255 ≤ word (filled e [p, p + 1, p + 6, p + 7] k) p := by
    rw [word, low]
    omega
  constructor
  · exact blockFound.mpr ⟨same.symm, by omega⟩
  · refine serverHere (by omega) ?_
    rw [filledWord e k (by simp) (by simp; omega)]
    exact zeroWord (by omega)
  · exact entryBehind (by simp) (fun i after _ => by simp; omega) (by omega) (by omega) (by omega)

/-! ### A variation with a name -/

/-- Two hellos between which the claim sees no difference. -/
inductive Varied (d x : Bytes) : Prop where
  | behind (holds : HoldsHello x) (same : message x = message d)
  | data (p : Nat) (other : OtherData d x p)

theorem variedAnswer (reads : ReadsOnly d) (varied : Varied d x) : extractSNI x = extractSNI d := by
  cases varied with
  | behind holds same => exact reads.outside x holds same
  | data p other => exact reads.otherData x p other

theorem namedReads (hello : headerError x = none) (block : blockAt x x.length = .ok p) {r : Nat × Nat}
    (found : findName x (min (p + 2 + word x p) x.length) (p + 2) = some r) :
    ∃ name, extractSNI x = .ok (.ok name) := by
  obtain ⟨start, length⟩ := r
  obtain ⟨q, server, host⟩ := Option.bind_eq_some_iff.mp found
  exact ⟨_, (takenName hello _).mpr ⟨p, q, start, length, ⟨block, server, host⟩, rfl⟩⟩

theorem filledVaried (hello : HoldsHello d) (marks : List Nat) (k : Nat) :
    HoldsHello (filled (ownHello d) marks k) ∧ message (filled (ownHello d) marks k) = message d := by
  have length := ownLength hello.accepted
  refine sameHello hello (fun i below => ?_) (by rw [filledLength]; omega)
  rw [filledOwn marks k (by omega), ownByte below]

theorem listNamed (hello : headerError d = none) (hello' : headerError x = none) (long : 9 + hsLen d ≤ x.length)
    (block : blockAt (ownHello d) (ownHello d).length = .ok p)
    (server : findServerName (ownHello d) (min (blockEnd d p) (ownHello d).length) (p + 2) = some q)
    (held : q + 6 ≤ 9 + hsLen d) (same : ∀ i, i < q + 6 → byteAt x i = byteAt (ownHello d) i) {r : Nat × Nat}
    (found : findHost x (min (listEnd d p q) x.length) (q + 6) = some r) :
    ∃ name, extractSNI x = .ok (.ok name) := by
  have length := ownLength hello
  obtain ⟨after, _⟩ := findServerRoom server
  obtain ⟨block', blockLen⟩ := blockAgree block (length ▸ long) fun i _ below => same i (by omega)
  have end_ : p + 2 + word x p = blockEnd d p := by rw [blockEnd, blockLen]
  have list : word x (q + 4) = word (ownHello d) (q + 4) := sameWord (same _ (by omega)) (same _ (by omega))
  have room : q + 6 ≤ min (blockEnd d p) x.length := by
    obtain ⟨start, size⟩ := r
    have within := findHostRoom found
    have cut : listEnd d p q ≤ blockEnd d p := min_le_right _ _
    omega
  have server' : findServerName x (min (blockEnd d p) x.length) (p + 2) = some q :=
    findServerSame server (by omega) fun i _ below => same i (by omega)
  have host := listAfter (d := d) (p := p) list
  refine namedReads hello' block' (r := r) ?_
  rw [end_, findName, server', Option.bind_some, host, if_neg (by omega), found]

/-- A buffer of `n` bytes. -/
def bytesOf (n : Nat) (f : Nat → UInt8) : Bytes := (List.range n).map f

theorem bytesOfByte {n : Nat} (f : Nat → UInt8) {i : Nat} (inside : i < n) :
    byteAt (bytesOf n f) i = (f i).toNat := by
  rw [byteAt, bytesOf, List.getD_eq_getElem?_getD, List.getElem?_map, List.getElem?_range inside]
  rfl

section
variable (hello : HoldsHello d) (block : blockAt (ownHello d) (ownHello d).length = .ok p)
  (server : findServerName (ownHello d) (min (blockEnd d p) (ownHello d).length) (p + 2) = some q)
include hello block server

theorem unsettledBehind (held : q + 6 ≤ 9 + hsLen d)
    (possible : ¬ NoHost (· < 9 + hsLen d) (ownHello d) (listEnd d p q) (q + 6)) :
    ∃ x, Varied d x ∧ ∃ name, extractSNI x = .ok (.ok name) := by
  have length := ownLength hello.accepted
  obtain ⟨f, own, named⟩ := hostPossible possible
  have bytes : ∀ i, i < 9 + hsLen d → byteAt (bytesOf (9 + hsLen d + listEnd d p q) f) i = byteAt (ownHello d) i :=
    fun i below => (bytesOfByte f (by omega)).trans (own i (.inr below))
  have size : (bytesOf (9 + hsLen d + listEnd d p q) f).length = 9 + hsLen d + listEnd d p q := by
    simp [bytesOf]
  have given : ∀ i, i < 9 + hsLen d → byteAt (bytesOf (9 + hsLen d + listEnd d p q) f) i = byteAt d i :=
    fun i below => (bytes i below).trans (ownByte below)
  obtain ⟨holds, same⟩ := sameHello hello given (by omega)
  obtain ⟨r, found⟩ := named _ fun i _ below => bytesOfByte f (show i < 9 + hsLen d + listEnd d p q by omega)
  refine ⟨_, .behind holds same, listNamed (r := r) hello.accepted holds.accepted (by omega) block server held
    (fun i below => bytes i (by omega)) ?_⟩
  rw [size, min_eq_left (by omega)]
  exact found

theorem unsettledData (held : q + 6 ≤ 9 + hsLen d)
    (possible : ¬ NoHost (fun i => ¬ OtherByte d p i) d (min (listEnd d p q) d.length) (q + 6)) :
    ∃ x, Varied d x ∧ ∃ name, extractSNI x = .ok (.ok name) := by
  have length := ownLength hello.accepted
  have whole := helloLength hello.accepted
  obtain ⟨after, _⟩ := findServerRoom server
  obtain ⟨f, own, named⟩ := hostPossible possible
  have size : (bytesOf d.length f).length = d.length := by simp [bytesOf]
  have other : OtherData d (bytesOf d.length f) p := by
    refine ⟨size, block, fun i outside => ?_⟩
    by_cases inside : i < d.length
    · exact (bytesOfByte f inside).trans (own i (.inr outside))
    · rw [byteBeyond (size.symm ▸ not_lt.mp inside : (bytesOf d.length f).length ≤ i), byteBeyond (not_lt.mp inside)]
  have accepted := (otherVariant hello.accepted other).accepted
  obtain ⟨r, found⟩ := named (bytesOf d.length f) fun i _ below => bytesOfByte f (show i < d.length by omega)
  refine ⟨_, .data p other, listNamed (r := r) hello.accepted accepted (by omega) block server held
    (fun i below => ?_) ?_⟩
  · rw [ownByte (by omega)]
    exact (bytesOfByte f (by omega)).trans (own i (.inl (by omega)))
  · rw [size]
    exact found

/-- The list's length bytes are behind the message. -/
theorem unsettledShort (short : ¬ q + 6 ≤ 9 + hsLen d) (room : ¬ blockEnd d p < q + 9) :
    ∃ x, Varied d x ∧ ∃ name, extractSNI x = .ok (.ok name) := by
  have length := ownLength hello.accepted
  obtain ⟨after, header⟩ := findServerRoom server
  have most : min (blockEnd d p) (ownHello d).length ≤ (ownHello d).length := min_le_right _ _
  let y := filled (ownHello d) [q + 4, q + 5] (blockEnd d p)
  obtain ⟨holds, same⟩ := filledVaried hello [q + 4, q + 5] (blockEnd d p)
  have own : ∀ i, i < q + 4 → byteAt y i = byteAt (ownHello d) i := fun i below => filledOwn _ _ (by omega)
  have long : y.length = (ownHello d).length + blockEnd d p := filledLength _ _ _
  obtain ⟨block', blockLen⟩ := blockAgree block (show (ownHello d).length ≤ y.length by omega) fun i _ below =>
    own i (by omega)
  have end_ : p + 2 + word y p = blockEnd d p := by rw [blockEnd, blockLen]
  refine ⟨y, .behind holds same, namedReads holds.accepted block' (r := (q + 9, 0)) ?_⟩
  rw [end_, findName, findServerSame server (by omega) fun i _ below => own i below, Option.bind_some]
  exact entryBehind (by simp) (fun i from_ _ => by simp; omega) (by omega) (by omega) (by omega)

theorem unsettledList (unsettled : ¬ ListSettled d p q) : ∃ x, Varied d x ∧ ∃ name, extractSNI x = .ok (.ok name) := by
  unfold ListSettled at unsettled
  split at unsettled
  · rename_i held
    obtain ⟨_, possible⟩ := not_or.mp unsettled
    rcases Classical.not_and_iff_not_or_not.mp possible with behind | data
    · exact unsettledBehind hello block server held behind
    · exact unsettledData hello block server held data
  · exact unsettledShort hello block server ‹_› unsettled

end

theorem unsettledNamed (hello : HoldsHello d) (unsettled : ¬ Settled d) :
    ∃ x, Varied d x ∧ ∃ name, extractSNI x = .ok (.ok name) := by
  have length := ownLength hello.accepted
  cases block : blockAt (ownHello d) (ownHello d).length with
  | error err =>
    have missing : (ownHello d).length < blockPos (ownHello d) + 2 := by
      by_contra room
      have found := blockFound.mpr ⟨rfl, not_lt.mp room⟩
      rw [block] at found
      contradiction
    have taken := missingOverrun missing (le_refl (blockPos (ownHello d) + 11))
    obtain ⟨holds, same⟩ := filledVaried hello [blockPos (ownHello d), blockPos (ownHello d) + 1,
      blockPos (ownHello d) + 6, blockPos (ownHello d) + 7] (blockPos (ownHello d) + 11)
    exact ⟨_, .behind holds same, _, (takenName holds.accepted _).mpr ⟨_, _, _, _, taken, rfl⟩⟩
  | ok p =>
    have walk : ¬ BlockSettled (ownHello d) (ListSettled d p) (blockEnd d p) (p + 2) := fun settled =>
      unsettled ⟨p, block, settled⟩
    cases server : findServerName (ownHello d) (min (blockEnd d p) (ownHello d).length) (p + 2) with
    | some q => exact unsettledList hello block server fun listed => walk ((serverSettled server).mpr listed)
    | none =>
      obtain ⟨marks, named⟩ := blockNamed walk server
      obtain ⟨r, found⟩ := named (blockEnd d p) le_rfl
      obtain ⟨holds, same⟩ := filledVaried hello marks (blockEnd d p)
      have room := (blockFound.mp block).2
      obtain ⟨block', blockLen⟩ := blockAgree block
        (show (ownHello d).length ≤ (filled (ownHello d) marks (blockEnd d p)).length by
          rw [filledLength]; omega)
        fun i _ below => filledOwn marks _ (by omega)
      refine ⟨_, .behind holds same, namedReads holds.accepted block' (r := r) ?_⟩
      rw [blockLen, ← blockEnd]
      exact found

/-- A name that is the hello's own settles it. -/
theorem namedSettled (hello : HoldsHello d) (inside : NameInside d) {name : Bytes}
    (named : extractSNI d = .ok (.ok name)) : Settled d := by
  have length := ownLength hello.accepted
  have whole := helloLength hello.accepted
  obtain ⟨p, q, start, size, taken, _⟩ := (takenName hello.accepted name).mp named
  obtain ⟨within, cut, extension⟩ := inside p q start size taken
  obtain ⟨block, server, host⟩ := taken
  have room := hostAfterRoom host
  obtain ⟨after, header⟩ := findServerRoom server
  have own : ∀ i, i < 9 + hsLen d → byteAt (ownHello d) i = byteAt d i := fun i below => ownByte below
  have pos : blockPos (ownHello d) = blockPos d := blockPosSame fun i _ below => own i (by
    have start_ := (blockFound.mp block).1
    omega)
  have block' : blockAt (ownHello d) (ownHello d).length = .ok p :=
    blockFound.mpr ⟨(blockFound.mp block).1.trans pos.symm, by omega⟩
  have words : ∀ i, i + 1 < 9 + hsLen d → word (ownHello d) i = word d i := fun i below =>
    sameWord (own i (by omega)) (own (i + 1) below)
  have end_ : blockEnd d p = p + 2 + word d p := by rw [blockEnd, words p (by omega)]
  have server' : findServerName (ownHello d) (min (blockEnd d p) (ownHello d).length) (p + 2) = some q :=
    findServerSame server (by omega) fun i _ below => own i (by omega)
  refine ⟨p, block', (serverSettled server').mpr ?_⟩
  rw [ListSettled, if_pos (by omega)]
  refine .inl (hostFirstFound.mpr ⟨(start, size), ?_⟩)
  rw [hostAfter, if_neg (by omega)] at host
  have list := findHostRoom host
  refine findHostSame host ?_ fun i _ below => own i (by omega)
  rw [listEnd, ownEnd, words (q + 4) (by omega), words (q + 2) (by omega)]
  omega

/-- ExtractSNI reads a hello alone exactly when the hello is settled. -/
theorem readsOnlyHello (hello : HoldsHello d) : ReadsOnly d ↔ Settled d := by
  refine ⟨fun reads => ?_, settledReads hello⟩
  by_contra unsettled
  obtain ⟨x, varied, name, named⟩ := unsettledNamed hello unsettled
  exact unsettled (namedSettled hello reads.inside ((variedAnswer reads varied).symm.trans named))

/-! ### A hello with a block, and one without -/

def plainHello (length : UInt8) : Bytes :=
  [0x16, 0x03, 0x03, 0, 4 + length, 0x01, 0, 0, length, 0x03, 0x03] ++ List.replicate 32 0 ++
    [0, 0, 2, 0x00, 0x2f, 1, 0]

/-- An extension block with the host_name "a". -/
def hostBlock : Bytes := [0, 10, 0, 0, 0, 6, 0, 4, 0, 0, 1, 97]

/-- Another extension before it, and the start of a second record behind the hello. -/
def helloBefore : Bytes :=
  plainHello 59 ++ [0, 16, 0, 10, 0, 2, 0, 29, 0, 0, 0, 6, 0, 4, 0, 0, 1, 97] ++ [0x14, 3, 3, 0, 1]

theorem helloReadsOnly : extractSNI helloBefore = .ok (.ok [97]) ∧ ReadsOnly helloBefore := by
  refine ⟨by decide +kernel, ?_⟩
  refine (readsOnlyHello ⟨by decide +kernel, by decide +kernel⟩).mpr ⟨50, by decide +kernel, ?_⟩
  have server : findServerName (ownHello helloBefore)
      (min (blockEnd helloBefore 50) (ownHello helloBefore).length) (50 + 2) = some 58 := by decide +kernel
  refine (serverSettled server).mpr ?_
  rw [ListSettled, if_pos (by decide +kernel)]
  exact .inl (hostFirstFound.mpr ⟨(67, 1), by decide +kernel⟩)

/-- A list that is longer than its extension: what it is read on into is no entry that fits. -/
def listBeyond : Bytes := plainHello 57 ++ [0, 14, 0, 0, 0, 2, 0, 100, 10, 11, 0, 4, 0, 0, 0, 0]

example : ReadsOnly listBeyond := by
  have server : findServerName (ownHello listBeyond)
      (min (blockEnd listBeyond 50) (ownHello listBeyond).length) (50 + 2) = some 52 := by decide +kernel
  refine settledReads ⟨by decide +kernel, by decide +kernel⟩
    ⟨50, by decide +kernel, (serverSettled server).mpr ?_⟩
  rw [ListSettled, if_pos (by decide +kernel)]
  have ends : listEnd listBeyond 50 52 = 66 := by decide +kernel
  have high : byteAt (ownHello listBeyond) 59 = 11 := by decide +kernel
  have high' : byteAt listBeyond 59 = 11 := by decide +kernel
  rw [ends]
  refine .inr ⟨?_, ?_⟩
  · rw [NoHost]
    intro _ t a b _ canA _ fits
    have known : a = 11 := (canA.2 (by decide +kernel)).trans high
    omega
  · rw [NoHost]
    intro _ t a b _ canA _ fits
    have known : a = 11 := (canA.2 fun other => by
      have data := inDataServer server (by omega) other.2
      have declared : word (ownHello listBeyond) (52 + 2) = 2 := by decide +kernel
      omega).trans high'
    have cut : min 66 listBeyond.length ≤ 66 := min_le_left _ _
    omega

/-- A hello without extensions, and a block behind its record. -/
theorem trailingNamed : HoldsHello (plainHello 41) ∧
    extractSNI (plainHello 41) = .ok (.error .noSNI) ∧
    extractSNI (plainHello 41 ++ hostBlock) = .ok (.ok [97]) ∧ ¬ ReadsOnly (plainHello 41) := by
  have bare : extractSNI (plainHello 41) = .ok (.error .noSNI) := by decide +kernel
  have named : extractSNI (plainHello 41 ++ hostBlock) = .ok (.ok [97]) := by decide +kernel
  refine ⟨⟨by decide +kernel, by decide +kernel⟩, bare, named, fun reads => ?_⟩
  have same := reads.trailing hostBlock
  rw [bare, named] at same
  contradiction

end OmegaLb.Tls
