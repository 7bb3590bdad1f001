import OmegaLb.SniWalk

/-! Which hellos ExtractSNI reads alone: what comes behind the handshake and what the other extensions
carry is any bytes. -/
namespace OmegaLb.Tls
open GoText (Bytes)

variable {e d d' : Bytes} {p q pos : Nat}

/-! ### What the hello holds -/

/-- A complete handshake record with one ClientHello at the start of the buffer. -/
structure HoldsHello (d : Bytes) : Prop where
  accepted : headerError d = none
  whole : word d 3 = 4 + hsLen d

def ownHello (d : Bytes) : Bytes := d.take (9 + hsLen d)

/-- The declared end of the extension block whose length stands at `p`. -/
def blockEnd (d : Bytes) (p : Nat) : Nat := p + 2 + word (ownHello d) p

/-- The declared end of the list of the server_name extension at `q`, cut to the block. -/
def listEnd (d : Bytes) (p q : Nat) : Nat := min (q + 6 + word (ownHello d) (q + 4)) (blockEnd d p)

/-- The end of the extension at `q`, cut to the handshake message. -/
def ownEnd (d : Bytes) (q : Nat) : Nat := min (q + 4 + word (ownHello d) (q + 2)) (9 + hsLen d)

/-- A data byte of the message in an extension other than server_name. -/
def OtherByte (d : Bytes) (p i : Nat) : Prop :=
  i < 9 + hsLen d ∧ InData (ownHello d) (min (blockEnd d p) (ownHello d).length) (p + 2) i

structure Taken (d : Bytes) (p q start length : Nat) : Prop where
  block : blockAt d d.length = .ok p
  server : findServerName d (min (p + 2 + word d p) d.length) (p + 2) = some q
  host : hostAfter d (min (p + 2 + word d p) d.length) q = some (start, length)

/-- The name ends inside the handshake, inside the block and inside its extension. -/
def NameInside (d : Bytes) : Prop :=
  ∀ p q start length, Taken d p q start length → start + length ≤ 9 + hsLen d ∧
    start + length ≤ p + 2 + word d p ∧ start + length ≤ q + 4 + word d (q + 2)

/-! ### The two-run property -/

def message (d : Bytes) : Bytes := (ownHello d).drop 5

/-- Two buffers that differ only in the data bytes of extensions other than server_name. -/
structure OtherData (d d' : Bytes) (p : Nat) : Prop where
  length : d'.length = d.length
  block : blockAt (ownHello d) (ownHello d).length = .ok p
  same : ∀ i, ¬ OtherByte d p i → byteAt d' i = byteAt d i

structure ReadsOnly (d : Bytes) : Prop where
  trailing : ∀ t, extractSNI (d ++ t) = extractSNI d
  outside : ∀ d', HoldsHello d' → message d' = message d → extractSNI d' = extractSNI d
  otherData : ∀ d' p, OtherData d d' p → extractSNI d' = extractSNI d
  inside : NameInside d

/-! ### The condition -/

/-- A host_name that ends inside its extension comes first, or the walk over the list can come to none:
neither with other bytes behind the message nor with other data in the other extensions. -/
def ListSettled (d : Bytes) (p q : Nat) : Prop :=
  if q + 6 ≤ 9 + hsLen d then
    HostFirst (ownHello d) (min (listEnd d p q) (ownEnd d q)) (q + 6) ∨
      NoHost (· < 9 + hsLen d) (ownHello d) (listEnd d p q) (q + 6) ∧
        NoHost (fun i => ¬ OtherByte d p i) d (min (listEnd d p q) d.length) (q + 6)
  else blockEnd d p < q + 9

def Settled (d : Bytes) : Prop :=
  ∃ p, blockAt (ownHello d) (ownHello d).length = .ok p ∧
    BlockSettled (ownHello d) (ListSettled d p) (blockEnd d p) (p + 2)

/-! ### What is taken -/

theorem takenName (hello : headerError d = none) (name : Bytes) : extractSNI d = .ok (.ok name) ↔
    ∃ p q start length, Taken d p q start length ∧ name = (d.take (start + length)).drop start := by
  rw [extractReads, readSNI, hello, Except.ok.injEq]
  unfold helloName
  constructor
  · intro named
    cases block : blockAt d d.length with
    | error err =>
      rw [block] at named
      contradiction
    | ok p =>
      simp only [block, bind, Except.bind] at named
      change nameAt d (findName d _ _) = _ at named
      cases place : findName d (min (p + 2 + word d p) d.length) (p + 2) with
      | none =>
        rw [place] at named
        contradiction
      | some found =>
        obtain ⟨start, length⟩ := found
        obtain ⟨q, server, host⟩ := Option.bind_eq_some_iff.mp place
        rw [place] at named
        exact ⟨p, q, start, length, ⟨block, server, host⟩, (Except.ok.inj named).symm⟩
  · rintro ⟨p, q, start, length, ⟨block, server, host⟩, rfl⟩
    simp only [block, bind, Except.bind]
    change nameAt d (findName d _ _) = _
    rw [findName, server, Option.bind_some, host]
    rfl

theorem headerAccepted : headerError d = none ↔ byteAt d 0 = 0x16 ∧ byteAt d 1 = 0x03 ∧
    byteAt d 5 = 0x01 ∧ 9 ≤ d.length ∧ 5 + word d 3 ≤ d.length ∧ 9 + hsLen d ≤ d.length := by
  unfold headerError
  split
  · exact iff_of_false (fun none_ => by cases none_) (by omega)
  · split
    · exact iff_of_false (fun none_ => by cases none_) (by omega)
    · split
      · exact iff_of_false (fun none_ => by cases none_) (by omega)
      · split
        · exact iff_of_false (fun none_ => by cases none_) (by omega)
        · exact iff_of_true rfl (by omega)

theorem helloLength (hello : headerError d = none) : 9 + hsLen d ≤ d.length :=
  (headerAccepted.mp hello).2.2.2.2.2

theorem ownLength (hello : headerError d = none) : (ownHello d).length = 9 + hsLen d := by
  rw [ownHello, List.length_take, min_eq_left (helloLength hello)]

theorem ownByte {i : Nat} (inside : i < 9 + hsLen d) : byteAt (ownHello d) i = byteAt d i := byteTake inside

/-- Buffers that agree on the whole message hold the same hello. -/
theorem sameHello (hello : HoldsHello d) (same : ∀ i, i < 9 + hsLen d → byteAt d' i = byteAt d i)
    (long : 9 + hsLen d ≤ d'.length) : HoldsHello d' ∧ message d' = message d := by
  obtain ⟨first, second, sixth, nine, record, whole⟩ := headerAccepted.mp hello.accepted
  have lens : hsLen d' = hsLen d := by
    rw [hsLen, hsLen, same 6 (by omega), same 7 (by omega), same 8 (by omega)]
  have recordLen : word d' 3 = word d 3 := sameWord (same 3 (by omega)) (same 4 (by omega))
  have own : ownHello d' = ownHello d := by
    have slice := sliceSame (show 0 + (9 + hsLen d) ≤ d.length by omega) (by omega) fun i _ below =>
      same i (by omega)
    simpa only [Nat.zero_add, List.drop_zero, ownHello, lens] using slice
  refine ⟨⟨headerAccepted.mpr ?_, by rw [recordLen, lens]; exact hello.whole⟩, by rw [message, message, own]⟩
  have sized := hello.whole
  rw [same 0 (by omega), same 1 (by omega), same 5 (by omega), lens, recordLen]
  omega

theorem trailingHello (hello : HoldsHello d) (t : Bytes) :
    HoldsHello (d ++ t) ∧ message (d ++ t) = message d := by
  have whole := helloLength hello.accepted
  refine sameHello hello (fun i below => ?_) (by rw [List.length_append]; omega)
  rw [byteAt, byteAt, List.getD_eq_getElem?_getD, List.getD_eq_getElem?_getD,
    List.getElem?_append_left (by omega)]

theorem messageHsLen (hello : headerError d = none) (hello' : headerError d' = none)
    (same : message d' = message d) : hsLen d' = hsLen d := by
  have lengths := congrArg List.length same
  rw [message, message, List.length_drop, List.length_drop, ownLength hello, ownLength hello'] at lengths
  omega

theorem messageByte {i : Nat} (after : 5 ≤ i) (below : i < 9 + hsLen d) :
    byteAt d i = byteAt (message d) (i - 5) := by
  rw [← ownByte below, message, byteAt, byteAt, List.getD_eq_getElem?_getD, List.getD_eq_getElem?_getD,
    List.getElem?_drop, show 5 + (i - 5) = i by omega]

/-! ### A settled hello -/

/-- The name that the hello itself has in the extension at `q`. -/
def ownHost (d : Bytes) (p q : Nat) : Option (Nat × Nat) :=
  if q + 6 ≤ 9 + hsLen d then findHost (ownHello d) (min (listEnd d p q) (ownEnd d q)) (q + 6) else none

def ownAnswer (d : Bytes) (p : Nat) : Sni :=
  nameAt (ownHello d) ((findServerName (ownHello d) (min (blockEnd d p) (ownHello d).length) (p + 2)).bind
    (ownHost d p))

/-- A buffer with the headers of the hello and the bytes of its server_name extensions. -/
structure Variant (d d' : Bytes) (p : Nat) : Prop where
  accepted : headerError d' = none
  long : 9 + hsLen d ≤ d'.length
  lens : hsLen d' = hsLen d
  same : ∀ i, 9 ≤ i → i < 9 + hsLen d → ¬ OtherByte d p i → byteAt d' i = byteAt d i
  quiet : ∀ q, NoHost (· < 9 + hsLen d) (ownHello d) (listEnd d p q) (q + 6) →
    NoHost (fun i => ¬ OtherByte d p i) d (min (listEnd d p q) d.length) (q + 6) →
    findHost d' (min (listEnd d p q) d'.length) (q + 6) = none

theorem listAfter (list : word d' (q + 4) = word (ownHello d) (q + 4)) :
    hostAfter d' (min (blockEnd d p) d'.length) q =
      if q + 6 > min (blockEnd d p) d'.length then none
      else findHost d' (min (listEnd d p q) d'.length) (q + 6) := by
  rw [hostAfter, list, listEnd, min_assoc]

/-- The list is read alike in all variants: its own first host_name, or nothing. -/
theorem listWalk (hello : headerError d = none) (least : 47 ≤ p) (variant : Variant d d' p)
    (server : findServerName (ownHello d) (min (blockEnd d p) (ownHello d).length) (p + 2) = some q)
    (listed : ListSettled d p q) :
    hostAfter d' (min (blockEnd d p) d'.length) q = ownHost d p q := by
  have length := ownLength hello
  have long := variant.long
  obtain ⟨after, header⟩ := findServerRoom server
  have bytes : ∀ i, q ≤ i → i < q + 4 + word (ownHello d) (q + 2) + 4 → i < 9 + hsLen d →
      byteAt d' i = byteAt (ownHello d) i := by
    intro i from_ below inside
    rw [ownByte inside]
    refine variant.same i (by omega) inside fun within => ?_
    have later := inDataServer server from_ within.2
    omega
  unfold ListSettled at listed
  unfold ownHost
  split at listed
  · rename_i held
    have list : word d' (q + 4) = word (ownHello d) (q + 4) :=
      sameWord (bytes _ (by omega) (by omega) (by omega)) (bytes _ (by omega) (by omega) (by omega))
    rw [listAfter list, if_pos held]
    rcases listed with first | ⟨silent, quiet⟩
    · obtain ⟨⟨start, size⟩, found⟩ := hostFirstFound.mp first
      have room := findHostRoom found
      have own : ownEnd d q ≤ q + 4 + word (ownHello d) (q + 2) ∧ ownEnd d q ≤ 9 + hsLen d :=
        ⟨min_le_left _ _, min_le_right _ _⟩
      have block : listEnd d p q ≤ blockEnd d p := min_le_right _ _
      rw [if_neg (by omega), found]
      exact findHostSame found (by omega) fun i from_ below => bytes i (by omega) (by omega) (by omega)
    · have nothing := findHostCut (noHostNone silent fun _ _ _ => rfl)
        (min_le_left (listEnd d p q) (ownEnd d q))
      rw [nothing, variant.quiet q silent quiet, ite_self]
  · rename_i held
    rw [if_neg held]
    rcases Option.eq_none_or_eq_some (hostAfter d' (min (blockEnd d p) d'.length) q)
      with nothing | ⟨⟨start, size⟩, found⟩
    · exact nothing
    · have room := hostAfterRoom found
      omega

theorem ownHostRoom {start length : Nat} (found : ownHost d p q = some (start, length)) :
    start + length ≤ blockEnd d p ∧ start + length ≤ ownEnd d q := by
  unfold ownHost at found
  split at found <;> try contradiction
  have room := findHostRoom found
  have block : listEnd d p q ≤ blockEnd d p := min_le_right _ _
  omega

/-- What ExtractSNI answers for every variant of a settled hello, from the bytes of the hello. -/
theorem nameInsideNone (block : blockAt d d.length = .ok p)
    (none_ : findName d (min (p + 2 + word d p) d.length) (p + 2) = none) : NameInside d := by
  rintro p' q' start size ⟨other, server, host⟩
  cases block.symm.trans other
  rw [findName, server, Option.bind_some, host] at none_
  contradiction

theorem variantReads (hello : headerError d = none) (block : blockAt (ownHello d) (ownHello d).length = .ok p)
    (settled : BlockSettled (ownHello d) (ListSettled d p) (blockEnd d p) (p + 2)) (variant : Variant d d' p) :
    extractSNI d' = .ok (ownAnswer d p) ∧ NameInside d' := by
  have length := ownLength hello
  have long := variant.long
  have least : 47 ≤ p := (blockFound.mp block).1 ▸ blockPosLeast _
  have same : ∀ i, 9 ≤ i → i < (ownHello d).length →
      ¬ InData (ownHello d) (min (blockEnd d p) (ownHello d).length) (p + 2) i →
      byteAt d' i = byteAt (ownHello d) i := by
    intro i nine inside outside
    rw [ownByte (length ▸ inside)]
    exact variant.same i nine (length ▸ inside) fun within => outside within.2
  have room := (blockFound.mp block).2
  obtain ⟨block', blockLen⟩ := blockAgree block (length ▸ long) fun i nine below =>
    same i nine (by omega) (headerOutside (by omega))
  have end_ : p + 2 + word d' p = blockEnd d p := by rw [blockEnd, blockLen]
  have read : extractSNI d' = .ok (nameAt d' (findName d' (min (blockEnd d p) d'.length) (p + 2))) := by
    rw [extractReads, readSNI, variant.accepted, helloName, block']
    simp only [bind, Except.bind, end_]
    rfl
  rw [read]
  rcases blockWalk settled (fun i from_ => same i (by omega)) (by omega) with
    ⟨q, server, listed, server'⟩ | ⟨server, nothing⟩
  · have walked := listWalk hello least variant server listed
    obtain ⟨after, header⟩ := findServerRoom server
    have bytes : ∀ i, q ≤ i → i < ownEnd d q → byteAt d' i = byteAt (ownHello d) i := by
      intro i from_ below
      have own : ownEnd d q ≤ q + 4 + word (ownHello d) (q + 2) ∧ ownEnd d q ≤ 9 + hsLen d :=
        ⟨min_le_left _ _, min_le_right _ _⟩
      refine same i (by omega) (by omega) fun within => ?_
      have later := inDataServer server from_ within
      omega
    have atLen : word d' (q + 2) = word (ownHello d) (q + 2) :=
      sameWord (same _ (by omega) (by omega) fun within => by
          have later := inDataServer server (by omega) within
          omega)
        (same _ (by omega) (by omega) fun within => by
          have later := inDataServer server (by omega) within
          omega)
    rw [findName, server', Option.bind_some, walked, ownAnswer, server, Option.bind_some]
    cases host : ownHost d p q with
    | none =>
      refine ⟨rfl, nameInsideNone block' ?_⟩
      rw [end_, findName, server', Option.bind_some, walked, host]
    | some r =>
      obtain ⟨start, size⟩ := r
      have within := ownHostRoom host
      have from_ : q + 9 ≤ start := (hostAfterRoom (walked.trans host)).1
      have own : ownEnd d q ≤ q + 4 + word (ownHello d) (q + 2) ∧ ownEnd d q ≤ 9 + hsLen d :=
        ⟨min_le_left _ _, min_le_right _ _⟩
      constructor
      · rw [nameAt, nameAt, sliceSame (by omega) (by omega) fun i low high => bytes i (by omega) (by omega)]
      · rintro p' q' start' size' ⟨other, first, place⟩
        cases block'.symm.trans other
        rw [end_] at first place ⊢
        cases server'.symm.trans first
        cases (walked.trans host).symm.trans place
        rw [variant.lens, atLen]
        omega
  · rw [nothing, ownAnswer, server]
    exact ⟨rfl, nameInsideNone block' (end_ ▸ nothing)⟩

theorem messageVariant (hello : headerError d = none) (hello' : headerError d' = none)
    (same : message d' = message d) : Variant d d' p := by
  have lens := messageHsLen hello hello' same
  have bytes : ∀ i, 5 ≤ i → i < 9 + hsLen d → byteAt d' i = byteAt d i := by
    intro i after below
    have below' : i < 9 + hsLen d' := by omega
    rw [messageByte after below', messageByte after below, same]
  have long := helloLength hello'
  refine ⟨hello', by omega, lens, fun i nine below _ => bytes i (by omega) below, fun q silent _ => ?_⟩
  refine findHostCut (noHostNone silent fun i from_ below => ?_) (min_le_left _ _)
  rw [ownByte below]
  exact bytes i (by omega) below

theorem otherVariant (hello : headerError d = none) (other : OtherData d d' p) : Variant d d' p := by
  obtain ⟨length, block, same⟩ := other
  have least : 47 ≤ p := (blockFound.mp block).1 ▸ blockPosLeast _
  have fixed : ∀ i, i < 9 → byteAt d' i = byteAt d i := fun i below =>
    same i fun within => headerOutside (show i < p + 2 + 4 by omega) within.2
  have lens : hsLen d' = hsLen d := by
    rw [hsLen, hsLen, fixed 6 (by omega), fixed 7 (by omega), fixed 8 (by omega)]
  have recordLen : word d' 3 = word d 3 := sameWord (fixed 3 (by omega)) (fixed 4 (by omega))
  refine ⟨headerAccepted.mpr ?_, length ▸ helloLength hello, lens, fun i _ _ => same i, ?_⟩
  · rw [fixed 0 (by omega), fixed 1 (by omega), fixed 5 (by omega), lens, recordLen, length]
    exact headerAccepted.mp hello
  · intro q _ quiet
    rw [length]
    exact noHostNone quiet fun i _ => same i

theorem settledReads (hello : HoldsHello d) (settled : Settled d) : ReadsOnly d := by
  obtain ⟨p, block, settled⟩ := settled
  have mine := variantReads hello.accepted block settled (messageVariant hello.accepted hello.accepted rfl)
  have outside : ∀ d', HoldsHello d' → message d' = message d → extractSNI d' = extractSNI d :=
    fun d' hello' same => (variantReads hello.accepted block settled
      (messageVariant hello.accepted hello'.accepted same)).1.trans mine.1.symm
  refine ⟨fun t => ?_, outside, fun d' p' other => ?_, mine.2⟩
  · obtain ⟨hello', same⟩ := trailingHello hello t
    exact outside _ hello' same
  · cases block.symm.trans other.block
    exact (variantReads hello.accepted block settled (otherVariant hello.accepted other)).1.trans mine.1.symm

end OmegaLb.Tls
