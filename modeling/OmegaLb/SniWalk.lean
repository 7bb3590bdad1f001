import OmegaLb.SniInspector

/-! Walks over bytes of which some are known: what ExtractSNI comes to, whatever the others are. The
source checks its offsets against the buffer, so a walk may go on behind the hello and, in the list of
server_name, through the extensions behind it. -/
namespace OmegaLb.Tls
open GoText (Bytes)

variable {e d : Bytes} {known : Nat → Prop} {lim pos : Nat}

theorem byteBeyond {i : Nat} (beyond : e.length ≤ i) : byteAt e i = 0 := by
  rw [byteAt, List.getD_eq_getElem?_getD, List.getElem?_eq_none beyond]
  rfl

theorem byteBelow (e : Bytes) (i : Nat) : byteAt e i < 256 := (e.getD i 0).toNat_lt

theorem byteTake {n i : Nat} (inside : i < n) : byteAt (e.take n) i = byteAt e i := by
  rw [byteAt, byteAt, List.getD_eq_getElem?_getD, List.getD_eq_getElem?_getD, List.getElem?_take_of_lt inside]

theorem sameWord {i : Nat} (first : byteAt d i = byteAt e i) (second : byteAt d (i + 1) = byteAt e (i + 1)) :
    word d i = word e i := by
  rw [word, word, first, second]

/-! ### The list of a server_name extension -/

/-- The entries that end inside `lim` come to a host_name. -/
def HostFirst (e : Bytes) (lim pos : Nat) : Prop :=
  if pos + 3 + word e (pos + 1) ≤ lim then
    byteAt e pos = 0 ∨ HostFirst e lim (pos + 3 + word e (pos + 1))
  else False
termination_by lim - pos

/-- A byte that a buffer with the known bytes of `e` can have. -/
def CanBe (known : Nat → Prop) (e : Bytes) (i b : Nat) : Prop := b < 256 ∧ (known i → b = byteAt e i)

/-- No entry that the walk can come to is a host_name that fits into the list. -/
def NoHost (known : Nat → Prop) (e : Bytes) (lim pos : Nat) : Prop :=
  ∀ _ : pos + 3 ≤ lim, ∀ t a b, CanBe known e pos t → CanBe known e (pos + 1) a →
    CanBe known e (pos + 2) b → pos + 3 + (a * 256 + b) ≤ lim →
      t ≠ 0 ∧ NoHost known e lim (pos + 3 + (a * 256 + b))
termination_by lim - pos

theorem hostFirstFound : HostFirst e lim pos ↔ ∃ r, findHost e lim pos = some r := by
  fun_induction findHost e lim pos with
  | case1 pos room long =>
    rw [HostFirst, if_neg (not_le.mpr long)]
    simp
  | case2 pos room fits host =>
    rw [HostFirst, if_pos (not_lt.mp fits)]
    exact iff_of_true (.inl host) ⟨_, rfl⟩
  | case3 pos room fits other ih =>
    rw [HostFirst, if_pos (not_lt.mp fits), ← ih]
    exact or_iff_right other
  | case4 pos short =>
    rw [HostFirst, if_neg (by omega)]
    simp

theorem findHostRoom {start length : Nat} (found : findHost d lim pos = some (start, length)) :
    pos + 3 ≤ start ∧ start + length ≤ lim := by
  fun_induction findHost d lim pos with
  | case1 pos room long => contradiction
  | case2 pos room fits host =>
    obtain ⟨rfl, rfl⟩ := Prod.mk.inj (Option.some.inj found)
    omega
  | case3 pos room fits other ih =>
    have later := ih found
    omega
  | case4 pos short => contradiction

/-- A host_name that fits is found from the bytes before it, whatever the list is cut to. -/
theorem findHostSame {lim' start length : Nat} (found : findHost e lim pos = some (start, length))
    (fits : start + length ≤ lim') (same : ∀ i, pos ≤ i → i < start → byteAt d i = byteAt e i) :
    findHost d lim' pos = some (start, length) := by
  fun_induction findHost e lim pos with
  | case1 pos room long => contradiction
  | case2 pos room inside host =>
    obtain ⟨rfl, rfl⟩ := Prod.mk.inj (Option.some.inj found)
    have nameLen : word d (pos + 1) = word e (pos + 1) :=
      sameWord (same _ (by omega) (by omega)) (same _ (by omega) (by omega))
    have nameType : byteAt d pos = byteAt e pos := same pos le_rfl (by omega)
    rw [findHost, if_pos (by omega), nameLen, if_neg (by omega), if_pos (nameType.trans host)]
  | case3 pos room inside other ih =>
    have past := findHostRoom found
    have nameLen : word d (pos + 1) = word e (pos + 1) :=
      sameWord (same _ (by omega) (by omega)) (same _ (by omega) (by omega))
    have nameType : byteAt d pos = byteAt e pos := same pos le_rfl (by omega)
    rw [findHost, if_pos (by omega), nameLen, if_neg (by omega), if_neg (nameType ▸ other)]
    exact ih found fun i after below => same i (by omega) below
  | case4 pos short => contradiction

theorem findHostCut {lim' : Nat} (nothing : findHost e lim pos = none) (shorter : lim' ≤ lim) :
    findHost e lim' pos = none := by
  rcases Option.eq_none_or_eq_some (findHost e lim' pos) with cut | ⟨⟨start, length⟩, found⟩
  · exact cut
  · have wider := findHostSame found ((findHostRoom found).2.trans shorter) fun _ _ _ => rfl
    rw [nothing] at wider
    contradiction

theorem noHostNone (silent : NoHost known e lim pos)
    (agree : ∀ i, pos ≤ i → known i → byteAt d i = byteAt e i) : findHost d lim pos = none := by
  have canBe : ∀ i, pos ≤ i → CanBe known e i (byteAt d i) := fun i after =>
    ⟨byteBelow d i, agree i after⟩
  fun_induction findHost d lim pos with
  | case1 pos room long => rfl
  | case2 pos room fits host =>
    rw [NoHost] at silent
    have next := silent room _ _ _ (canBe pos le_rfl) (canBe (pos + 1) (by omega)) (canBe (pos + 2) (by omega))
      (not_lt.mp fits)
    exact absurd host next.1
  | case3 pos room fits other ih =>
    rw [NoHost] at silent
    have next := silent room _ _ _ (canBe pos le_rfl) (canBe (pos + 1) (by omega)) (canBe (pos + 2) (by omega))
      (not_lt.mp fits)
    exact ih next.2 (fun i after => agree i (by omega)) fun i after => canBe i (by omega)
  | case4 pos short => rfl

/-- Entries are read one behind the other, so what one of them is does not bind the next. -/
theorem hostPossible (possible : ¬ NoHost known e lim pos) :
    ∃ f : Nat → UInt8, (∀ i, i < pos ∨ known i → (f i).toNat = byteAt e i) ∧
      ∀ x : Bytes, (∀ i, pos ≤ i → i < lim → byteAt x i = (f i).toNat) → ∃ r, findHost x lim pos = some r := by
  induction left : lim - pos using Nat.strong_induction_on generalizing pos with
  | _ left ih =>
  rw [NoHost] at possible
  push Not at possible
  obtain ⟨room, t, a, b, canT, canA, canB, fits, possible⟩ := possible
  obtain ⟨f, own, rest⟩ : ∃ f : Nat → UInt8,
      (∀ i, i < pos + 3 + (a * 256 + b) ∨ known i → (f i).toNat = byteAt e i) ∧
      (t ≠ 0 → ∀ x : Bytes, (∀ i, pos + 3 + (a * 256 + b) ≤ i → i < lim → byteAt x i = (f i).toNat) →
        ∃ r, findHost x lim (pos + 3 + (a * 256 + b)) = some r) := by
    by_cases host : t = 0
    · exact ⟨fun i => e.getD i 0, fun _ _ => rfl, fun other => absurd host other⟩
    · obtain ⟨f, own, rest⟩ := ih _ (by omega) (possible host) rfl
      exact ⟨f, own, fun _ => rest⟩
  let g : Nat → UInt8 := fun i =>
    if i = pos then .ofNat t else if i = pos + 1 then .ofNat a else if i = pos + 2 then .ofNat b else f i
  have small : ∀ n < 256, (UInt8.ofNat n).toNat = n := fun n below => by
    rw [UInt8.toNat_ofNat']
    omega
  have first : (g pos).toNat = t := by simp [g, small t canT.1]
  have second : (g (pos + 1)).toNat = a := by simp [g, small a canA.1]
  have third : (g (pos + 2)).toNat = b := by simp [g, small b canB.1]
  have later : ∀ i, i < pos ∨ pos + 3 ≤ i → g i = f i := fun i away => by
    simp only [g]
    rw [if_neg (by omega), if_neg (by omega), if_neg (by omega)]
  refine ⟨g, ?_, fun x bytes => ?_⟩
  · intro i held
    by_cases one : i = pos
    · subst one
      exact first.trans (canT.2 (held.resolve_left (lt_irrefl i)))
    · by_cases two : i = pos + 1
      · subst two
        exact second.trans (canA.2 (held.resolve_left (by omega)))
      · by_cases three : i = pos + 2
        · subst three
          exact third.trans (canB.2 (held.resolve_left (by omega)))
        · rw [later i (by omega)]
          exact own i (held.imp_left (by omega))
  · have nameType : byteAt x pos = t := (bytes pos le_rfl (by omega)).trans first
    have nameLen : word x (pos + 1) = a * 256 + b := by
      rw [word, bytes (pos + 1) (by omega) (by omega), bytes (pos + 1 + 1) (by omega) (by omega), second, third]
    rw [findHost, if_pos room, nameLen, if_neg (by omega), nameType]
    split
    · exact ⟨_, rfl⟩
    · rename_i other
      refine rest other x fun i after below => ?_
      rw [bytes i (by omega) below, later i (.inr (by omega))]

theorem hostAfterRoom {blockEnd q start length : Nat}
    (found : hostAfter d blockEnd q = some (start, length)) :
    q + 9 ≤ start ∧ start + length ≤ blockEnd := by
  unfold hostAfter at found
  split at found
  · contradiction
  · have room := findHostRoom found
    omega

/-! ### The extension block -/

/-- An extension that names a host takes nine bytes at least; `listed` is about the first server_name. -/
def BlockSettled (e : Bytes) (listed : Nat → Prop) (blockEnd pos : Nat) : Prop :=
  if pos + 4 ≤ min blockEnd e.length then
    if word e pos = 0 then listed pos
    else BlockSettled e listed blockEnd (pos + 4 + word e (pos + 2))
  else blockEnd < (if word e pos = 0 then pos else pos + 4 + word e (pos + 2)) + 9
termination_by e.length - pos

/-- A data byte of an extension other than server_name. -/
def InData (e : Bytes) (end_ pos i : Nat) : Prop :=
  if pos + 4 ≤ end_ then
    (word e pos ≠ 0 ∧ pos + 4 ≤ i ∧ i < pos + 4 + word e (pos + 2)) ∨
      InData e end_ (pos + 4 + word e (pos + 2)) i
  else False
termination_by end_ - pos

theorem inDataAfter {end_ i : Nat} (within : InData e end_ pos i) : pos + 4 ≤ i := by
  fun_induction InData e end_ pos i with
  | case1 pos inside ih =>
    rcases within with ⟨_, after, _⟩ | later
    · exact after
    · have rest := ih later
      omega
  | case2 pos short => contradiction

theorem headerOutside {end_ i : Nat} (below : i < pos + 4) : ¬ InData e end_ pos i := fun within => by
  have after := inDataAfter within
  omega

theorem findServerRoom {end_ q : Nat} (found : findServerName d end_ pos = some q) :
    pos ≤ q ∧ q + 4 ≤ end_ := by
  fun_induction findServerName d end_ pos with
  | case1 pos room isName =>
    cases found
    exact ⟨le_rfl, room⟩
  | case2 pos room other ih =>
    have later := ih found
    omega
  | case3 pos short => contradiction

/-- A server_name extension is found from the bytes up to its own header. -/
theorem findServerSame {end_ end_' q : Nat} (found : findServerName e end_ pos = some q) (fits : q + 4 ≤ end_')
    (same : ∀ i, pos ≤ i → i < q + 4 → byteAt d i = byteAt e i) : findServerName d end_' pos = some q := by
  fun_induction findServerName e end_ pos with
  | case1 pos inside isName =>
    have here : pos = q := Option.some.inj found
    subst here
    have atType : word d pos = word e pos :=
      sameWord (same _ (by omega) (by omega)) (same _ (by omega) (by omega))
    exact serverHere fits (atType.trans isName)
  | case2 pos inside isOther ih =>
    have room := findServerRoom found
    have atType : word d pos = word e pos :=
      sameWord (same _ (by omega) (by omega)) (same _ (by omega) (by omega))
    have atLen : word d (pos + 2) = word e (pos + 2) :=
      sameWord (same _ (by omega) (by omega)) (same _ (by omega) (by omega))
    rw [serverNext (by omega) (atType.symm ▸ isOther), atLen]
    exact ih found fun i after below => same i (by omega) below
  | case3 pos short => contradiction

theorem serverSettled {listed : Nat → Prop} {blockEnd q : Nat}
    (server : findServerName e (min blockEnd e.length) pos = some q) :
    BlockSettled e listed blockEnd pos ↔ listed q := by
  fun_induction findServerName e (min blockEnd e.length) pos with
  | case1 pos inside isName =>
    cases server
    rw [BlockSettled, if_pos inside, if_pos isName]
  | case2 pos inside isOther ih =>
    rw [BlockSettled, if_pos inside, if_neg isOther]
    exact ih server
  | case3 pos short => contradiction

theorem findNameRoom {end_ start length : Nat} (found : findName d end_ pos = some (start, length)) :
    pos + 9 ≤ end_ := by
  obtain ⟨q, server, host⟩ := Option.bind_eq_some_iff.mp found
  have first := findServerRoom server
  have room := hostAfterRoom host
  omega

/-- Behind the first server_name extension the next header comes before any data. -/
theorem inDataServer {end_ q i : Nat} (server : findServerName e end_ pos = some q) (after : q ≤ i)
    (within : InData e end_ pos i) : q + 4 + word e (q + 2) + 4 ≤ i := by
  fun_induction findServerName e end_ pos with
  | case1 pos inside isName =>
    cases server
    rw [InData, if_pos inside] at within
    exact inDataAfter (within.resolve_left fun own => own.1 isName)
  | case2 pos inside isOther ih =>
    have room := findServerRoom server
    rw [InData, if_pos inside] at within
    refine ih server (within.resolve_left fun own => ?_)
    omega
  | case3 pos short => contradiction

theorem leastByte (same : ∀ i, pos ≤ i → i < e.length → byteAt d i = byteAt e i) {i : Nat}
    (from_ : pos ≤ i) : byteAt e i ≤ byteAt d i := by
  by_cases inside : i < e.length
  · exact (same i from_ inside).ge
  · rw [byteBeyond (not_lt.mp inside)]
    exact Nat.zero_le _

theorem leastWord (same : ∀ i, pos ≤ i → i < e.length → byteAt d i = byteAt e i) {i : Nat}
    (from_ : pos ≤ i) : word e i ≤ word d i := by
  have high := leastByte same from_
  have low := leastByte same (show pos ≤ i + 1 by omega)
  unfold word
  omega

/-- No server_name extension starts in the hello `e`, and none that fits can start behind it. -/
theorem pastSettled {blockEnd : Nat}
    (settled : blockEnd < (if word e pos = 0 then pos else pos + 4 + word e (pos + 2)) + 9)
    (same : ∀ i, pos ≤ i → i < e.length → byteAt d i = byteAt e i) :
    findName d (min blockEnd d.length) pos = none := by
  rcases Option.eq_none_or_eq_some (findName d (min blockEnd d.length) pos)
    with nothing | ⟨⟨start, size⟩, found⟩
  · exact nothing
  · have room := findNameRoom found
    have leastType := leastWord same (le_refl pos)
    have leastLen := leastWord same (show pos ≤ pos + 2 by omega)
    split at settled
    · omega
    · rename_i isOther
      rw [findName, serverNext (by omega) (by omega)] at found
      have later := findNameRoom found
      omega

/-- Buffers with the headers of the hello `e` come to its server_name extension, or to no name. -/
theorem blockWalk {blockEnd : Nat} {listed : Nat → Prop} (settled : BlockSettled e listed blockEnd pos)
    (same : ∀ i, pos ≤ i → i < e.length → ¬ InData e (min blockEnd e.length) pos i → byteAt d i = byteAt e i)
    (long : e.length ≤ d.length) :
    (∃ q, findServerName e (min blockEnd e.length) pos = some q ∧ listed q ∧
        findServerName d (min blockEnd d.length) pos = some q) ∨
      findServerName e (min blockEnd e.length) pos = none ∧
        findName d (min blockEnd d.length) pos = none := by
  fun_induction BlockSettled e listed blockEnd pos with
  | case1 pos inside isName =>
    have header : ∀ i, pos ≤ i → i < pos + 4 → byteAt d i = byteAt e i := fun i after below =>
      same i after (by omega) (headerOutside below)
    have atType : word d pos = word e pos :=
      sameWord (header _ (by omega) (by omega)) (header _ (by omega) (by omega))
    exact .inl ⟨pos, serverHere inside isName, settled, serverHere (by omega) (atType.trans isName)⟩
  | case2 pos inside isOther ih =>
    have header : ∀ i, pos ≤ i → i < pos + 4 → byteAt d i = byteAt e i := fun i after below =>
      same i after (by omega) (headerOutside below)
    have atType : word d pos = word e pos :=
      sameWord (header _ (by omega) (by omega)) (header _ (by omega) (by omega))
    have atLen : word d (pos + 2) = word e (pos + 2) :=
      sameWord (header _ (by omega) (by omega)) (header _ (by omega) (by omega))
    have next : findServerName d (min blockEnd d.length) pos =
        findServerName d (min blockEnd d.length) (pos + 4 + word e (pos + 2)) := by
      rw [serverNext (by omega) (atType.symm ▸ isOther), atLen]
    rw [serverNext inside isOther, findName, next]
    refine ih settled fun i after below outside => same i (by omega) below fun within => ?_
    rw [InData, if_pos inside] at within
    exact outside (within.resolve_left fun own => by omega)
  | case3 pos short =>
    refine .inr ⟨serverPast (by omega), pastSettled settled fun i after below => ?_⟩
    refine same i after below fun within => ?_
    rw [InData, if_neg short] at within
    exact within

/-! ### Where the block starts -/

def blockPos (d : Bytes) : Nat :=
  let afterId := 44 + byteAt d 43
  let afterSuites := afterId + 2 + word d afterId
  afterSuites + 1 + byteAt d afterSuites

theorem blockFound {limit p : Nat} : blockAt d limit = .ok p ↔ p = blockPos d ∧ p + 2 ≤ limit := by
  unfold blockAt blockPos
  dsimp only
  split
  · exact iff_of_false (fun found => by cases found) (by omega)
  · split
    · exact iff_of_false (fun found => by cases found) (by omega)
    · split
      · exact iff_of_false (fun found => by cases found) (by omega)
      · split
        · exact iff_of_false (fun found => by cases found) (by omega)
        · rw [Except.ok.injEq]
          omega

theorem blockPosSame (same : ∀ i, 43 ≤ i → i < blockPos e → byteAt d i = byteAt e i) :
    blockPos d = blockPos e := by
  unfold blockPos at same ⊢
  dsimp only at same ⊢
  rw [same 43 (by omega) (by omega), sameWord (same (44 + byteAt e 43) (by omega) (by omega))
    (same (44 + byteAt e 43 + 1) (by omega) (by omega)),
    same (44 + byteAt e 43 + 2 + word e (44 + byteAt e 43)) (by omega) (by omega)]

theorem blockPosLeast (e : Bytes) : 47 ≤ blockPos e := by
  unfold blockPos
  dsimp only
  omega

theorem blockAgree {p : Nat} (found : blockAt e e.length = .ok p) (long : e.length ≤ d.length)
    (same : ∀ i, 9 ≤ i → i < p + 2 → byteAt d i = byteAt e i) :
    blockAt d d.length = .ok p ∧ word d p = word e p := by
  obtain ⟨start, room⟩ := blockFound.mp found
  have least := blockPosLeast e
  have pos : blockPos d = blockPos e := blockPosSame fun i after below => same i (by omega) (by omega)
  refine ⟨blockFound.mpr ⟨start.trans pos.symm, by omega⟩, ?_⟩
  exact sameWord (same _ (by omega) (by omega)) (same _ (by omega) (by omega))

theorem byteGet {i : Nat} (inside : i < d.length) : byteAt d i = d[i].toNat := by
  rw [byteAt, List.getD_eq_getElem?_getD, List.getElem?_eq_getElem inside]
  rfl

theorem sliceSame {start length : Nat} (fits : start + length ≤ e.length) (long : start + length ≤ d.length)
    (same : ∀ i, start ≤ i → i < start + length → byteAt d i = byteAt e i) :
    (d.take (start + length)).drop start = (e.take (start + length)).drop start := by
  apply List.ext_getElem
  · simp only [List.length_drop, List.length_take]
    omega
  · intro i left right
    simp only [List.length_drop, List.length_take] at left right
    have equal := same (start + i) (by omega) (by omega)
    rw [byteGet (by omega), byteGet (by omega)] at equal
    simpa only [List.getElem_drop, List.getElem_take] using UInt8.toNat_inj.mp equal

end OmegaLb.Tls
