import OmegaLb.GoText
import OmegaLb.LeftmostFirst
import Mathlib.Data.List.TakeWhile

/-! AggregatePath of cardinality.go against whole segments. The expression has only ASCII in it, so
it can be taken byte by byte, and the replacement has no template. It is not anchored behind the
segment, so a segment that merely begins like an id loses what it begins with. -/
namespace OmegaLb.Metrics
open GoText (Bytes ascii isDigit)
open LeftmostFirst (Re firstAfter firstAlt firstPlus firstWord fits fitsAppend fitsAt fitsLength replaceAll replaceFound
  replaceMissed replacePasses)

def slash : UInt8 := 47

def isHex (b : UInt8) : Bool := isDigit b || (65 ≤ b && b ≤ 70) || (97 ≤ b && b ≤ 102)

def hexes (n : Nat) : List (UInt8 → Bool) := List.replicate n isHex

def dash : UInt8 → Bool := (· == 45)

/-- The classes of a UUID behind the first. -/
def uuidTail : List (UInt8 → Bool) :=
  hexes 7 ++ dash :: hexes 4 ++ dash :: hexes 4 ++ dash :: hexes 4 ++ dash :: hexes 12

def uuidClasses : List (UInt8 → Bool) := isHex :: uuidTail

def pathIDPattern : Re UInt8 := .seq (.one (· == slash)) (.alt (.word isHex uuidTail) (.plus isDigit))

def idLabel : Bytes := ascii "\x7bid\x7d"

def aggregatePath (raw : Bytes) : Bytes := replaceAll pathIDPattern (slash :: idLabel) raw

/-! ### Segments -/

/-- What stands before the first slash, and what stands behind each. -/
def segments : Bytes → Bytes × List Bytes
  | [] => ([], [])
  | b :: bs =>
    let (head, segs) := segments bs
    if b = slash then ([], head :: segs) else (b :: head, segs)

def join (path : Bytes × List Bytes) : Bytes := path.1 ++ path.2.flatMap (slash :: ·)

def IsId (segment : Bytes) : Prop :=
  segment ≠ [] ∧ segment.all isDigit = true ∨ segment.length = uuidClasses.length ∧ fits uuidClasses segment = true

instance (segment : Bytes) : Decidable (IsId segment) := inferInstanceAs (Decidable (_ ∨ _))

def labelled (segment : Bytes) : Bytes := if IsId segment then idLabel else segment

/-- The path with its ids replaced, segment by segment. -/
def wholeLabel (p : Bytes) : Bytes := join ((segments p).1, (segments p).2.map labelled)

/-- Every segment that begins with a digit or a UUID is all of it. -/
def Whole (p : Bytes) : Prop :=
  ∀ s ∈ (segments p).2, s.head?.any isDigit = true ∨ fits uuidClasses s = true → IsId s

/-- Wherever one path has an id, the other has the same one. -/
def DifferElsewhere (p q : Bytes) : Prop :=
  ∀ (i : Nat) (s : Bytes), IsId s → ((segments p).2[i]? = some s ↔ (segments q).2[i]? = some s)

structure WholeSegments (p q : Bytes) : Prop where
  replaced : aggregatePath p = wholeLabel p ∧ aggregatePath q = wholeLabel q
  idempotent : aggregatePath (aggregatePath p) = aggregatePath p ∧ aggregatePath (aggregatePath q) = aggregatePath q
  apart : p ≠ q → DifferElsewhere p q → aggregatePath p ≠ aggregatePath q

theorem joinSegments (p : Bytes) : join (segments p) = p := by
  induction p with
  | nil => rfl
  | cons b bs ih =>
    rw [segments]
    dsimp only
    split
    · rename_i same
      rw [same]
      exact congrArg (slash :: ·) ih
    · exact congrArg (b :: ·) ih

structure Plain (path : Bytes × List Bytes) : Prop where
  head : slash ∉ path.1
  segs : ∀ s ∈ path.2, slash ∉ s

theorem segmentsPlain (p : Bytes) : Plain (segments p) := by
  induction p with
  | nil => exact ⟨List.not_mem_nil, fun _ member => absurd member List.not_mem_nil⟩
  | cons b bs ih =>
    rw [segments]
    dsimp only
    split
    · exact ⟨List.not_mem_nil, List.forall_mem_cons.mpr ⟨ih.head, ih.segs⟩⟩
    · rename_i different
      exact ⟨(List.mem_cons.not.trans not_or).mpr ⟨Ne.symm different, ih.head⟩, ih.segs⟩

theorem segmentsHead {head v : Bytes} {segs : List Bytes} (plain : slash ∉ head) (rest : segments v = ([], segs)) :
    segments (head ++ v) = (head, segs) := by
  induction head with
  | nil => exact rest
  | cons b bs ih =>
    obtain ⟨different, later⟩ := (List.mem_cons.not.trans not_or).mp plain
    rw [List.cons_append, segments, ih later]
    exact if_neg (Ne.symm different)

theorem segmentsFlat {segs : List Bytes} (plain : ∀ s ∈ segs, slash ∉ s) :
    segments (segs.flatMap (slash :: ·)) = ([], segs) := by
  induction segs with
  | nil => rfl
  | cons s rest ih =>
    obtain ⟨first, later⟩ := List.forall_mem_cons.mp plain
    rw [List.flatMap_cons, List.cons_append, segments, segmentsHead first (ih later)]
    exact if_pos rfl

theorem segmentsJoin {path : Bytes × List Bytes} (plain : Plain path) : segments (join path) = path :=
  segmentsHead plain.head (segmentsFlat plain.segs)

/-! ### One segment -/

/-- What the pattern makes of a segment. -/
def replacedSegment (s : Bytes) : Bytes :=
  if fits uuidClasses s then idLabel ++ s.drop uuidClasses.length
  else if s.head?.any isDigit then idLabel ++ s.dropWhile isDigit
  else s

theorem patternMisses {b : UInt8} (other : b ≠ slash) (s : Bytes) : pathIDPattern.first (b :: s) = none := by
  rw [pathIDPattern, firstAfter, if_neg (by simpa using other)]

theorem patternFirst (s : Bytes) : pathIDPattern.first (slash :: s) =
    if fits uuidClasses s then some (s.drop uuidClasses.length)
    else if s.head?.any isDigit then some (s.dropWhile isDigit) else none := by
  rw [pathIDPattern, firstAfter, if_pos (by simp), firstAlt, firstWord, firstPlus]
  rw [show uuidClasses = isHex :: uuidTail from rfl, List.length_cons]
  split
  · rfl
  · exact Option.none_or

/-- The end of the path or the next slash. -/
def Ends (v : Bytes) : Prop := v = [] ∨ ∃ w, v = slash :: w

theorem aggregatePlain {u v : Bytes} (plain : slash ∉ u) : aggregatePath (u ++ v) = u ++ aggregatePath v := by
  refine replacePasses fun b member s => patternMisses ?_ s
  rintro rfl
  exact plain member

theorem endsHead {v : Bytes} (ends : Ends v) : ∀ b, v.head? = some b → b = slash := by
  rcases ends with rfl | ⟨w, rfl⟩
  · intro b none_
    contradiction
  · intro b head
    exact (Option.some.inj head).symm

theorem uuidEnds {v : Bytes} (ends : Ends v) (s : Bytes) : fits uuidClasses (s ++ v) = fits uuidClasses s := by
  refine fitsAppend fun b head p member => ?_
  have none_ : uuidClasses.all (fun p => !p slash) = true := by decide
  rw [endsHead ends b head]
  simpa using List.all_eq_true.mp none_ p member

theorem digitsEnd {v : Bytes} (ends : Ends v) (s : Bytes) :
    ((s ++ v).head?.any isDigit = s.head?.any isDigit) ∧
      (s ++ v).dropWhile isDigit = s.dropWhile isDigit ++ v := by
  have stops : isDigit slash = false := by decide
  induction s with
  | nil =>
    rcases ends with rfl | ⟨w, rfl⟩
    · exact ⟨rfl, rfl⟩
    · exact ⟨stops, List.dropWhile_cons_of_neg (by simp [stops])⟩
  | cons b bs ih =>
    refine ⟨rfl, ?_⟩
    rw [List.cons_append]
    by_cases digit : isDigit b = true
    · rw [List.dropWhile_cons_of_pos digit, List.dropWhile_cons_of_pos digit, ih.2]
    · rw [List.dropWhile_cons_of_neg digit, List.dropWhile_cons_of_neg digit, List.cons_append]

/-- The pattern takes the beginning of a segment and goes on behind it. -/
theorem aggregateTaken {s rest v : Bytes} (plain : slash ∉ rest) (behind : rest ++ v <:+ s ++ v)
    (found : pathIDPattern.first (slash :: (s ++ v)) = some (rest ++ v)) :
    aggregatePath (slash :: (s ++ v)) = slash :: (idLabel ++ rest) ++ aggregatePath v := by
  have taken : aggregatePath (slash :: (s ++ v)) = slash :: idLabel ++ aggregatePath (rest ++ v) :=
    replaceFound found behind
  rw [taken, aggregatePlain plain]
  simp

theorem aggregateSegment {s v : Bytes} (plain : slash ∉ s) (ends : Ends v) :
    aggregatePath (slash :: (s ++ v)) = slash :: replacedSegment s ++ aggregatePath v := by
  have first := patternFirst (s ++ v)
  obtain ⟨digits, dropped⟩ := digitsEnd ends s
  rw [uuidEnds ends, digits, dropped] at first
  unfold replacedSegment
  split
  · rename_i uuid
    have long := fitsLength uuid
    rw [if_pos uuid, List.drop_append_of_le_length long] at first
    refine aggregateTaken (fun member => plain (List.mem_of_mem_drop member)) ?_ first
    exact ⟨s.take uuidClasses.length, by rw [← List.append_assoc, List.take_append_drop]⟩
  · rename_i other
    rw [if_neg other] at first
    split
    · rename_i digit
      rw [if_pos digit] at first
      refine aggregateTaken (fun member => plain ((List.dropWhile_sublist _).subset member)) ?_ first
      exact ⟨s.takeWhile isDigit, by rw [← List.append_assoc, List.takeWhile_append_dropWhile]⟩
    · rename_i letter
      rw [if_neg letter] at first
      have missed : aggregatePath (slash :: (s ++ v)) = slash :: aggregatePath (s ++ v) := replaceMissed first
      rw [missed, aggregatePlain plain]
      rfl

theorem aggregateJoin {path : Bytes × List Bytes} (plain : Plain path) :
    aggregatePath (join path) = join (path.1, path.2.map replacedSegment) := by
  obtain ⟨head, segs⟩ := path
  obtain ⟨plainHead, plainSegs⟩ := plain
  rw [join, aggregatePlain plainHead]
  refine congrArg (head ++ ·) ?_
  change ∀ s ∈ segs, slash ∉ s at plainSegs
  clear plainHead
  dsimp only
  induction segs with
  | nil => rfl
  | cons s rest ih =>
    obtain ⟨first, later⟩ := List.forall_mem_cons.mp plainSegs
    have ends : Ends (rest.flatMap (slash :: ·)) := by
      cases rest with
      | nil => exact .inl rfl
      | cons t rest => exact .inr ⟨_, rfl⟩
    rw [List.flatMap_cons, List.cons_append, aggregateSegment first ends, ih later]
    simp

/-! ### Segments and ids -/

theorem labelBegins (rest : Bytes) : ¬ (idLabel ++ rest).head?.any isHex = true := by
  have brace : ¬ isHex 123 = true := by decide
  exact brace

theorem labelNew (s rest : Bytes) (begins : s.head?.any isHex = true) : idLabel ++ rest ≠ s := by
  rintro rfl
  exact labelBegins rest begins

theorem uuidBegins {s : Bytes} (uuid : fits uuidClasses s = true) :
    s.head?.any isHex = true ∧ ¬ s.all isDigit = true := by
  obtain ⟨b, first, hex⟩ := fitsAt uuid (i := 0) rfl
  obtain ⟨c, ninth, hyphen⟩ := fitsAt uuid (i := 8) rfl
  refine ⟨?_, fun digits => ?_⟩
  · rw [List.head?_eq_getElem?, first]
    exact hex
  · have digit := List.all_eq_true.mp digits c (List.mem_of_getElem? ninth)
    have same : c = 45 := by simpa [dash] using hyphen
    rw [same] at digit
    exact absurd digit (by decide)

theorem digitBegins {s : Bytes} (digit : s.head?.any isDigit = true) : s.head?.any isHex = true := by
  cases s with
  | nil => contradiction
  | cons b bs =>
    have here : isDigit b = true := digit
    simp [isHex, here]

theorem allDropped {s : Bytes} (digits : s.all isDigit = true) : s.dropWhile isDigit = [] :=
  List.dropWhile_eq_nil_iff.mpr (List.all_eq_true.mp digits)

theorem replacedExact (s : Bytes) :
    replacedSegment s = labelled s ↔ (s.head?.any isDigit = true ∨ fits uuidClasses s = true → IsId s) := by
  unfold replacedSegment labelled
  split
  · rename_i uuid
    obtain ⟨begins, mixed⟩ := uuidBegins uuid
    by_cases whole : IsId s
    · have exact_ : s.length = uuidClasses.length := (whole.resolve_left fun digits => mixed digits.2).1
      rw [if_pos whole, ← exact_, List.drop_length, List.append_nil]
      exact iff_of_true rfl fun _ => whole
    · rw [if_neg whole]
      exact iff_of_false (labelNew s _ begins) fun all => whole (all (.inr uuid))
  · rename_i other
    split
    · rename_i digit
      by_cases whole : IsId s
      · have digits : s.all isDigit = true := (whole.resolve_right fun uuid => other uuid.2).2
        rw [if_pos whole, allDropped digits, List.append_nil]
        exact iff_of_true rfl fun _ => whole
      · rw [if_neg whole]
        exact iff_of_false (labelNew s _ (digitBegins digit)) fun all => whole (all (.inl digit))
    · rename_i letter
      have outside : ¬ IsId s := by
        rintro (⟨some_, digits⟩ | uuid)
        · cases s with
          | nil => exact some_ rfl
          | cons b bs => exact letter (List.all_eq_true.mp digits b List.mem_cons_self)
        · exact other uuid.2
      rw [if_neg outside]
      exact iff_of_true rfl fun begins => absurd begins (not_or.mpr ⟨letter, other⟩)

theorem replacedKept {s : Bytes} (letter : ¬ s.head?.any isHex = true) : replacedSegment s = s := by
  have other : ¬ fits uuidClasses s = true := fun uuid => letter (uuidBegins uuid).1
  rw [replacedSegment, if_neg other, if_neg fun digit => letter (digitBegins digit)]

theorem replacedTwice (s : Bytes) : replacedSegment (replacedSegment s) = replacedSegment s := by
  by_cases uuid : fits uuidClasses s = true
  · rw [replacedSegment.eq_def s, if_pos uuid]
    exact replacedKept (labelBegins _)
  · by_cases digit : s.head?.any isDigit = true
    · rw [replacedSegment.eq_def s, if_neg uuid, if_pos digit]
      exact replacedKept (labelBegins _)
    · have same : replacedSegment s = s := by rw [replacedSegment, if_neg uuid, if_neg digit]
      rw [same, same]

theorem labelPlain : slash ∉ idLabel := by decide

theorem replacedPlain {s : Bytes} (plain : slash ∉ s) : slash ∉ replacedSegment s := by
  have behind {rest : Bytes} (within : rest ⊆ s) : slash ∉ idLabel ++ rest := fun member =>
    (List.mem_append.mp member).elim labelPlain fun later => plain (within later)
  unfold replacedSegment
  split
  · exact behind (List.drop_subset _ s)
  · split
    · exact behind (List.dropWhile_sublist _).subset
    · exact plain

theorem labelledPlain {s : Bytes} (plain : slash ∉ s) : slash ∉ labelled s := by
  unfold labelled
  split
  · exact labelPlain
  · exact plain

/-! ### Whole paths -/

theorem plainMap {path : Bytes × List Bytes} (plain : Plain path) {f : Bytes → Bytes}
    (keeps : ∀ s, slash ∉ s → slash ∉ f s) : Plain (path.1, path.2.map f) := by
  refine ⟨plain.head, fun t member => ?_⟩
  obtain ⟨s, inside, rfl⟩ := List.mem_map.mp member
  exact keeps s (plain.segs s inside)

theorem aggregateSegments (p : Bytes) :
    aggregatePath p = join ((segments p).1, (segments p).2.map replacedSegment) := by
  conv => lhs; rw [← joinSegments p]
  exact aggregateJoin (segmentsPlain p)

theorem aggregatedSegments (p : Bytes) :
    segments (aggregatePath p) = ((segments p).1, (segments p).2.map replacedSegment) := by
  rw [aggregateSegments]
  exact segmentsJoin (plainMap (segmentsPlain p) fun _ => replacedPlain)

theorem labelledSegments (p : Bytes) :
    segments (wholeLabel p) = ((segments p).1, (segments p).2.map labelled) :=
  segmentsJoin (plainMap (segmentsPlain p) fun _ => labelledPlain)

theorem aggregateTwice (p : Bytes) : aggregatePath (aggregatePath p) = aggregatePath p := by
  have once := aggregateSegments p
  rw [aggregateSegments (aggregatePath p), aggregatedSegments, List.map_map]
  have same : replacedSegment ∘ replacedSegment = replacedSegment := funext replacedTwice
  rw [same, ← once]

theorem aggregateExact (p : Bytes) : aggregatePath p = wholeLabel p ↔ Whole p := by
  have mapped : aggregatePath p = wholeLabel p ↔
      (segments p).2.map replacedSegment = (segments p).2.map labelled := by
    refine ⟨fun same => ?_, fun same => by rw [aggregateSegments, same, wholeLabel]⟩
    have parts := congrArg segments same
    rw [aggregatedSegments, labelledSegments] at parts
    exact congrArg Prod.snd parts
  rw [mapped, List.map_inj_left]
  exact forall₂_congr fun s _ => replacedExact s

/-- Only an id can get the label of another segment. -/
theorem labelledApart {s t : Bytes} (label : labelled s = labelled t) (left : IsId s → s = t)
    (right : IsId t → s = t) : s = t := by
  by_cases id : IsId s
  · exact left id
  · by_cases other : IsId t
    · exact right other
    · rwa [labelled, labelled, if_neg id, if_neg other] at label

theorem labelsApart {p q : Bytes} (elsewhere : DifferElsewhere p q) (same : wholeLabel p = wholeLabel q) : p = q := by
  have parts := congrArg segments same
  rw [labelledSegments, labelledSegments] at parts
  obtain ⟨heads, labels⟩ := Prod.mk.inj parts
  have segs : (segments p).2 = (segments q).2 := by
    refine List.ext_getElem (by simpa using congrArg List.length labels) fun i inside inside' => ?_
    have left := List.getElem?_eq_getElem inside
    have right := List.getElem?_eq_getElem inside'
    have label := congrArg (·[i]?) labels
    simp only [List.getElem?_map, left, right, Option.map_some, Option.some.injEq] at label
    refine labelledApart label (fun id => ?_) fun id => ?_
    · exact Option.some.inj (((elsewhere i _ id).mp left).symm.trans right)
    · exact Option.some.inj (left.symm.trans ((elsewhere i _ id).mpr right))
  have paths : segments p = segments q := Prod.ext heads segs
  rw [← joinSegments p, paths, joinSegments]

theorem pathLabels (p q : Bytes) : WholeSegments p q ↔ Whole p ∧ Whole q := by
  constructor
  · intro holds
    exact ⟨(aggregateExact p).mp holds.replaced.1, (aggregateExact q).mp holds.replaced.2⟩
  · rintro ⟨left, right⟩
    have replaced := And.intro ((aggregateExact p).mpr left) ((aggregateExact q).mpr right)
    refine ⟨replaced, ⟨aggregateTwice p, aggregateTwice q⟩, fun different elsewhere same => different ?_⟩
    rw [replaced.1, replaced.2] at same
    exact labelsApart elsewhere same

/-- A segment that begins with a digit loses its digits, and two of them get one label. -/
theorem routesMerged : ¬ WholeSegments (ascii "/12abc") (ascii "/34abc") ∧
    aggregatePath (ascii "/12abc") = ascii "/\x7bid\x7dabc" ∧
    aggregatePath (ascii "/34abc") = ascii "/\x7bid\x7dabc" := by
  have left : aggregatePath (ascii "/12abc") = ascii "/\x7bid\x7dabc" := by decide
  have right : aggregatePath (ascii "/34abc") = ascii "/\x7bid\x7dabc" := by decide
  have unchanged : wholeLabel (ascii "/12abc") = ascii "/12abc" := by decide
  refine ⟨fun holds => ?_, left, right⟩
  have same := holds.replaced.1
  rw [left, unchanged] at same
  exact absurd same (by decide)

end OmegaLb.Metrics
