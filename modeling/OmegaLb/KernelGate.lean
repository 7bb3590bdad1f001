import OmegaLb.AdminServer

/-! The kernel release that loader.go reads before it loads anything, and the variant of the eBPF objects
that it chooses by it. -/
namespace OmegaLb.KernelGate
open GoText (Bytes ascii decimal decimalDigits decimalNonempty digitsValue digitsValueDecimal isDigit)
open Admin (atoi spaces trimFrom trimSpace)

structure KernelVersion where
  major : Int
  minor : Int
  patch : Int
  deriving DecidableEq

def KernelVersion.atLeast (kv : KernelVersion) (major minor : Int) : Bool :=
  if kv.major ≠ major then kv.major > major else kv.minor ≥ minor

inductive KernelError where
  | unread
  | empty (raw : Bytes)
  | tooFew (part : Bytes)
  | major (raw : Bytes)
  | minor (raw : Bytes)
  deriving DecidableEq

/-- `-`, `+` and `~` -/
def cuts (b : UInt8) : Bool := b = 45 || b = 43 || b = 126

def fieldsFunc (cut : UInt8 → Bool) (s : Bytes) : List Bytes := (s.splitOnP cut).filter (· ≠ [])

/-- strings.SplitN by one byte. -/
def splitN (sep : UInt8) : Nat → Bytes → List Bytes
  | 0, _ => []
  | 1, s => [s]
  | left + 2, s =>
    if sep ∈ s then s.takeWhile (· ≠ sep) :: splitN sep (left + 1) ((s.dropWhile (· ≠ sep)).drop 1) else [s]

/-- What strconv.Atoi returns beside its error: the nearest int of a number out of range, or 0. -/
def nearestInt (s : Bytes) : Int :=
  let magnitude (ds : Bytes) : Nat := if ds ≠ [] ∧ ds.all isDigit then digitsValue ds else 0
  match s with
  | 43 :: ds => min (magnitude ds) (2 ^ 63 - 1)
  | 45 :: ds => max (-(magnitude ds)) (-(2 ^ 63))
  | ds => min (magnitude ds) (2 ^ 63 - 1)

/-- The text is that of /proc/sys/kernel/osrelease. -/
def parseKernelVersion (data : Option Bytes) : Except KernelError KernelVersion :=
  match data with
  | none => .error .unread
  | some data =>
    let raw := trimSpace data
    match fieldsFunc cuts raw with
    | [] => .error (.empty raw)
    | part :: _ =>
      match splitN 46 3 part with
      | major :: minor :: patch =>
        match atoi major with
        | none => .error (.major raw)
        | some major =>
          match atoi minor with
          | none => .error (.minor raw)
          | some minor => .ok ⟨major, minor, (patch.head?.map nearestInt).getD 0⟩
      | _ => .error (.tooFew part)

inductive Variant where
  | v60
  | v517
  | v515
  | tc
  deriving DecidableEq

def Variant.suffix : Variant → Bytes
  | .v60 => ascii "60"
  | .v517 => ascii "517"
  | .v515 => ascii "515"
  | .tc => ascii "tc"

def compatVariant (kv : KernelVersion) : Variant :=
  if kv.atLeast 6 0 then .v60
  else if kv.atLeast 5 17 then .v517
  else if kv.atLeast 5 15 then .v515
  else .tc

inductive StartupError where
  | parse (cause : KernelError)
  | belowMinimum (kernel : KernelVersion)
  deriving DecidableEq

def assertKernelVersion (data : Option Bytes) : Option Variant × Option StartupError :=
  match parseKernelVersion data with
  | .error cause => (none, some (.parse cause))
  | .ok kv => (some (compatVariant kv), if compatVariant kv = .tc then some (.belowMinimum kv) else none)

/-! ### What is promised -/

/-- The first kernel that has what a variant uses; the TC fallback is never loaded here. -/
def Variant.since : Variant → Option (Nat × Nat)
  | .v60 => some (6, 0)
  | .v517 => some (5, 17)
  | .v515 => some (5, 15)
  | .tc => none

/-- What uname reports: two numbers, and after a dot or a mark of the distribution anything. -/
structure Release where
  major : Nat
  minor : Nat
  tail : Bytes
  majorFits : major < 2 ^ 63
  minorFits : minor < 2 ^ 63
  apart : ∀ b ∈ tail.head?, b = 46 ∨ cuts b = true

def Release.text (r : Release) : Bytes := decimal r.major ++ 46 :: decimal r.minor ++ r.tail ++ [10]

def KernelVersion.Runs (kv : KernelVersion) (v : Variant) : Prop :=
  ∃ major minor : Nat, v.since = some (major, minor) ∧ (major < kv.major ∨ major = kv.major ∧ minor ≤ kv.minor)

/-- The order in which the variants use more of the kernel. -/
def Variant.rank : Variant → Nat
  | .tc => 0
  | .v515 => 1
  | .v517 => 2
  | .v60 => 3

/-! ### Trimming -/

theorem spacesDigits {unit : Bytes} (listed : unit ∈ spaces ∨ unit ∈ spaces.map List.reverse) {d : UInt8}
    (digit : isDigit d = true) : d ∉ unit := by
  have free : ∀ unit ∈ spaces ++ spaces.map List.reverse, (unit.all fun b => !isDigit b) = true := by decide
  intro inside
  have not := List.all_eq_true.mp (free unit (List.mem_append.mpr listed)) d inside
  rw [digit] at not
  contradiction

/-- What is trimmed ends before a byte that no unit has. -/
theorem trimFromKept {units : List Bytes} {d : UInt8} (apart : ∀ unit ∈ units, d ∉ unit) (left : Nat) (front back : Bytes) :
    ∃ kept, kept <:+ front ∧ trimFrom units left (front ++ d :: back) = kept ++ d :: back := by
  induction left generalizing front with
  | zero => exact ⟨front, List.suffix_rfl, rfl⟩
  | succ left ih =>
    unfold trimFrom
    cases found : units.find? (·.isPrefixOf (front ++ d :: back)) with
    | none => exact ⟨front, List.suffix_rfl, rfl⟩
    | some unit =>
      have outside := apart unit (List.mem_of_find?_eq_some found)
      have starts : unit <+: front ++ [d] ++ back := by
        simpa using List.find?_some found
      have within : unit <+: front := by
        rcases List.prefix_or_prefix_of_prefix starts (List.prefix_append _ _) with shorter | longer
        · rcases List.prefix_concat_iff.mp shorter with rfl | inner
          · exact absurd (List.mem_append_right _ List.mem_cons_self) outside
          · exact inner
        · exact absurd (longer.subset (List.mem_append_right _ List.mem_cons_self)) outside
      obtain ⟨rest, rfl⟩ := within
      obtain ⟨kept, suffix, trimmed⟩ := ih rest
      refine ⟨kept, suffix.trans (List.suffix_append _ _), ?_⟩
      rw [List.append_assoc]
      dsimp only
      rw [List.drop_left, trimmed]

theorem trimNewline (left : Nat) (s : Bytes) : trimFrom (spaces.map List.reverse) (left + 1) (10 :: s) =
    trimFrom (spaces.map List.reverse) left s := rfl

theorem trimKept {d e : UInt8} (first : isDigit d = true) (last : isDigit e = true) (front tail : Bytes)
    (starts : (front ++ [e]).head? = some d) :
    ∃ kept, kept <+: tail ∧ trimSpace (front ++ e :: tail ++ [10]) = front ++ e :: kept := by
  obtain ⟨rest, begins⟩ : ∃ rest, front ++ e :: tail ++ [10] = d :: rest := by
    cases front with
    | nil => exact ⟨tail ++ [10], by simpa using starts⟩
    | cons b front => exact ⟨front ++ e :: (tail ++ [10]), by simpa using starts⟩
  have whole : ∀ left, trimFrom spaces left (d :: rest) = d :: rest := fun left => by
    obtain ⟨kept, suffix, trimmed⟩ := trimFromKept (fun unit listed => spacesDigits (.inl listed) first) left [] rest
    rw [List.suffix_nil.mp suffix] at trimmed
    exact trimmed
  obtain ⟨kept, suffix, trimmed⟩ := trimFromKept (fun unit listed => spacesDigits (.inr listed) last)
    (front ++ e :: tail).length tail.reverse front.reverse
  refine ⟨kept.reverse, by simpa using List.reverse_prefix.mpr suffix, ?_⟩
  unfold trimSpace
  dsimp only
  rw [begins, whole, ← begins, List.reverse_append, List.length_append]
  change (trimFrom (spaces.map List.reverse) ((front ++ e :: tail).length + 1) (10 :: (front ++ e :: tail).reverse)).reverse = _
  rw [trimNewline, List.reverse_append, List.reverse_cons, List.append_assoc, List.singleton_append, trimmed]
  simp

/-! ### Splitting -/

theorem fieldsFirst {cut : UInt8 → Bool} {x : Bytes} (some_ : x ≠ []) (uncut : ∀ b ∈ x, cut b = false) (rest : Bytes)
    (ends : ∀ b ∈ rest.head?, cut b = true) : ∃ more, fieldsFunc cut (x ++ rest) = x :: more := by
  unfold fieldsFunc
  cases rest with
  | nil =>
    rw [List.append_nil, List.splitOnP_eq_singleton uncut]
    exact ⟨[], by simp [some_]⟩
  | cons b rest =>
    rw [List.splitOnP_append_cons_of_forall_mem uncut b (ends b rfl) rest]
    exact ⟨_, List.filter_cons_of_pos (by simpa using some_)⟩

theorem splitLast {sep : UInt8} {s : Bytes} (absent : ∀ b ∈ s, b ≠ sep) (left : Nat) : splitN sep (left + 2) s = [s] :=
  if_neg fun inside => absent sep inside rfl

theorem splitFirst {sep : UInt8} {s : Bytes} (absent : ∀ b ∈ s, b ≠ sep) (left : Nat) (rest : Bytes) :
    splitN sep (left + 2) (s ++ sep :: rest) = s :: splitN sep (left + 1) rest := by
  have passes : ∀ b ∈ s, decide (b ≠ sep) = true := fun b inside => decide_eq_true (absent b inside)
  rw [splitN, if_pos (List.mem_append_right _ List.mem_cons_self), List.takeWhile_append_of_pos passes,
    List.dropWhile_append_of_pos passes]
  simp

theorem atoiDecimal {n : Nat} (fits : n < 2 ^ 63) : atoi (decimal n) = some (n : Int) := by
  obtain ⟨b, ds, shape⟩ := List.exists_cons_of_ne_nil (decimalNonempty n)
  have digit := decimalDigits n b (by rw [shape]; exact List.mem_cons_self)
  have notPlus : b ≠ 43 := fun same => by subst same; contradiction
  have notMinus : b ≠ 45 := fun same => by subst same; contradiction
  have unsigned : atoi (decimal n) = ((if decimal n ≠ [] ∧ (decimal n).all isDigit then
      some (digitsValue (decimal n)) else none).map fun n => (n : Int)).filter fun n => FitsInt n := by
    rw [shape]
    unfold atoi
    dsimp only
    split
    · exact absurd (List.cons.inj ‹_›).1 notPlus
    · exact absurd (List.cons.inj ‹_›).1 notMinus
    · rfl
  rw [unsigned, digitsValueDecimal, if_pos ⟨decimalNonempty n, List.all_eq_true.mpr (decimalDigits n)⟩]
  have inside : FitsInt (n : Int) := ⟨by omega, by exact_mod_cast fits⟩
  simp [inside]

/-! ### The release of a kernel -/

theorem digitUncut {b : UInt8} (digit : isDigit b = true) : cuts b = false ∧ b ≠ 46 := by
  constructor
  · by_contra cut
    simp only [cuts, Bool.not_eq_false, Bool.or_eq_true, decide_eq_true_eq] at cut
    rcases cut with (rfl | rfl) | rfl <;> contradiction
  · rintro rfl
    contradiction

theorem digitsUncut (n : Nat) : ∀ b ∈ decimal n, cuts b = false ∧ b ≠ 46 := fun b inside =>
  digitUncut (decimalDigits n b inside)

/-- Up to the mark of the distribution a release is its two numbers, alone or with a dot and the rest. -/
theorem partsRelease {major minor : Nat} {kept : Bytes} (apart : ∀ b ∈ kept.head?, b = 46 ∨ cuts b = true) :
    ∃ v more patch, fieldsFunc cuts (decimal major ++ 46 :: decimal minor ++ kept) = v :: more ∧
      splitN 46 3 v = decimal major :: decimal minor :: patch := by
  have numbers : ∀ b ∈ decimal major ++ 46 :: decimal minor, cuts b = false := by
    intro b inside
    rcases List.mem_append.mp inside with first | second
    · exact (digitsUncut major b first).1
    · rcases List.mem_cons.mp second with rfl | later
      · decide
      · exact (digitsUncut minor b later).1
  have nonempty : ∀ v : Bytes, decimal major ++ 46 :: decimal minor ++ v ≠ [] := by simp
  have majorDots := fun b inside => (digitsUncut major b inside).2
  have minorDots := fun b inside => (digitsUncut minor b inside).2
  by_cases dotted : kept.head? = some 46
  · obtain ⟨rest, rfl⟩ := List.head?_eq_some_iff.mp dotted
    let v := rest.takeWhile fun b => !cuts b
    have uncut : ∀ b ∈ decimal major ++ 46 :: decimal minor ++ 46 :: v, cuts b = false := by
      intro b inside
      rcases List.mem_append.mp inside with first | second
      · exact numbers b first
      · rcases List.mem_cons.mp second with rfl | later
        · decide
        · simpa using List.all_eq_true.mp List.all_takeWhile b later
    have ends : ∀ b ∈ (rest.dropWhile fun b => !cuts b).head?, cuts b = true := by
      intro b first
      have stops := List.head?_dropWhile_not (fun b => !cuts b) rest
      rw [Option.mem_def.mp first] at stops
      simpa using stops
    obtain ⟨more, fields⟩ := fieldsFirst (nonempty (46 :: v)) uncut _ ends
    rw [List.append_assoc _ (46 :: v), List.cons_append, List.takeWhile_append_dropWhile] at fields
    refine ⟨_, more, [v], fields, ?_⟩
    rw [List.append_assoc, List.cons_append, splitFirst majorDots, splitFirst minorDots]
    rfl
  · have ends : ∀ b ∈ kept.head?, cuts b = true := fun b first =>
      (apart b first).resolve_left fun dot => dotted (dot ▸ first)
    obtain ⟨more, fields⟩ := fieldsFirst (by simp) numbers kept ends
    refine ⟨_, more, [], fields, ?_⟩
    rw [splitFirst majorDots, splitLast minorDots]

theorem parsesRelease (r : Release) :
    ∃ patch, parseKernelVersion (some r.text) = .ok ⟨r.major, r.minor, patch⟩ := by
  obtain ⟨d, ds, begins⟩ := List.exists_cons_of_ne_nil (decimalNonempty r.major)
  obtain ⟨front, e, finishes⟩ : ∃ front e, decimal r.minor = front ++ [e] :=
    ⟨_, _, (List.dropLast_append_getLast (decimalNonempty r.minor)).symm⟩
  have first : isDigit d = true := decimalDigits r.major d (by simp [begins])
  have last : isDigit e = true := decimalDigits r.minor e (by simp [finishes])
  obtain ⟨kept, shorter, trimmed⟩ := trimKept first last (decimal r.major ++ 46 :: front) r.tail (by simp [begins])
  have raw : trimSpace r.text = decimal r.major ++ 46 :: decimal r.minor ++ kept := by
    rw [finishes]
    refine Eq.trans ?_ (trimmed.trans ?_)
    · simp [Release.text, finishes]
    · simp
  have apart : ∀ b ∈ kept.head?, b = 46 ∨ cuts b = true := by
    intro b inside
    obtain ⟨rest, rfl⟩ := List.head?_eq_some_iff.mp inside
    obtain ⟨more, whole⟩ := shorter
    exact r.apart b (by simp [← whole])
  obtain ⟨v, more, patch, fields, split_⟩ := partsRelease apart
  refine ⟨(patch.head?.map nearestInt).getD 0, ?_⟩
  unfold parseKernelVersion
  dsimp only
  rw [raw, fields]
  dsimp only
  rw [split_]
  dsimp only
  rw [atoiDecimal r.majorFits]
  dsimp only
  rw [atoiDecimal r.minorFits]

/-! ### The variant -/

theorem atLeastIff (kv : KernelVersion) (major minor : Int) :
    kv.atLeast major minor = true ↔ major < kv.major ∨ major = kv.major ∧ minor ≤ kv.minor := by
  unfold KernelVersion.atLeast
  split
  · simp only [decide_eq_true_eq]
    omega
  · simp only [decide_eq_true_eq]
    omega

theorem runsIff {kv : KernelVersion} {v : Variant} {major minor : Nat} (since : v.since = some (major, minor)) :
    kv.Runs v ↔ kv.atLeast major minor = true := by
  rw [atLeastIff]
  constructor
  · rintro ⟨_, _, since', runs⟩
    cases since.symm.trans since'
    exact runs
  · exact fun runs => ⟨major, minor, since, runs⟩

/-- No variant is chosen for a newer kernel, and none that runs is passed over for an older one. -/
theorem variantNewest (kv : KernelVersion) :
    (compatVariant kv ≠ .tc → kv.Runs (compatVariant kv)) ∧
      ∀ other, kv.Runs other → other.rank ≤ (compatVariant kv).rank := by
  have full : kv.Runs .v60 ↔ kv.atLeast 6 0 = true := runsIff rfl
  have loops : kv.Runs .v517 ↔ kv.atLeast 5 17 = true := runsIff rfl
  have unrolled : kv.Runs .v515 ↔ kv.atLeast 5 15 = true := runsIff rfl
  have never : ¬ kv.Runs .tc := fun ⟨_, _, since, _⟩ => by cases since
  unfold compatVariant
  split
  · rename_i runs
    exact ⟨fun _ => full.mpr runs, fun other _ => by cases other <;> decide⟩
  · rename_i not60
    split
    · rename_i runs
      refine ⟨fun _ => loops.mpr runs, fun other taken => ?_⟩
      cases other with
      | v60 => exact absurd (full.mp taken) not60
      | _ => decide
    · rename_i not517
      split
      · rename_i runs
        refine ⟨fun _ => unrolled.mpr runs, fun other taken => ?_⟩
        cases other with
        | v60 => exact absurd (full.mp taken) not60
        | v517 => exact absurd (loops.mp taken) not517
        | _ => decide
      · rename_i not515
        refine ⟨fun same => absurd rfl same, fun other taken => ?_⟩
        cases other with
        | v60 => exact absurd (full.mp taken) not60
        | v517 => exact absurd (loops.mp taken) not517
        | v515 => exact absurd (unrolled.mp taken) not515
        | tc => exact absurd taken never

/-- On every kernel the daemon starts with the newest variant that runs there, or not at all where none does. -/
theorem startsNewest (r : Release) : ∃ patch,
    (∃ v, assertKernelVersion (some r.text) = (some v, none) ∧ KernelVersion.Runs ⟨r.major, r.minor, patch⟩ v ∧
      ∀ other, KernelVersion.Runs ⟨r.major, r.minor, patch⟩ other → other.rank ≤ v.rank) ∨
    assertKernelVersion (some r.text) = (some .tc, some (.belowMinimum ⟨r.major, r.minor, patch⟩)) ∧
      ∀ v, ¬ KernelVersion.Runs ⟨r.major, r.minor, patch⟩ v := by
  obtain ⟨patch, parsed⟩ := parsesRelease r
  obtain ⟨runs, newest⟩ := variantNewest ⟨r.major, r.minor, patch⟩
  refine ⟨patch, ?_⟩
  unfold assertKernelVersion
  rw [parsed]
  dsimp only
  by_cases fallback : compatVariant ⟨r.major, r.minor, patch⟩ = .tc
  · refine .inr ⟨by rw [if_pos fallback, fallback], fun v taken => ?_⟩
    have rank := newest v taken
    rw [fallback] at rank
    cases v with
    | tc => exact absurd taken fun ⟨_, _, since, _⟩ => by cases since
    | _ => exact absurd rank (by decide)
  · exact .inl ⟨_, by rw [if_neg fallback], runs fallback, newest⟩

def distributed : Release := ⟨6, 8, ascii ".0-45-generic", by decide, by decide, by decide +kernel⟩

theorem distributedStarts : distributed.text = ascii "6.8.0-45-generic\n" ∧
    assertKernelVersion (some distributed.text) = (some .v60, none) := by
  refine ⟨by decide +kernel, ?_⟩
  have later : (0 : Int) ≤ 8 := by decide
  have full : ∀ patch, KernelVersion.Runs ⟨6, 8, patch⟩ .v60 := fun _ => ⟨6, 0, rfl, .inr ⟨rfl, later⟩⟩
  obtain ⟨patch, ⟨v, started, _, newest⟩ | ⟨_, none_⟩⟩ := startsNewest distributed
  · have most := newest .v60 (full patch)
    cases v with
    | v60 => exact started
    | _ => exact absurd most (by decide)
  · exact absurd (full patch) (none_ .v60)

/-- A release candidate is of its series. -/
example : assertKernelVersion (some (ascii "6.0.0-rc7+\n")) = (some .v60, none) := by decide +kernel

end OmegaLb.KernelGate
