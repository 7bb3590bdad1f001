import OmegaLb.StepRun
import OmegaLb.StoreRegistry
import Mathlib.Data.List.TakeWhile

/-! What a Push leaves of the versions pushed before it. The registry tells versions apart by
their strings, the disk by the path that Clean makes of them. -/
namespace OmegaLb.ModelStore
open GoText (Bytes ascii)
open Utf8 (coerce)
open FilePath (clean separator)
open StepRun (Run Guarded Does)

/-! ### The entry that Pull finds -/

/-- No entry of that name is newer. Entries of one time may be sorted either way. -/
structure Newest (all : List ModelVersion) (name : Bytes) (mv : ModelVersion) : Prop where
  entry : mv ∈ all
  named : mv.version = name
  latest : ∀ e ∈ all, e.version = name → e.createdAt ≤ mv.createdAt

theorem findNewest {sort : Sorter} {all : List ModelVersion} {name : Bytes} {mv : ModelVersion}
    (found : (sort.run all).find? (·.version = name) = some mv) : Newest all name mv := by
  obtain ⟨named, before, behind, split, skipped⟩ := List.find?_eq_some_iff_append.mp found
  have entry := (sort.perm all).mem_iff.mp (List.mem_of_find?_eq_some found)
  refine ⟨entry, of_decide_eq_true named, fun e inside same => ?_⟩
  have order := sort.newestFirst all
  have listed := (sort.perm all).mem_iff.mpr inside
  rw [split] at order listed
  rcases List.mem_append.mp listed with first | later
  · have other := skipped e first
    simp [same] at other
  · rcases List.mem_cons.mp later with rfl | rest
    · exact Int.le_refl _
    · exact (List.pairwise_cons.mp (List.pairwise_append.mp order).2.1).1 e rest

/-- Among those of its time `mv` is put first. -/
def putFirst (mv : ModelVersion) : Sorter where
  run all := byInsertion.run (if mv ∈ all then mv :: all.erase mv else all)
  perm all := by
    refine (byInsertion.perm _).trans ?_
    split
    · exact (List.perm_cons_erase ‹_›).symm
    · exact .refl _
  newestFirst all := byInsertion.newestFirst _

theorem newestFound {all : List ModelVersion} {name : Bytes} {mv : ModelVersion}
    (newest : Newest all name mv) :
    ((putFirst mv).run all).find? (·.version = name) = some mv := by
  have inserted : (putFirst mv).run all = List.orderedInsert (fun a b => b.createdAt ≤ a.createdAt) mv
      (byInsertion.run (all.erase mv)) := by
    rw [putFirst]
    dsimp only
    rw [if_pos newest.entry]
    rfl
  rw [inserted, List.orderedInsert_eq_take_drop, List.find?_eq_some_iff_append]
  refine ⟨decide_eq_true newest.named, _, _, rfl, fun e inside => ?_⟩
  have newer := List.mem_takeWhile_imp inside
  have listed := (byInsertion.perm _).mem_iff.mp (List.takeWhile_subset _ inside)
  have entry := List.mem_of_mem_erase listed
  by_cases named : e.version = name
  · exact absurd (newest.latest e entry named) (by simpa using newer)
  · simp [named]

theorem findsNamed (sort : Sorter) {all : List ModelVersion} {name : Bytes}
    (known : ∃ mv ∈ all, mv.version = name) :
    ∃ mv, (sort.run all).find? (·.version = name) = some mv := by
  obtain ⟨mv, entry, named⟩ := known
  have listed := (sort.perm all).mem_iff.mpr entry
  exact Option.isSome_iff_exists.mp (List.find?_isSome.mpr ⟨mv, listed, decide_eq_true named⟩)

theorem newestGrown {all after : List ModelVersion} {mv : ModelVersion}
    (grown : ∀ e, e ∈ after ↔ e ∈ all ∨ e = mv) (name : Bytes) (e : ModelVersion) :
    Newest after name e ↔
      Newest all name e ∧ (mv.version = name → mv.createdAt ≤ e.createdAt) ∨
      e = mv ∧ mv.version = name ∧ ∀ old ∈ all, old.version = name → old.createdAt ≤ mv.createdAt := by
  constructor
  · rintro ⟨entry, named, latest⟩
    rcases (grown e).mp entry with old | rfl
    · exact .inl ⟨⟨old, named, fun x inside => latest x ((grown x).mpr (.inl inside))⟩,
        latest mv ((grown mv).mpr (.inr rfl))⟩
    · exact .inr ⟨rfl, named, fun x inside => latest x ((grown x).mpr (.inl inside))⟩
  · rintro (⟨⟨entry, named, latest⟩, since⟩ | ⟨rfl, named, latest⟩)
    · refine ⟨(grown e).mpr (.inl entry), named, fun x inside same => ?_⟩
      rcases (grown x).mp inside with old | rfl
      · exact latest x old same
      · exact since same
    · refine ⟨(grown e).mpr (.inr rfl), named, fun x inside same => ?_⟩
      rcases (grown x).mp inside with old | rfl
      · exact latest x old same
      · exact Int.le_refl _

section Digest
variable (sha256 : Bytes → Bytes)

/-- The file has the checksum of the entry. -/
def Intact (s : Store) (mv : ModelVersion) : Prop :=
  (s.files (clean mv.path)).map (checksumOf sha256) = some mv.checksum

omit sha256 in
theorem mismatchFails (stored got version : Bytes) (mv : ModelVersion) :
    (do
      let stored ← goSlice stored 0 8
      let got ← goSlice got 0 8
      return .error (.mismatch version stored got) : Go (Except StoreError ModelVersion)) ≠ .ok (.ok mv) := by
  intro taken
  cases first : goSlice stored 0 8 with
  | error p => simp [first, bind, Except.bind] at taken
  | ok a =>
    cases second : goSlice got 0 8 with
    | error p => simp [first, second, bind, Except.bind] at taken
    | ok b => simp [first, second, bind, Except.bind, pure, Except.pure] at taken

theorem pullExact (s : Store) (sort : Sorter) (version : Bytes) (mv : ModelVersion) :
    s.pull sha256 { sort } none version = .ok (.ok mv) ↔
      (sort.run s.entries).find? (·.version = version) = some mv ∧ Intact sha256 s mv := by
  unfold Store.pull
  by_cases unread : Unread s { sort }
  · obtain ⟨err, same⟩ := listUnread unread
    obtain ⟨cause, held⟩ := unread.resolve_left (by simp)
    have nothing : s.entries = [] := by rw [Store.entries, held]
    rw [same, nothing, sortNil]
    simp
  · rw [listRead unread]
    dsimp only
    cases found : (sort.run s.entries).find? (·.version = version) with
    | none => simp
    | some e =>
      unfold Store.checksumFile Intact
      dsimp only
      cases content : s.files (clean e.path) with
      | none =>
        refine iff_of_false (fun taken => by cases taken) ?_
        rintro ⟨same, intact⟩
        cases same
        rw [content] at intact
        contradiction
      | some bytes =>
        dsimp only
        split
        · rename_i differs
          refine iff_of_false (mismatchFails _ _ version mv) ?_
          rintro ⟨same, intact⟩
          cases same
          rw [content] at intact
          exact differs (Option.some.inj intact)
        · rename_i agrees
          constructor
          · intro taken
            cases taken
            exact ⟨rfl, by rw [content]; exact congrArg _ (not_not.mp agrees)⟩
          · rintro ⟨same, _⟩
            cases same
            rfl

/-! ### What is asked of a Push -/

inductive Call where
  | push (io : PushIO) (version stage srcPath : Bytes)
  | promote (io : RegistryIO) (version newStage : Bytes)

/-- The calls that succeed. -/
def Store.exec (s : Store) : Call → Option Store
  | .push io version stage srcPath =>
    match s.push sha256 io version stage srcPath with
    | (t, .ok _) => some t
    | (_, .error _) => none
  | .promote io version newStage =>
    match s.promote io version newStage with
    | (t, none) => some t
    | (_, some _) => none

def Pulls (s : Store) (version : Bytes) (mv : ModelVersion) : Prop :=
  ∃ sort, s.pull sha256 { sort } none version = .ok (.ok mv)

structure SameModel (s : Store) (mv : ModelVersion) (t : Store) (next : ModelVersion) : Prop where
  path : next.path = mv.path
  checksum : next.checksum = mv.checksum
  content : t.files (clean next.path) = s.files (clean mv.path)

def Framed (s : Store) (c : Call) (t : Store) : Prop :=
  match c with
  | .promote .. => True
  | .push _ version _ _ => version ∉ s.registered →
    ∀ other mv, other ≠ version → Pulls sha256 s other mv →
      ∀ sort, ∃ next, t.pull sha256 { sort } none other = .ok (.ok next) ∧ SameModel s mv t next

/-! ### When it is met -/

/-- For a version that Pull takes `mv` for. A name that is no UTF-8 is read back as another. -/
structure Spared (s : Store) (io : PushIO) (version srcPath other : Bytes) (mv : ModelVersion) : Prop where
  file : clean mv.path = clean (s.destPath version) →
    s.source srcPath (s.destPath version) = s.files (clean mv.path)
  read : ¬ Unread s io.registry ∨ coerce version = other
  old : ¬ Unread s io.registry → ∀ e, Newest s.entries other e →
    (coerce version = other → io.now ≤ e.createdAt) → e.path = mv.path ∧ e.checksum = mv.checksum
  new : coerce version = other →
    (¬ Unread s io.registry → ∀ e ∈ s.entries, e.version = other → e.createdAt ≤ io.now) →
    coerce (s.destPath version) = mv.path ∧
      (s.source srcPath (s.destPath version)).map (checksumOf sha256) = some mv.checksum

def Spares (s : Store) : Call → Prop
  | .promote .. => True
  | .push io version _ srcPath => version ∉ s.registered →
    ∀ other mv, other ≠ version → Newest s.entries other mv → Intact sha256 s mv →
      Spared sha256 s io version srcPath other mv

theorem pullsNewest (s : Store) (version : Bytes) (mv : ModelVersion) :
    Pulls sha256 s version mv ↔ Newest s.entries version mv ∧ Intact sha256 s mv := by
  constructor
  · rintro ⟨sort, taken⟩
    obtain ⟨found, intact⟩ := (pullExact sha256 s sort version mv).mp taken
    exact ⟨findNewest found, intact⟩
  · rintro ⟨newest, intact⟩
    exact ⟨putFirst mv, (pullExact sha256 s _ version mv).mpr ⟨newestFound newest, intact⟩⟩

/-- Whatever the order of the entries, Pull takes one of these. -/
theorem pullsEach (s : Store) (version : Bytes) (good : ModelVersion → Prop) :
    (∀ sort, ∃ mv, s.pull sha256 { sort } none version = .ok (.ok mv) ∧ good mv) ↔
      (∃ mv ∈ s.entries, mv.version = version) ∧
        ∀ mv, Newest s.entries version mv → Intact sha256 s mv ∧ good mv := by
  constructor
  · intro each
    constructor
    · obtain ⟨mv, taken, _⟩ := each byInsertion
      obtain ⟨newest, _⟩ := (pullsNewest sha256 s version mv).mp ⟨_, taken⟩
      exact ⟨mv, newest.entry, newest.named⟩
    · intro mv newest
      obtain ⟨found, taken, holds⟩ := each (putFirst mv)
      obtain ⟨same, intact⟩ := (pullExact sha256 s _ version found).mp taken
      cases Option.some.inj ((newestFound newest).symm.trans same)
      exact ⟨intact, holds⟩
  · rintro ⟨known, all⟩ sort
    obtain ⟨mv, found⟩ := findsNamed sort known
    obtain ⟨intact, holds⟩ := all mv (findNewest found)
    exact ⟨mv, (pullExact sha256 s sort version mv).mpr ⟨found, intact⟩, holds⟩

/-! ### One Push -/

omit sha256 in
theorem upsertFresh {mv : ModelVersion} {all : List ModelVersion}
    (fresh : mv.version ∉ all.map ModelVersion.version) : upsert mv all = all ++ [mv] := by
  induction all with
  | nil => rfl
  | cons e rest ih =>
    obtain ⟨other, later⟩ := not_or.mp (mt List.mem_cons.mpr fresh)
    rw [upsert, if_neg (Ne.symm other), ih later, List.cons_append]

omit sha256 in
theorem memListed (s : Store) (io : RegistryIO) (mv : ModelVersion) :
    mv ∈ s.listOrNil io ↔ ¬ Unread s io ∧ mv ∈ s.entries := by
  by_cases unread : Unread s io
  · simp [listOrNilUnread unread, unread]
  · rw [listOrNilRead unread, (io.sort.perm s.entries).mem_iff]
    simp [unread]

omit sha256 in
theorem newestListed (s : Store) (io : RegistryIO) (name : Bytes) (mv : ModelVersion) :
    Newest (s.listOrNil io) name mv ↔ ¬ Unread s io ∧ Newest s.entries name mv := by
  constructor
  · rintro ⟨entry, named, latest⟩
    obtain ⟨read, old⟩ := (memListed s io mv).mp entry
    exact ⟨read, old, named, fun e inside => latest e ((memListed s io e).mpr ⟨read, inside⟩)⟩
  · rintro ⟨read, entry, named, latest⟩
    exact ⟨(memListed s io mv).mpr ⟨read, entry⟩, named,
      fun e inside => latest e ((memListed s io e).mp inside).2⟩

/-- What a Push that succeeds did. -/
structure Pushed (s : Store) (io : PushIO) (version stage srcPath content : Bytes) (t : Store) : Prop where
  found : s.source srcPath (s.destPath version) = some content
  written : t.files (clean (s.destPath version)) = some content
  elsewhere : ∀ path, path ≠ clean (s.destPath version) → t.files path = s.files path
  registry : t.registry = some (.versions
    (upsert (entryOf sha256 s io version stage content) (s.listOrNil io.registry)))

theorem execPushed {s t : Store} {io : PushIO} {version stage srcPath : Bytes}
    (done : s.exec sha256 (.push io version stage srcPath) = some t) :
    ∃ content, Pushed sha256 s io version stage srcPath content t := by
  unfold Store.exec at done
  dsimp only at done
  by_cases reaches : Reaches s io version srcPath
  · obtain ⟨content, found⟩ := reachesSource reaches
    by_cases commits : Commits io
    · rw [pushDone sha256 _ reaches found commits] at done
      cases Option.some.inj done
      exact ⟨content, found, writeAt s _ content, fun path apart => Function.update_of_ne apart _ _, rfl⟩
    · obtain ⟨err, same⟩ := pushFails sha256 stage reaches found commits
      rw [same] at done
      contradiction
  · obtain ⟨err, same⟩ := pushStops sha256 stage reaches
    rw [same] at done
    contradiction

theorem pushedEntries {s t : Store} {io : PushIO} {version stage srcPath content : Bytes}
    (pushed : Pushed sha256 s io version stage srcPath content t) (fresh : version ∉ s.registered)
    (e : ModelVersion) :
    e ∈ t.entries ↔ e ∈ s.listOrNil io.registry ∨ e = (entryOf sha256 s io version stage content).stored := by
  have unlisted : (entryOf sha256 s io version stage content).version ∉
      (s.listOrNil io.registry).map ModelVersion.version := by
    intro inside
    obtain ⟨mv, listed, same⟩ := List.mem_map.mp inside
    exact fresh (List.mem_map.mpr ⟨mv, ((memListed s _ mv).mp listed).2, same⟩)
  have kept : (s.listOrNil io.registry).map ModelVersion.stored = s.listOrNil io.registry := by
    refine (List.map_congr_left fun mv listed => ?_).trans (List.map_id _)
    exact entriesStored ((memListed s _ mv).mp listed).2
  rw [Store.entries, pushed.registry]
  dsimp only
  rw [upsertFresh unlisted, List.map_append, kept, List.mem_append, List.map_singleton, List.mem_singleton]

omit sha256 in
theorem hexAscii {n : Nat} (digit : n < 16) : Json.hexDigit n < 0x80 := by
  revert digit
  revert n
  decide

theorem checksumCoerced (content : Bytes) : coerce (checksumOf sha256 content) = checksumOf sha256 content := by
  refine Utf8.coerceValid (Utf8.validAscii (List.all_eq_true.mpr fun b inside => ?_))
  obtain ⟨byte, _, hex⟩ := List.mem_flatMap.mp inside
  have high : byte.toNat / 16 < 16 := by have := byte.toNat_lt; omega
  have low : byte.toNat % 16 < 16 := Nat.mod_lt _ (by omega)
  rcases List.mem_cons.mp hex with rfl | last
  · exact decide_eq_true (hexAscii high)
  · rw [List.mem_singleton.mp last]
    exact decide_eq_true (hexAscii low)

section Exact
variable {s t : Store} {io : PushIO} {version stage srcPath content : Bytes}
  (pushed : Pushed sha256 s io version stage srcPath content t) (fresh : version ∉ s.registered)
  {other : Bytes} {mv : ModelVersion}
include pushed fresh

theorem keptSpared (kept : ∀ sort, ∃ next,
      t.pull sha256 { sort } none other = .ok (.ok next) ∧ SameModel s mv t next) :
    Spared sha256 s io version srcPath other mv := by
  have entries := pushedEntries sha256 pushed fresh
  have after := newestGrown entries other
  obtain ⟨known, all⟩ := (pullsEach sha256 t other (SameModel s mv t)).mp kept
  constructor
  case file =>
    intro same
    obtain ⟨first, found⟩ := findsNamed byInsertion known
    obtain ⟨path, _, file⟩ := (all first (findNewest found)).2
    rw [path, same, pushed.written] at file
    rw [pushed.found, same, file]
  case read =>
    obtain ⟨e, entry, named⟩ := known
    rcases (entries e).mp entry with listed | rfl
    · exact .inl ((memListed s _ e).mp listed).1
    · exact .inr named
  case old =>
    intro read e held since
    have listed := (newestListed s io.registry other e).mpr ⟨read, held⟩
    obtain ⟨path, checksum, _⟩ := (all e ((after e).mpr (.inl ⟨listed, since⟩))).2
    exact ⟨path, checksum⟩
  case new =>
    intro same latest
    have newer : ∀ e ∈ s.listOrNil io.registry, e.version = other → e.createdAt ≤ io.now := by
      intro e listed
      obtain ⟨read, entry⟩ := (memListed s _ e).mp listed
      exact latest read e entry
    obtain ⟨path, checksum, _⟩ := (all _ ((after _).mpr (.inr ⟨rfl, same, newer⟩))).2
    rw [pushed.found]
    exact ⟨path, congrArg some ((checksumCoerced sha256 content).symm.trans checksum)⟩

theorem sparedKept (newest : Newest s.entries other mv) (intact : Intact sha256 s mv)
    (spared : Spared sha256 s io version srcPath other mv) (sort : Sorter) :
    ∃ next, t.pull sha256 { sort } none other = .ok (.ok next) ∧ SameModel s mv t next := by
  have entries := pushedEntries sha256 pushed fresh
  have after := newestGrown entries other
  refine (pullsEach sha256 t other (SameModel s mv t)).mpr ⟨?_, fun e held => ?_⟩ sort
  · rcases spared.read with works | same
    · exact ⟨mv, (entries mv).mpr (.inl ((memListed s _ mv).mpr ⟨works, newest.entry⟩)), newest.named⟩
    · exact ⟨_, (entries _).mpr (.inr rfl), same⟩
  · have same : e.path = mv.path ∧ e.checksum = mv.checksum := by
      rcases (after e).mp held with ⟨listed, since⟩ | ⟨rfl, same, newer⟩
      · obtain ⟨works, known⟩ := (newestListed s _ other e).mp listed
        exact spared.old works e known since
      · have latest := spared.new same fun works o entry => newer o ((memListed s _ o).mpr ⟨works, entry⟩)
        rw [pushed.found] at latest
        exact ⟨latest.1, (checksumCoerced sha256 content).trans (Option.some.inj latest.2)⟩
    have content : t.files (clean e.path) = s.files (clean mv.path) := by
      rw [same.1]
      by_cases shared : clean mv.path = clean (s.destPath version)
      · rw [← spared.file shared, pushed.found, shared, pushed.written]
      · exact pushed.elsewhere _ shared
    refine ⟨?_, same.1, same.2, content⟩
    rw [Intact, content, same.2]
    exact intact

end Exact

theorem framedExact {s t : Store} {c : Call} (done : s.exec sha256 c = some t) :
    Framed sha256 s c t ↔ Spares sha256 s c := by
  cases c with
  | promote io version newStage => exact Iff.rfl
  | push io version stage srcPath =>
    obtain ⟨content, pushed⟩ := execPushed sha256 done
    refine forall_congr' fun fresh => forall₂_congr fun other mv => imp_congr_right fun apart => ?_
    rw [pullsNewest, and_imp]
    exact forall₂_congr fun newest intact =>
      ⟨keptSpared sha256 pushed fresh, sparedKept sha256 pushed fresh newest intact⟩

/-! ### Runs -/

theorem framesExact (basePath : Bytes) (files : Bytes → Option Bytes) (es : List Call) (t : Store) :
    Run (fun s c t => Does (Store.exec sha256) s c t ∧ Framed sha256 s c t)
        (newLocalModelStore basePath files) es t ↔
      Run (Guarded (Spares sha256) (Does (Store.exec sha256))) (newLocalModelStore basePath files) es t := by
  have each : ∀ s c t, True → Does (Store.exec sha256) s c t → (Framed sha256 s c t ↔ Spares sha256 s c) :=
    fun _ _ _ _ done => framedExact sha256 done
  exact StepRun.eachGuarded (fun _ _ _ _ _ => trivial) each trivial

/-! ### Two names of one file -/

omit sha256 in
theorem destTrailing (s : Store) {version : Bytes} (some_ : version ≠ []) :
    s.destPath (version ++ [separator]) = s.destPath version :=
  congrArg (FilePath.join · _) (FilePath.joinTrailing s.basePath some_)

def Frames : Prop :=
  ∀ basePath files es s c t, Run (Does (Store.exec sha256)) (newLocalModelStore basePath files) es s →
    s.exec sha256 c = some t → Framed sha256 s c t

end Digest

def twoModels : Store :=
  newLocalModelStore (ascii "/models") fun path =>
    if path = ascii "/a" then some [1] else if path = ascii "/b" then some [2] else none

def pushAt (now : Int) : PushIO where
  existing := { sort := byInsertion }
  registry := { sort := byInsertion }
  now := now

def firstFile : Bytes := twoModels.destPath (ascii "v1")

def firstPushed (sha256 : Bytes → Bytes) : Store :=
  { twoModels.writeFile firstFile [1] with
    registry := some (.versions [entryOf sha256 twoModels (pushAt 1) (ascii "v1") (ascii "shadow") [1]]) }

def secondVersion : Bytes := ascii "v1" ++ [separator]

section Digest
variable (sha256 : Bytes → Bytes)

theorem firstPushes : twoModels.exec sha256 (.push (pushAt 1) (ascii "v1") (ascii "shadow") (ascii "/a")) =
    some (firstPushed sha256) := by
  have reaches : Reaches twoModels (pushAt 1) (ascii "v1") (ascii "/a") :=
    ⟨.inr List.not_mem_nil, rfl, rfl, by decide +kernel, rfl⟩
  have found : twoModels.source (ascii "/a") firstFile = some [1] := by decide +kernel
  rw [Store.exec, pushDone sha256 _ reaches found ⟨rfl, rfl, rfl⟩]
  rfl

theorem secondFile : (firstPushed sha256).destPath secondVersion = firstFile := destTrailing _ (by decide)

theorem secondFresh : secondVersion ∉ (firstPushed sha256).registered := by
  have other : secondVersion ∉ [coerce (ascii "v1")] := by decide +kernel
  exact other

theorem secondSource : (firstPushed sha256).source (ascii "/b") firstFile = some [2] := by
  have read : (twoModels.writeFile firstFile [1]).source (ascii "/b") firstFile = some [2] := by
    decide +kernel
  exact read

theorem secondPushes : ∃ t, (firstPushed sha256).exec sha256
    (.push (pushAt 2) secondVersion (ascii "shadow") (ascii "/b")) = some t := by
  have found := secondSource sha256
  have reaches : Reaches (firstPushed sha256) (pushAt 2) secondVersion (ascii "/b") := by
    refine ⟨.inr (secondFresh sha256), rfl, rfl, fun missing => ?_, rfl⟩
    rw [Store.source, missing] at found
    contradiction
  rw [← secondFile sha256] at found
  rw [Store.exec, pushDone sha256 _ reaches found ⟨rfl, rfl, rfl⟩]
  exact ⟨_, rfl⟩

theorem firstNewest : ∃ mv, Newest (firstPushed sha256).entries (ascii "v1") mv ∧
    Intact sha256 (firstPushed sha256) mv ∧ clean mv.path = clean firstFile := by
  have name : coerce (ascii "v1") = ascii "v1" := by decide +kernel
  have path : clean (coerce firstFile) = clean firstFile := by decide +kernel
  refine ⟨(entryOf sha256 twoModels (pushAt 1) (ascii "v1") (ascii "shadow") [1]).stored,
    ⟨List.mem_singleton_self _, name, fun e inside _ => ?_⟩, ?_, path⟩
  · rw [List.mem_singleton.mp inside]
  · have held : (firstPushed sha256).files (clean firstFile) = some [1] := writeAt twoModels firstFile [1]
    have checksum := checksumCoerced sha256 [1]
    exact (congrArg _ ((congrArg _ path).trans held)).trans (congrArg some checksum.symm)

end Digest

/-- `v1/` is another version than `v1`, in the same directory. -/
theorem trailingOverwritten : ¬ ∃ sha256, Frames sha256 := by
  rintro ⟨sha256, frames⟩
  obtain ⟨t, done⟩ := secondPushes sha256
  have framed := frames _ _ _ _ _ t (.cons (firstPushes sha256) (.nil _)) done
  obtain ⟨mv, newest, intact, path⟩ := firstNewest sha256
  have spared := (framedExact sha256 done).mp framed (secondFresh sha256) (ascii "v1") mv (by decide)
    newest intact
  have kept := spared.file (path.trans (congrArg clean (secondFile sha256).symm))
  have held : (firstPushed sha256).files (clean firstFile) = some [1] := writeAt twoModels firstFile [1]
  rw [secondFile, secondSource, path, held] at kept
  exact absurd kept (by decide)

end OmegaLb.ModelStore
