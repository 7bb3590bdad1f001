import OmegaLb.ModelStore
import Mathlib.Data.List.Sort

/-! What one Push does to registry.json. It reads the registry twice, and an error of either read
is dropped: the Push goes on as if nothing were registered, and its write replaces the file. -/
namespace OmegaLb.ModelStore
open GoText (Bytes ascii)
open Utf8 (coerce)
open FilePath (clean)

/-- The entries, as they are read back. -/
def Store.entries (s : Store) : List ModelVersion :=
  match s.registry with
  | some (.versions all) => all.map ModelVersion.stored
  | _ => []

def Store.registered (s : Store) : List Bytes := s.entries.map ModelVersion.version

def Unread (s : Store) (io : RegistryIO) : Prop :=
  io.read ≠ none ∨ ∃ cause, s.registry = some (.malformed cause)

/-- A Push that comes to write the model file. -/
structure Reaches (s : Store) (io : PushIO) (version srcPath : Bytes) : Prop where
  fresh : Unread s io.existing ∨ version ∉ s.registered
  mkdir : io.mkdir = none
  openSrc : io.copy.openSrc = none
  found : s.files (clean srcPath) ≠ none
  openDst : io.copy.openDst = none

/-- Neither the copy nor the write of the registry fails. -/
structure Commits (io : PushIO) : Prop where
  copy : io.copy.copy = none
  writeTmp : io.registry.writeTmp = none
  rename : io.registry.rename = none

/-! ### The reads of the registry -/

theorem storedIdem (mv : ModelVersion) : mv.stored.stored = mv.stored := by
  simp only [ModelVersion.stored, Utf8.coerceValid (Utf8.validCoerce _)]

theorem entriesStored {s : Store} {mv : ModelVersion} (inside : mv ∈ s.entries) : mv.stored = mv := by
  unfold Store.entries at inside
  split at inside
  · obtain ⟨written, _, rfl⟩ := List.mem_map.mp inside
    exact storedIdem written
  · contradiction

theorem registeredCoerced {s : Store} {name : Bytes} (inside : name ∈ s.registered) : coerce name = name := by
  obtain ⟨mv, entry, rfl⟩ := List.mem_map.mp inside
  exact congrArg ModelVersion.version (entriesStored entry)

theorem sortNil (sort : Sorter) : sort.run [] = [] := (sort.perm []).eq_nil

theorem listRead {s : Store} {io : RegistryIO} (read : ¬ Unread s io) :
    s.list io = .ok (io.sort.run s.entries) := by
  obtain ⟨works, wellFormed⟩ := not_or.mp read
  unfold Store.list Store.entries
  rw [not_not.mp works]
  cases held : s.registry with
  | none => exact congrArg _ (sortNil io.sort).symm
  | some registry =>
    cases registry with
    | malformed cause => exact absurd ⟨cause, held⟩ wellFormed
    | versions all => rfl

theorem listOrNilRead {s : Store} {io : RegistryIO} (read : ¬ Unread s io) :
    s.listOrNil io = io.sort.run s.entries := by
  rw [Store.listOrNil, listRead read]

theorem listUnread {s : Store} {io : RegistryIO} (unread : Unread s io) :
    ∃ err, s.list io = .error err := by
  unfold Store.list
  split
  · exact ⟨_, rfl⟩
  · rename_i works
    obtain ⟨cause, held⟩ := unread.resolve_left fun fails => fails works
    rw [held]
    exact ⟨_, rfl⟩

theorem listOrNilUnread {s : Store} {io : RegistryIO} (unread : Unread s io) : s.listOrNil io = [] := by
  obtain ⟨err, same⟩ := listUnread unread
  rw [Store.listOrNil, same]

theorem versionListed (s : Store) (io : RegistryIO) (version : Bytes) :
    (s.listOrNil io).any (·.version = version) = true ↔ ¬ Unread s io ∧ version ∈ s.registered := by
  by_cases unread : Unread s io
  · simp [listOrNilUnread unread, unread]
  · rw [listOrNilRead unread, (io.sort.perm s.entries).any_eq]
    simp [unread, Store.registered]

theorem upsertNames (mv : ModelVersion) (all : List ModelVersion) (name : Bytes) :
    name ∈ (upsert mv all).map ModelVersion.version ↔
      name = mv.version ∨ name ∈ all.map ModelVersion.version := by
  induction all with
  | nil => simp [upsert]
  | cons existing rest ih =>
    rw [upsert]
    split
    · rename_i same
      simp [same]
    · simp only [List.map_cons, List.mem_cons, ih]
      exact or_left_comm

/-! ### The calls of a Push -/

theorem writeHolds (s : Store) {io : RegistryIO} (tmp : io.writeTmp = none) (rename : io.rename = none)
    (versions : List ModelVersion) :
    s.writeRegistry io versions = ({ s with registry := some (.versions versions) }, none) := by
  rw [Store.writeRegistry, tmp, rename]

theorem writeFails (s : Store) {io : RegistryIO} (fails : ¬ (io.writeTmp = none ∧ io.rename = none))
    (versions : List ModelVersion) : ∃ err, s.writeRegistry io versions = (s, some err) := by
  unfold Store.writeRegistry
  split
  · exact ⟨_, rfl⟩
  · split
    · exact ⟨_, rfl⟩
    · exact absurd ⟨‹_›, ‹_›⟩ fails

theorem reachedUnlisted {s : Store} {io : PushIO} {version srcPath : Bytes}
    (reaches : Reaches s io version srcPath) :
    ¬ (s.listOrNil io.existing).any (·.version = version) = true := by
  rw [versionListed, not_and_or, not_not]
  exact reaches.fresh

section Digest
variable (sha256 : Bytes → Bytes)

theorem pushStops {s : Store} {io : PushIO} {version srcPath : Bytes} (stage : Bytes)
    (stops : ¬ Reaches s io version srcPath) :
    ∃ err, s.push sha256 io version stage srcPath = (s, .error err) := by
  unfold Store.push
  split
  · exact ⟨_, rfl⟩
  · rename_i unlisted
    rw [versionListed, not_and_or, not_not] at unlisted
    split
    · exact ⟨_, rfl⟩
    · rename_i mkdir
      unfold Store.copyAndChecksum Store.source
      cases openSrc : io.copy.openSrc with
      | some cause => exact ⟨_, rfl⟩
      | none =>
        cases found : s.files (clean srcPath) with
        | none => exact ⟨_, rfl⟩
        | some content =>
          cases openDst : io.copy.openDst with
          | some cause => exact ⟨_, rfl⟩
          | none => exact absurd ⟨unlisted, mkdir, openSrc, by simp [found], openDst⟩ stops

def entryOf (s : Store) (io : PushIO) (version stage content : Bytes) : ModelVersion where
  version := version
  path := s.destPath version
  stage := stage
  checksum := checksumOf sha256 content
  createdAt := io.now

section Reached
variable {s : Store} {io : PushIO} {version srcPath content : Bytes} (stage : Bytes)
  (reaches : Reaches s io version srcPath) (found : s.source srcPath (s.destPath version) = some content)
include reaches found

theorem copyReached : s.copyAndChecksum sha256 io.copy srcPath (s.destPath version) =
    (s.writeFile (s.destPath version) (io.copy.written content),
      match io.copy.copy with
      | some (_, cause) => .error (.copy srcPath (s.destPath version) cause)
      | none => .ok (checksumOf sha256 content)) := by
  unfold Store.copyAndChecksum
  rw [reaches.openSrc, found, reaches.openDst]
  dsimp only
  cases io.copy.copy <;> rfl

theorem pushFails (fails : ¬ Commits io) : ∃ err, s.push sha256 io version stage srcPath =
    (s.writeFile (s.destPath version) (io.copy.written content), .error err) := by
  unfold Store.push
  rw [if_neg (reachedUnlisted reaches), reaches.mkdir]
  dsimp only
  rw [copyReached sha256 reaches found]
  cases copy : io.copy.copy with
  | some cut => exact ⟨_, rfl⟩
  | none =>
    have unwritten : ¬ (io.registry.writeTmp = none ∧ io.registry.rename = none) :=
      fun writes => fails ⟨copy, writes.1, writes.2⟩
    dsimp only
    unfold Store.upsertRegistry
    let t := s.writeFile (s.destPath version) (io.copy.written content)
    obtain ⟨err, same⟩ := writeFails t unwritten
      (upsert (entryOf sha256 s io version stage content) (t.listOrNil io.registry))
    exact ⟨err, by rw [← entryOf, same]⟩

theorem pushDone (commits : Commits io) : s.push sha256 io version stage srcPath =
    ({ s.writeFile (s.destPath version) content with
        registry := some (.versions
          (upsert (entryOf sha256 s io version stage content) (s.listOrNil io.registry))) },
      .ok (entryOf sha256 s io version stage content)) := by
  have whole : io.copy.written content = content := by rw [ CopyIO.written, commits.copy]
  unfold Store.push
  rw [if_neg (reachedUnlisted reaches), reaches.mkdir]
  dsimp only
  rw [copyReached sha256 reaches found, commits.copy, whole]
  dsimp only
  rw [Store.upsertRegistry, writeHolds _ commits.writeTmp commits.rename]
  rfl

end Reached

/-! ### What is asked of a Push -/

/-- The registry cannot be read or parsed: at the first read, or at the second where it is made. -/
def Unreadable (s : Store) (io : PushIO) (version srcPath : Bytes) : Prop :=
  Unread s io.existing ∨
    Reaches s io version srcPath ∧ io.copy.copy = none ∧ Unread s io.registry

structure Remembers (s : Store) (io : PushIO) (version stage srcPath : Bytes) : Prop where
  kept : ∀ name ∈ s.registered, name ∈ (s.push sha256 io version stage srcPath).1.registered
  refused : Unreadable s io version srcPath →
    ∃ err, s.push sha256 io version stage srcPath = (s, .error err)

/-- Nothing hinders the reads, or nothing comes of a Push they hinder: it fails behind them, and
the bytes it copied by then are those that were there. -/
def Careful (s : Store) (io : PushIO) (version srcPath : Bytes) : Prop :=
  Reaches s io version srcPath →
    ¬ Unread s io.existing ∧ (io.copy.copy = none → ¬ Unread s io.registry) ∨
    ¬ Commits io ∧ (s.source srcPath (s.destPath version)).map io.copy.written =
      s.files (clean (s.destPath version))

theorem reachesSource {s : Store} {io : PushIO} {version srcPath : Bytes}
    (reaches : Reaches s io version srcPath) :
    ∃ content, s.source srcPath (s.destPath version) = some content := by
  obtain ⟨content, found⟩ := Option.ne_none_iff_exists'.mp reaches.found
  exact ⟨_, by rw [Store.source, found, Option.map_some]⟩

theorem writeAt (s : Store) (path content : Bytes) :
    (s.writeFile path content).files (clean path) = some content :=
  Function.update_self ..

theorem writeSame (s : Store) (path content : Bytes) :
    s.writeFile path content = s ↔ some content = s.files (clean path) := by
  constructor
  · intro same
    have files := congrFun (congrArg Store.files same) (clean path)
    exact (writeAt s path content).symm.trans files
  · intro same
    rw [Store.writeFile, same, Function.update_eq_self]

theorem pushKeeps {s : Store} {io : PushIO} {version stage srcPath : Bytes}
    (read : Reaches s io version srcPath → Commits io → ¬ Unread s io.registry)
    {name : Bytes} (known : name ∈ s.registered) :
    name ∈ (s.push sha256 io version stage srcPath).1.registered := by
  by_cases reaches : Reaches s io version srcPath
  · obtain ⟨content, found⟩ := reachesSource reaches
    by_cases commits : Commits io
    · rw [pushDone sha256 _ reaches found commits, listOrNilRead (read reaches commits)]
      have listed : name ∈ (io.registry.sort.run s.entries).map ModelVersion.version :=
        ((io.registry.sort.perm s.entries).map _).mem_iff.mpr known
      have upserted := (upsertNames (entryOf sha256 s io version stage content) _ name).mpr (.inr listed)
      obtain ⟨mv, inside, rfl⟩ := List.mem_map.mp upserted
      rw [Store.registered, Store.entries, List.map_map]
      exact List.mem_map.mpr ⟨mv, inside, registeredCoerced known⟩
    · obtain ⟨err, same⟩ := pushFails sha256 stage reaches found commits
      rw [same]
      exact known
  · obtain ⟨err, same⟩ := pushStops sha256 stage reaches
    rw [same]
    exact known

theorem remembersExact (s : Store) (io : PushIO) (version stage srcPath : Bytes) :
    Remembers sha256 s io version stage srcPath ↔ Careful s io version srcPath := by
  constructor
  · rintro ⟨_, refused⟩ reaches
    obtain ⟨content, found⟩ := reachesSource reaches
    by_cases unreadable : Unreadable s io version srcPath
    · right
      obtain ⟨err, same⟩ := refused unreadable
      by_cases commits : Commits io
      · rw [pushDone sha256 _ reaches found commits] at same
        exact nomatch congrArg Prod.snd same
      · obtain ⟨err', after⟩ := pushFails sha256 stage reaches found commits
        have unchanged := congrArg Prod.fst (after.symm.trans same)
        rw [found]
        exact ⟨commits, (writeSame s _ _).mp unchanged⟩
    · obtain ⟨first, second⟩ := not_or.mp unreadable
      exact .inl ⟨first, fun whole unread => second ⟨reaches, whole, unread⟩⟩
  · intro careful
    refine ⟨fun name known => pushKeeps sha256 (fun reaches commits => ?_) known, fun unreadable => ?_⟩
    · rcases careful reaches with ⟨_, second⟩ | ⟨fails, _⟩
      · exact second commits.copy
      · exact absurd commits fails
    · by_cases reaches : Reaches s io version srcPath
      · obtain ⟨content, found⟩ := reachesSource reaches
        rcases careful reaches with ⟨first, second⟩ | ⟨fails, same⟩
        · rcases unreadable with unread | ⟨_, whole, unread⟩
          · exact absurd unread first
          · exact absurd unread (second whole)
        · obtain ⟨err, after⟩ := pushFails sha256 stage reaches found fails
          rw [found] at same
          exact ⟨err, after.trans (by rw [(writeSame s _ _).mpr same])⟩
      · exact pushStops sha256 stage reaches

end Digest

/-! ### A registry that could not be read -/

def byInsertion : Sorter where
  run := List.insertionSort fun a b => b.createdAt ≤ a.createdAt
  perm := List.perm_insertionSort _
  newestFirst := List.pairwise_insertionSort _

def denied : RegistryIO := { read := some (ascii "permission denied"), sort := byInsertion }

def firstModel : ModelVersion where
  version := ascii "v1"
  path := ascii "/models/v1/model.onnx"
  stage := ascii "production"
  checksum := []
  createdAt := 0

def oneModel : Store where
  basePath := ascii "/models"
  registry := some (.versions [firstModel])
  files path := if path = ascii "/tmp/next" then some [1] else none

def deniedPush : PushIO := { existing := denied, registry := denied, now := 1 }

/-- `v2` is pushed while registry.json, which holds `v1`, cannot be read. -/
theorem unreadForgotten : ¬ ∃ sha256 : Bytes → Bytes, ∀ (s : Store) (io : PushIO)
    (version stage srcPath : Bytes), Remembers sha256 s io version stage srcPath := by
  rintro ⟨sha256, remembers⟩
  obtain ⟨kept, _⟩ := remembers oneModel deniedPush (ascii "v2") (ascii "shadow") (ascii "/tmp/next")
  have known : ascii "v1" ∈ oneModel.registered := by decide +kernel
  have reaches : Reaches oneModel deniedPush (ascii "v2") (ascii "/tmp/next") :=
    ⟨.inl (.inl (Option.some_ne_none _)), rfl, rfl, by decide +kernel, rfl⟩
  obtain ⟨content, found⟩ := reachesSource reaches
  have lost := kept (ascii "v1") known
  rw [pushDone sha256 _ reaches found ⟨rfl, rfl, rfl⟩] at lost
  have only : ascii "v1" = coerce (ascii "v2") := List.mem_singleton.mp lost
  exact absurd only (by decide +kernel)

end OmegaLb.ModelStore
