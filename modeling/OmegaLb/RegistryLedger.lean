import OmegaLb.StoreFrame

/-! Latest, and registry.json over runs of Push and Promote: the file stands for the list of what was
committed, newest call in front. -/
namespace OmegaLb.RegistryLedger
open GoText (Bytes ascii)
open ModelStore (Store ModelVersion Registry RegistryIO PushIO StoreError Unread Intact Reaches Commits)
open StepRun (Run Guarded Answers)
open Utf8 (coerce)

inductive LatestError where
  | list (cause : StoreError)
  | noVersions
  deriving DecidableEq

def LatestError.text : LatestError → Bytes
  | .list cause => cause.text
  | .noVersions => ascii "model store: no versions available"

def latest (s : Store) (io : RegistryIO) : Except LatestError ModelVersion :=
  match s.list io with
  | .error cause => .error (.list cause)
  | .ok [] => .error .noVersions
  | .ok (newest :: _) => .ok newest

inductive Order where
  | push (io : PushIO) (version stage srcPath : Bytes)
  | promote (io : RegistryIO) (version newStage : Bytes)

inductive Answer where
  | pushed (mv : ModelVersion)
  | promoted
  | failed (err : StoreError)

def perform (sha256 : Bytes → Bytes) (s : Store) : Order → Store × Answer
  | .push io version stage srcPath =>
    match s.push sha256 io version stage srcPath with
    | (t, .ok mv) => (t, .pushed mv)
    | (t, .error err) => (t, .failed err)
  | .promote io version newStage =>
    match s.promote io version newStage with
    | (t, none) => (t, .promoted)
    | (t, some err) => (t, .failed err)

/-- A Push of a name in UTF-8 whose reads of the registry do not fail. -/
def Sound (s : Store) (e : Order × Answer) : Prop :=
  match e.1 with
  | .push io version _ _ => coerce version = version ∧ ¬ Unread s io.existing ∧ ¬ Unread s io.registry
  | .promote _ _ _ => True

def malformed : Option Registry → Bool
  | some (.malformed _) => true
  | _ => false

theorem unreadParts {s : Store} {io : RegistryIO} :
    (io.read ≠ none ∨ malformed s.registry = true) ↔ Unread s io := by
  refine or_congr_right ?_
  rcases s.registry with _ | _ | _ <;> simp [malformed]

instance (s io) : Decidable (Unread s io) := decidable_of_iff _ unreadParts

instance (s e) : Decidable (Sound s e) := by
  unfold Sound
  cases e.1 <;> infer_instance

/-! ### The ledger -/

def restage (version newStage : Bytes) (mv : ModelVersion) : ModelVersion :=
  if mv.version = version then { mv with stage := newStage } else mv

def note (ledger : List ModelVersion) : Order × Answer → List ModelVersion
  | (_, .pushed mv) => mv.stored :: ledger
  | (.promote _ version newStage, .promoted) => ledger.map (restage version (coerce newStage))
  | _ => ledger

def ledgerOf (start : List ModelVersion) (es : List (Order × Answer)) : List ModelVersion := es.foldl note start

/-- The file says what the ledger says, and names every version once. -/
structure Mirrors (ledger : List ModelVersion) (s : Store) : Prop where
  entries : s.entries.Perm ledger
  distinct : (ledger.map ModelVersion.version).Nodup

/-- What the calls that read give where the file is read. -/
structure Reads (sha256 : Bytes → Bytes) (ledger : List ModelVersion) (s : Store) : Prop where
  list : ∀ io, ¬ Unread s io → ∃ all, s.list io = .ok all ∧ all.Perm ledger ∧
    all.Pairwise fun a b => b.createdAt ≤ a.createdAt
  empty : ∀ io, ¬ Unread s io → (latest s io = .error .noVersions ↔ ledger = [])
  newest : ∀ io, ¬ Unread s io → ledger ≠ [] → ∃ mv ∈ ledger, latest s io = .ok mv ∧
    ∀ other ∈ ledger, other.createdAt ≤ mv.createdAt
  last : ∀ io, ¬ Unread s io → ∀ mv rest, ledger = mv :: rest →
    (∀ other ∈ rest, other.createdAt < mv.createdAt) → latest s io = .ok mv
  pull : ∀ sort version mv, s.pull sha256 { sort } none version = .ok (.ok mv) ↔
    mv ∈ ledger ∧ mv.version = version ∧ Intact sha256 s mv

theorem restageVersion (version newStage : Bytes) (mv : ModelVersion) :
    (restage version newStage mv).version = mv.version := by
  unfold restage
  split <;> rfl

theorem restageStored (version newStage : Bytes) {mv : ModelVersion} (stored : mv.stored = mv) :
    (restage version newStage mv).stored = restage version (coerce newStage) mv := by
  unfold restage
  split
  · exact congrArg (fun e : ModelVersion => { e with stage := coerce newStage }) stored
  · exact stored

theorem setStageMap (version newStage : Bytes) {all : List ModelVersion}
    (distinct : (all.map ModelVersion.version).Nodup) :
    ModelStore.setStage version newStage all = all.map (restage version newStage) := by
  induction all with
  | nil => rfl
  | cons mv rest ih =>
    obtain ⟨apart, later⟩ := List.nodup_cons.mp distinct
    rw [ModelStore.setStage, List.map_cons, restage]
    split
    · -- setStage stops here, and no entry behind this one has the name
      rename_i same
      have others : rest.map (restage version newStage) = rest := by
        refine (List.map_congr_left fun e inside => ?_).trans (List.map_id _)
        refine if_neg fun named => apart ?_
        rw [same, ← named]
        exact List.mem_map_of_mem inside
      rw [others]
    · rw [ih later]

/-! ### One call -/

theorem entriesWritten (s : Store) (all : List ModelVersion) :
    ({ s with registry := some (.versions all) } : Store).entries = all.map ModelVersion.stored := rfl

theorem listStored {all entries : List ModelVersion} (listed : all.Perm entries)
    (stored : ∀ mv ∈ entries, mv.stored = mv) : all.map ModelVersion.stored = all :=
  (List.map_congr_left fun mv inside => stored mv (listed.mem_iff.mp inside)).trans (List.map_id _)

theorem mirrorsNames {ledger : List ModelVersion} {s : Store} (mirrors : Mirrors ledger s) (name : Bytes) :
    name ∈ s.registered ↔ name ∈ ledger.map ModelVersion.version :=
  (mirrors.entries.map ModelVersion.version).mem_iff

theorem mirrorsSame {ledger : List ModelVersion} {s t : Store} (mirrors : Mirrors ledger s)
    (same : t.registry = s.registry) : Mirrors ledger t := by
  refine ⟨?_, mirrors.distinct⟩
  rw [Store.entries, same]
  exact mirrors.entries

section Digest
variable (sha256 : Bytes → Bytes)

theorem pushMirrors {ledger : List ModelVersion} {s t : Store} {answer : Answer} (mirrors : Mirrors ledger s)
    {io : PushIO} {version stage srcPath : Bytes} (utf8 : coerce version = version)
    (first : ¬ Unread s io.existing) (second : ¬ Unread s io.registry)
    (done : perform sha256 s (.push io version stage srcPath) = (t, answer)) :
    Mirrors (note ledger (.push io version stage srcPath, answer)) t := by
  unfold perform at done
  dsimp only at done
  by_cases reaches : Reaches s io version srcPath
  · obtain ⟨content, found⟩ := ModelStore.reachesSource reaches
    by_cases commits : Commits io
    · rw [ModelStore.pushDone sha256 stage reaches found commits, ModelStore.listOrNilRead second] at done
      cases done
      have fresh : version ∉ s.registered := reaches.fresh.resolve_left first
      have listed := io.registry.sort.perm s.entries
      have unlisted : (ModelStore.entryOf sha256 s io version stage content).version ∉
          (io.registry.sort.run s.entries).map ModelVersion.version := fun inside =>
        fresh ((listed.map ModelVersion.version).mem_iff.mp inside)
      refine ⟨?_, ?_⟩
      · rw [entriesWritten, ModelStore.upsertFresh unlisted, List.map_append,
          listStored listed fun _ inside => ModelStore.entriesStored inside, List.map_singleton]
        exact List.perm_append_singleton _ _ |>.trans ((listed.trans mirrors.entries).cons _)
      · refine List.nodup_cons.mpr ⟨?_, mirrors.distinct⟩
        have named : (ModelStore.entryOf sha256 s io version stage content).stored.version = version := utf8
        rw [named, ← mirrorsNames mirrors]
        exact fresh
    · obtain ⟨err, same⟩ := ModelStore.pushFails sha256 stage reaches found commits
      rw [same] at done
      cases done
      exact mirrorsSame mirrors rfl
  · obtain ⟨err, same⟩ := ModelStore.pushStops sha256 stage reaches
    rw [same] at done
    cases done
    exact mirrors

theorem promoteMirrors {ledger : List ModelVersion} {s t : Store} {answer : Answer} (mirrors : Mirrors ledger s)
    {io : RegistryIO} {version newStage : Bytes}
    (done : perform sha256 s (.promote io version newStage) = (t, answer)) :
    Mirrors (note ledger (.promote io version newStage, answer)) t := by
  unfold perform Store.promote at done
  dsimp only at done
  by_cases unread : Unread s io
  · obtain ⟨err, same⟩ := ModelStore.listUnread unread
    rw [same] at done
    cases done
    exact mirrors
  · rw [ModelStore.listRead unread] at done
    dsimp only at done
    have listed := io.sort.perm s.entries
    by_cases known : (io.sort.run s.entries).any (·.version = version) = true
    · rw [if_pos known] at done
      by_cases writes : io.writeTmp = none ∧ io.rename = none
      · rw [ModelStore.writeHolds s writes.1 writes.2] at done
        cases done
        have distinct : ((io.sort.run s.entries).map ModelVersion.version).Nodup :=
          ((listed.trans mirrors.entries).map ModelVersion.version).nodup_iff.mpr mirrors.distinct
        refine ⟨?_, ?_⟩
        · have restaged : (io.sort.run s.entries).map (ModelVersion.stored ∘ restage version newStage) =
              (io.sort.run s.entries).map (restage version (coerce newStage)) :=
            List.map_congr_left fun mv inside =>
              restageStored version newStage (ModelStore.entriesStored (listed.mem_iff.mp inside))
          rw [entriesWritten, setStageMap version newStage distinct, List.map_map, restaged]
          exact (listed.trans mirrors.entries).map _
        · have same : ModelVersion.version ∘ restage version (coerce newStage) = ModelVersion.version :=
            funext fun mv => restageVersion version (coerce newStage) mv
          unfold note
          rw [List.map_map, same]
          exact mirrors.distinct
      · obtain ⟨err, same⟩ :=
          ModelStore.writeFails s writes (ModelStore.setStage version newStage (io.sort.run s.entries))
        rw [same] at done
        cases done
        exact mirrors
    · rw [if_neg known] at done
      cases done
      exact mirrors

theorem performMirrors {ledger : List ModelVersion} {s t : Store} {e : Order × Answer} (mirrors : Mirrors ledger s)
    (sound : Sound s e) (answers : Answers (perform sha256) s e t) : Mirrors (note ledger e) t := by
  obtain ⟨order, answer⟩ := e
  cases order with
  | push io version stage srcPath => exact pushMirrors sha256 mirrors sound.1 sound.2.1 sound.2.2 answers
  | promote io version newStage => exact promoteMirrors sha256 mirrors answers

/-! ### What is read -/

theorem sortedLedger {ledger : List ModelVersion} {s : Store} (mirrors : Mirrors ledger s) (sort : ModelStore.Sorter) :
    (sort.run s.entries).Perm ledger := (sort.perm s.entries).trans mirrors.entries

theorem latestHead {s : Store} {io : RegistryIO} (read : ¬ Unread s io) {mv : ModelVersion} {rest : List ModelVersion}
    (run : io.sort.run s.entries = mv :: rest) : latest s io = .ok mv := by
  rw [latest, ModelStore.listRead read, run]

theorem headInside {ledger : List ModelVersion} {s : Store} (mirrors : Mirrors ledger s) {sort : ModelStore.Sorter}
    {mv : ModelVersion} {rest : List ModelVersion} (run : sort.run s.entries = mv :: rest) : mv ∈ ledger :=
  (sortedLedger mirrors sort).mem_iff.mp (run ▸ List.mem_cons_self)

theorem headLargest {ledger : List ModelVersion} {s : Store} (mirrors : Mirrors ledger s) {sort : ModelStore.Sorter}
    {mv : ModelVersion} {rest : List ModelVersion} (run : sort.run s.entries = mv :: rest) :
    ∀ other ∈ ledger, other.createdAt ≤ mv.createdAt := by
  intro other inside
  have order := sort.newestFirst s.entries
  have there := (sortedLedger mirrors sort).mem_iff.mpr inside
  rw [run] at order there
  rcases List.mem_cons.mp there with rfl | later
  · exact Int.le_refl _
  · exact List.rel_of_pairwise_cons order later

theorem pullLedger {ledger : List ModelVersion} {s : Store} (mirrors : Mirrors ledger s) (sort : ModelStore.Sorter)
    (version : Bytes) (mv : ModelVersion) : s.pull sha256 { sort } none version = .ok (.ok mv) ↔
      mv ∈ ledger ∧ mv.version = version ∧ Intact sha256 s mv := by
  rw [ModelStore.pullExact, ← and_assoc]
  refine and_congr_left' ?_
  constructor
  · intro found
    have newest := ModelStore.findNewest found
    exact ⟨mirrors.entries.mem_iff.mp newest.entry, newest.named⟩
  · -- Pull finds some entry of the name, and the ledger has no other
    rintro ⟨inside, named⟩
    obtain ⟨other, found⟩ := ModelStore.findsNamed sort ⟨mv, mirrors.entries.mem_iff.mpr inside, named⟩
    have newest := ModelStore.findNewest found
    have same := List.inj_on_of_nodup_map mirrors.distinct (mirrors.entries.mem_iff.mp newest.entry) inside
      (newest.named.trans named.symm)
    rw [found, same]

theorem mirrorsReads {ledger : List ModelVersion} {s : Store} (mirrors : Mirrors ledger s) :
    Reads sha256 ledger s := by
  have listed : ∀ io : RegistryIO, (io.sort.run s.entries).Perm ledger := fun io => sortedLedger mirrors io.sort
  refine ⟨?_, ?_, ?_, ?_, pullLedger sha256 mirrors⟩
  · intro io read
    exact ⟨_, ModelStore.listRead read, listed io, io.sort.newestFirst _⟩
  · intro io read
    rw [latest, ModelStore.listRead read]
    cases run : io.sort.run s.entries with
    | nil => exact iff_of_true rfl (List.nil_perm.mp (run ▸ listed io))
    | cons mv rest =>
      refine iff_of_false (by simp) fun nothing => ?_
      have empty := (run ▸ nothing ▸ listed io : (mv :: rest).Perm [])
      exact absurd empty.eq_nil (List.cons_ne_nil _ _)
  · intro io read some_
    cases run : io.sort.run s.entries with
    | nil => exact absurd (List.nil_perm.mp (run ▸ listed io)) some_
    | cons mv rest => exact ⟨mv, headInside mirrors run, latestHead read run, headLargest mirrors run⟩
  · intro io read mv rest same before
    cases run : io.sort.run s.entries with
    | nil =>
      have nothing := List.nil_perm.mp (run ▸ listed io)
      rw [same] at nothing
      contradiction
    | cons first others =>
      have inside := headInside mirrors run
      rw [same] at inside
      rcases List.mem_cons.mp inside with rfl | earlier
      · exact latestHead read run
      · have newer := headLargest mirrors run mv (same ▸ List.mem_cons_self)
        exact absurd (before first earlier) (by omega)

/-- The registry is the ledger of the calls that returned without an error, whatever failed in between. -/
theorem registryExact {s t : Store} {es : List (Order × Answer)} (distinct : s.registered.Nodup)
    (run : Run (Guarded Sound (Answers (perform sha256))) s es t) :
    Mirrors (ledgerOf s.entries es) t ∧ Reads sha256 (ledgerOf s.entries es) t := by
  have mirrors : ∀ {ledger u v fs}, Mirrors ledger u → Run (Guarded Sound (Answers (perform sha256))) u fs v →
      Mirrors (ledgerOf ledger fs) v := by
    intro ledger u v fs mirrors run
    induction run generalizing ledger with
    | nil => exact mirrors
    | cons head _ ih => exact ih (performMirrors sha256 mirrors head.1 head.2)
  have held := mirrors ⟨.refl _, distinct⟩ run
  exact ⟨held, mirrorsReads sha256 held⟩

end Digest

/-! #### Two models, the second promoted and pushed again -/

def digest (content : Bytes) : Bytes := content.take 1

def orders : List Order :=
  [.push (ModelStore.pushAt 1) (ascii "v1") (ascii "shadow") (ascii "/a"),
    .push (ModelStore.pushAt 2) (ascii "v2") (ascii "shadow") (ascii "/b"),
    .promote { sort := ModelStore.byInsertion } (ascii "v2") (ascii "production"),
    .push (ModelStore.pushAt 3) (ascii "v2") (ascii "canary") (ascii "/a")]

def done : List (Order × Answer) × Store := StepRun.perform (perform digest) ModelStore.twoModels orders

theorem registryExactTwo : (ledgerOf ModelStore.twoModels.entries done.1).map (fun mv => (mv.version, mv.stage)) =
      [(ascii "v2", ascii "production"), (ascii "v1", ascii "shadow")] ∧
    Mirrors (ledgerOf ModelStore.twoModels.entries done.1) done.2 ∧
    Reads digest (ledgerOf ModelStore.twoModels.entries done.1) done.2 := by
  have allowed : StepRun.Allowed Sound (perform digest) ModelStore.twoModels orders := by decide +kernel
  exact ⟨by decide +kernel, registryExact digest List.nodup_nil (StepRun.performRun allowed)⟩

end OmegaLb.RegistryLedger
