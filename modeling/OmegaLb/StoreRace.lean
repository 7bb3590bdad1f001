import OmegaLb.StepRun
import OmegaLb.StoreRegistry

/-! Calls of Push and Promote on one store directory, each taking its steps on the file system
between those of the others. All of them write registry.json.tmp before they rename it. -/
namespace OmegaLb.StoreRace
open ModelStore
open GoText (Bytes ascii)
open Utf8 (coerce)
open FilePath (join)
open StepRun (Run Guarded Does)

inductive Call where
  | push (version stage srcPath : Bytes)
  | promote (version newStage : Bytes)
  deriving DecidableEq, Repr

def Call.version : Call → Bytes
  | .push version _ _ => version
  | .promote version _ => version

def Call.stage : Call → Bytes
  | .push _ stage _ => stage
  | .promote _ newStage => newStage

/-- Where a call stands: `next` is what it makes of the entries `all` that it has read. -/
inductive Phase where
  | began
  | checked
  | copied (mv : ModelVersion)
  | read (all next : List ModelVersion)
  | wrote (all next : List ModelVersion)
  | returned (err : Option StoreError)
  deriving DecidableEq, Repr

structure Running where
  call : Call
  phase : Phase
  deriving DecidableEq, Repr

/-- What the file system does to one step. A write that fails may leave something behind. -/
structure StepIO where
  registry : RegistryIO := { sort := byInsertion }
  mkdir : Option Bytes := none
  copy : CopyIO := {}
  now : Int := 0
  left : Option Registry := none

/-- `stages` lists what the calls that returned success have set, the last one first. -/
structure Race where
  store : Store
  tmp : Option Registry
  calls : List Running
  stages : List (Bytes × Bytes)

section Digest
variable (sha256 : Bytes → Bytes)

def Race.begin (w : Race) (io : StepIO) : Call → Race × Phase
  | .push version _ _ =>
    if (w.store.listOrNil io.registry).any (·.version = version) then
      (w, .returned (some (.alreadyExists version)))
    else
      match io.mkdir with
      | some cause => (w, .returned (some (.mkdir (join w.store.basePath version) cause)))
      | none => (w, .checked)
  | .promote version newStage =>
    match w.store.list io.registry with
    | .error err => (w, .returned (some err))
    | .ok all =>
      if all.any (·.version = version) then (w, .read all (setStage version newStage all))
      else (w, .returned (some (.notFound version)))

def Race.copyModel (w : Race) (io : StepIO) (version stage srcPath : Bytes) : Race × Phase :=
  let path := w.store.destPath version
  match w.store.copyAndChecksum sha256 io.copy srcPath path with
  | (s, .error cause) => ({ w with store := s }, .returned (some (.push cause)))
  | (s, .ok checksum) =>
    ({ w with store := s }, .copied { version, path, stage, checksum, createdAt := io.now })

def Race.writeTmp (w : Race) (io : StepIO) (all next : List ModelVersion) : Race × Phase :=
  match io.registry.writeTmp with
  | some cause => ({ w with tmp := io.left }, .returned (some (.writeTmp cause)))
  | none => ({ w with tmp := some (.versions next) }, .wrote all next)

def Race.rename (w : Race) (io : StepIO) (call : Call) : Race × Phase :=
  match io.registry.rename, w.tmp with
  | some cause, _ => (w, .returned (some (.rename cause)))
  | none, none => (w, .returned (some (.rename noSuchFile)))
  | none, some content =>
    ({ w with
        store := { w.store with registry := some content }
        tmp := none
        stages := (coerce call.version, coerce call.stage) :: w.stages },
      .returned none)

def Race.advance (w : Race) (io : StepIO) (call : Call) : Phase → Option (Race × Phase)
  | .began => some (w.begin io call)
  | .checked =>
    match call with
    | .push version stage srcPath => some (w.copyModel sha256 io version stage srcPath)
    | .promote _ _ => none
  | .copied mv =>
    let all := w.store.listOrNil io.registry
    some (w, .read all (upsert mv all))
  | .read all next => some (w.writeTmp io all next)
  | .wrote _ _ => some (w.rename io call)
  | .returned _ => none

def Race.step (w : Race) (e : Nat × StepIO) : Option Race := do
  let r ← w.calls[e.1]?
  let (w, phase) ← w.advance sha256 e.2 r.call r.phase
  return { w with calls := w.calls.set e.1 { r with phase := phase } }

/-- A call takes its next step, with no other in between. -/
def Race.onward (call : Call) (at_ : Race × Phase) (io : StepIO) : Race × Phase :=
  (at_.1.advance sha256 io call at_.2).getD at_

end Digest

def race (store : Store) (tmp : Option Registry) (calls : List Call) : Race :=
  ⟨store, tmp, calls.map (⟨·, .began⟩), []⟩

/-- Every call that returned success has its version in the registry, in the stage that the last
such call for the version has set. -/
def Kept (w : Race) : Prop :=
  ∀ r ∈ w.calls, r.phase = .returned none →
    ∃ e ∈ w.store.entries, e.version = coerce r.call.version ∧ w.stages.lookup e.version = some e.stage

deriving instance DecidableEq for Registry

/-- A rename takes the call's own content into place, and since the call read the registry no
other version has been added or promoted. -/
def Running.Undisturbed (w : Race) (io : StepIO) (r : Running) : Prop :=
  match r.phase with
  | .wrote all next => io.registry.rename = none → ∀ content ∈ w.tmp, content = .versions next ∧
      ∀ entry ∈ w.store.entries, entry ∈ all ∨ entry.version = coerce r.call.version
  | _ => True

instance (w : Race) (io : StepIO) : ∀ r : Running, Decidable (r.Undisturbed w io)
  | ⟨_, .wrote _ _⟩ => inferInstanceAs (Decidable (_ → _))
  | ⟨_, .began⟩ | ⟨_, .checked⟩ | ⟨_, .copied _⟩ | ⟨_, .read _ _⟩ | ⟨_, .returned _⟩ => .isTrue trivial

def Undisturbed (w : Race) (e : Nat × StepIO) : Prop := ∀ r ∈ w.calls[e.1]?, r.Undisturbed w e.2

instance (w : Race) (e : Nat × StepIO) : Decidable (Undisturbed w e) :=
  inferInstanceAs (Decidable (∀ r ∈ w.calls[e.1]?, _))

/-! ### One call on its own -/

section Alone
variable (sha256 : Bytes → Bytes)

def Ends (out : Race × Phase) (store : Store) (err : Option StoreError) : Prop :=
  out.1.store = store ∧ out.2 = .returned err

theorem returnedAlone (call : Call) (w : Race) (err : Option StoreError) (ios : List StepIO) :
    Ends (ios.foldl (Race.onward sha256 call) (w, .returned err)) w.store err := by
  induction ios with
  | nil => exact ⟨rfl, rfl⟩
  | cons io ios ih => exact ih

theorem readAlone (call : Call) (w : Race) (io : StepIO) (all next : List ModelVersion) :
    Ends ([io, io].foldl (Race.onward sha256 call) (w, .read all next))
      (w.store.writeRegistry io.registry next).1 (w.store.writeRegistry io.registry next).2 := by
  simp only [List.foldl_cons, List.foldl_nil, Race.onward, Race.advance, Option.getD_some]
  rw [Race.writeTmp, Store.writeRegistry]
  cases io.registry.writeTmp with
  | some cause => exact ⟨rfl, rfl⟩
  | none =>
    cases renamed : io.registry.rename with
    | some cause => simp [Ends, Race.rename, renamed]
    | none => simp [Ends, Race.rename, renamed]

theorem promoteAlone (w : Race) (io : StepIO) (version newStage : Bytes) :
    Ends ([io, io, io].foldl (Race.onward sha256 (.promote version newStage)) (w, .began))
      (w.store.promote io.registry version newStage).1 (w.store.promote io.registry version newStage).2 := by
  rw [List.foldl_cons, Race.onward, Store.promote]
  simp only [Race.advance, Race.begin, Option.getD_some]
  cases w.store.list io.registry with
  | error err => exact returnedAlone sha256 _ w (some err) _
  | ok all =>
    by_cases listed : all.any (·.version = version)
    · simp only [if_pos listed]
      exact readAlone sha256 _ w io all _
    · simp only [if_neg listed]
      exact returnedAlone sha256 _ w _ _

def pushSteps (io : PushIO) (left : Option Registry) : List StepIO :=
  let last : StepIO := { registry := io.registry, left }
  [{ registry := io.existing, mkdir := io.mkdir }, { registry := io.existing, copy := io.copy, now := io.now },
    last, last, last]

def failure {α : Type} : Except StoreError α → Option StoreError
  | .error err => some err
  | .ok _ => none

theorem pushAlone (w : Race) (io : PushIO) (left : Option Registry) (version stage srcPath : Bytes) :
    Ends ((pushSteps io left).foldl (Race.onward sha256 (.push version stage srcPath)) (w, .began))
      (w.store.push sha256 io version stage srcPath).1
      (failure (w.store.push sha256 io version stage srcPath).2) := by
  rw [pushSteps, List.foldl_cons, Race.onward, Store.push]
  simp only [Race.advance, Race.begin, Option.getD_some]
  by_cases listed : (w.store.listOrNil io.existing).any (·.version = version)
  · simp only [if_pos listed]
    exact returnedAlone sha256 _ w _ _
  · simp only [if_neg listed]
    cases io.mkdir with
    | some cause => exact returnedAlone sha256 _ w _ _
    | none =>
      rw [List.foldl_cons, Race.onward]
      simp only [Race.advance, Race.copyModel, Option.getD_some]
      cases w.store.copyAndChecksum sha256 io.copy srcPath (w.store.destPath version) with
      | mk s result =>
        cases result with
        | error cause => exact returnedAlone sha256 _ { w with store := s } _ _
        | ok checksum =>
          rw [List.foldl_cons, Race.onward]
          simp only [Race.advance, Option.getD_some, Store.upsertRegistry]
          generalize upsert _ (s.listOrNil io.registry) = next
          have written := readAlone sha256 (.push version stage srcPath) { w with store := s }
            { registry := io.registry, left } (s.listOrNil io.registry) next
          dsimp only at written
          generalize s.writeRegistry io.registry next = out at written ⊢
          obtain ⟨t, err⟩ := out
          cases err with
          | some err => exact written
          | none => exact written

end Alone

/-! ### What one call makes of the entries -/

structure Makes (call : Call) (all next : List ModelVersion) : Prop where
  keeps : ∀ e ∈ all, e.version ≠ coerce call.version → e ∈ next ∧ e.stored = e
  sets : ∃ mv ∈ next, coerce mv.version = coerce call.version ∧ coerce mv.stage = coerce call.stage

def Prepared (call : Call) : Phase → Prop
  | .copied mv => mv.version = call.version ∧ mv.stage = call.stage
  | .read all next => Makes call all next
  | .wrote all next => Makes call all next
  | _ => True

theorem upsertSets (mv : ModelVersion) (all : List ModelVersion) : mv ∈ upsert mv all := by
  induction all with
  | nil => exact List.mem_singleton_self mv
  | cons existing rest ih =>
    rw [upsert]
    split
    · exact List.mem_cons_self
    · exact List.mem_cons_of_mem _ ih

theorem upsertKeeps {mv : ModelVersion} {all : List ModelVersion} {e : ModelVersion} (inside : e ∈ all)
    (other : e.version ≠ mv.version) : e ∈ upsert mv all := by
  induction all with
  | nil => contradiction
  | cons existing rest ih =>
    rw [upsert]
    rcases List.mem_cons.mp inside with rfl | later
    · rw [if_neg other]
      exact List.mem_cons_self
    · split
      · exact List.mem_cons_of_mem _ later
      · exact List.mem_cons_of_mem _ (ih later)

theorem setStageSets {version : Bytes} (newStage : Bytes) {all : List ModelVersion}
    (known : all.any (·.version = version) = true) :
    ∃ mv ∈ all, mv.version = version ∧ { mv with stage := newStage } ∈ setStage version newStage all := by
  induction all with
  | nil => contradiction
  | cons mv rest ih =>
    rw [setStage]
    split
    · exact ⟨mv, List.mem_cons_self, ‹_›, List.mem_cons_self⟩
    · rename_i other
      rw [List.any_cons, decide_eq_false other, Bool.false_or] at known
      obtain ⟨found, inside, named, set⟩ := ih known
      exact ⟨found, List.mem_cons_of_mem _ inside, named, List.mem_cons_of_mem _ set⟩

theorem setStageKeeps {version newStage : Bytes} {all : List ModelVersion} {e : ModelVersion}
    (inside : e ∈ all) (other : e.version ≠ version) : e ∈ setStage version newStage all := by
  induction all with
  | nil => contradiction
  | cons mv rest ih =>
    rw [setStage]
    rcases List.mem_cons.mp inside with rfl | later
    · rw [if_neg other]
      exact List.mem_cons_self
    · split
      · exact List.mem_cons_of_mem _ later
      · exact List.mem_cons_of_mem _ (ih later)

theorem listStored {s : Store} {io : RegistryIO} {all : List ModelVersion} (listed : s.list io = .ok all) :
    ∀ e ∈ all, e.stored = e := by
  intro e inside
  by_cases unread : Unread s io
  · obtain ⟨err, fails⟩ := listUnread unread
    cases fails.symm.trans listed
  · cases (listRead unread).symm.trans listed
    exact entriesStored ((io.sort.perm s.entries).mem_iff.mp inside)

theorem listOrNilStored (s : Store) (io : RegistryIO) : ∀ e ∈ s.listOrNil io, e.stored = e := by
  unfold Store.listOrNil
  split
  · exact fun e inside => absurd inside List.not_mem_nil
  · exact listStored ‹_›

/-- An entry that was read, and so has been coerced, is not the one of a raw name that differs. -/
theorem namedApart {e : ModelVersion} (stored : e.stored = e) {version : Bytes}
    (apart : e.version ≠ coerce version) : e.version ≠ version := by
  intro same
  have coerced : coerce e.version = e.version := congrArg ModelVersion.version stored
  exact apart (by rw [← same, coerced])

theorem upsertMakes {call : Call} {mv : ModelVersion} (version : mv.version = call.version)
    (stage : mv.stage = call.stage) {all : List ModelVersion} (stored : ∀ e ∈ all, e.stored = e) :
    Makes call all (upsert mv all) := by
  refine ⟨fun e inside apart => ⟨upsertKeeps inside ?_, stored e inside⟩,
    mv, upsertSets mv all, by rw [version], by rw [stage]⟩
  rw [version]
  exact namedApart (stored e inside) apart

theorem promoteMakes {version newStage : Bytes} {all : List ModelVersion}
    (known : all.any (·.version = version) = true) (stored : ∀ e ∈ all, e.stored = e) :
    Makes (.promote version newStage) all (setStage version newStage all) := by
  obtain ⟨mv, _, named, set⟩ := setStageSets newStage known
  exact ⟨fun e inside apart => ⟨setStageKeeps inside (namedApart (stored e inside) apart), stored e inside⟩,
    _, set, congrArg coerce named, rfl⟩

/-! ### One step -/

section Digest
variable {sha256 : Bytes → Bytes}

structure Silent (w : Race) (call : Call) (t : Race) (phase : Phase) : Prop where
  entries : t.store.entries = w.store.entries
  stages : t.stages = w.stages
  calls : t.calls = w.calls
  unfinished : phase ≠ .returned none
  prepared : Prepared call phase

theorem beginSilent {w t : Race} {io : StepIO} {call : Call} {phase : Phase}
    (begun : w.begin io call = (t, phase)) : Silent w call t phase := by
  cases call with
  | push version stage srcPath =>
    rw [Race.begin] at begun
    split at begun
    · cases begun
      exact ⟨rfl, rfl, rfl, nofun, trivial⟩
    · split at begun <;> cases begun <;> exact ⟨rfl, rfl, rfl, nofun, trivial⟩
  | promote version newStage =>
    rw [Race.begin] at begun
    split at begun
    · cases begun
      exact ⟨rfl, rfl, rfl, nofun, trivial⟩
    · rename_i all listed
      split at begun <;> cases begun
      · exact ⟨rfl, rfl, rfl, nofun, promoteMakes ‹_› (listStored listed)⟩
      · exact ⟨rfl, rfl, rfl, nofun, trivial⟩

theorem entriesSame {s t : Store} (same : s.registry = t.registry) : s.entries = t.entries := by
  rw [Store.entries, Store.entries, same]

variable (sha256) in
theorem copyRegistry (s : Store) (io : CopyIO) (src dst : Bytes) :
    (s.copyAndChecksum sha256 io src dst).1.registry = s.registry := by
  unfold Store.copyAndChecksum
  repeat' split
  all_goals rfl

theorem copySilent {w t : Race} {io : StepIO} {version stage srcPath : Bytes} {phase : Phase}
    (done : w.copyModel sha256 io version stage srcPath = (t, phase)) :
    Silent w (.push version stage srcPath) t phase := by
  have registry := copyRegistry sha256 w.store io.copy srcPath (w.store.destPath version)
  unfold Race.copyModel at done
  dsimp only at done
  split at done <;> rename_i copied <;> cases done <;> rw [copied] at registry
  · exact ⟨entriesSame registry, rfl, rfl, nofun, trivial⟩
  · exact ⟨entriesSame registry, rfl, rfl, nofun, rfl, rfl⟩

structure Renamed (w : Race) (io : StepIO) (call : Call) (content : Registry) (t : Race) : Prop where
  works : io.registry.rename = none
  tmp : w.tmp = some content
  registry : t.store.registry = some content
  stages : t.stages = (coerce call.version, coerce call.stage) :: w.stages
  calls : t.calls = w.calls

theorem advanceCases {w t : Race} {io : StepIO} {call : Call} {before phase : Phase}
    (prepared : Prepared call before) (done : w.advance sha256 io call before = some (t, phase)) :
    Silent w call t phase ∨ ∃ all next content, before = .wrote all next ∧ phase = .returned none ∧
      Renamed w io call content t := by
  cases before with
  | began => exact .inl (beginSilent (Option.some.inj done))
  | checked =>
    cases call with
    | push version stage srcPath => exact .inl (copySilent (Option.some.inj done))
    | promote version newStage => cases done
  | copied mv =>
    cases done
    have makes := upsertMakes prepared.1 prepared.2 (listOrNilStored w.store io.registry)
    exact .inl ⟨rfl, rfl, rfl, nofun, makes⟩
  | read all next =>
    have written := Option.some.inj done
    unfold Race.writeTmp at written
    split at written <;> cases written
    · exact .inl ⟨rfl, rfl, rfl, nofun, trivial⟩
    · exact .inl ⟨rfl, rfl, rfl, nofun, prepared⟩
  | wrote all next =>
    have renamed := Option.some.inj done
    unfold Race.rename at renamed
    split at renamed <;> cases renamed
    · exact .inl ⟨rfl, rfl, rfl, nofun, trivial⟩
    · exact .inl ⟨rfl, rfl, rfl, nofun, trivial⟩
    · rename_i content works tmp
      exact .inr ⟨all, next, content, rfl, rfl, works, tmp, rfl, rfl, rfl⟩
  | returned err => cases done

/-! ### Runs -/

structure Consistent (w : Race) : Prop where
  prepared : ∀ r ∈ w.calls, Prepared r.call r.phase
  recorded : ∀ r ∈ w.calls, r.phase = .returned none → ∃ stage, w.stages.lookup (coerce r.call.version) = some stage
  present : ∀ name stage, w.stages.lookup name = some stage →
    ∃ e ∈ w.store.entries, e.version = name ∧ e.stage = stage

theorem consistentKept {w : Race} (held : Consistent w) : Kept w := by
  intro r inside done
  obtain ⟨stage, last⟩ := held.recorded r inside done
  obtain ⟨e, entry, version, same⟩ := held.present _ stage last
  exact ⟨e, entry, version, by rw [version, last, same]⟩

theorem renamedPresent {w t : Race} {io : StepIO} {call : Call} {all next : List ModelVersion}
    (held : Consistent w) (makes : Makes call all next) (renamed : Renamed w io call (.versions next) t)
    (read : ∀ entry ∈ w.store.entries, entry ∈ all ∨ entry.version = coerce call.version)
    (name stage : Bytes) (last : t.stages.lookup name = some stage) :
    ∃ e ∈ t.store.entries, e.version = name ∧ e.stage = stage := by
  have entries : t.store.entries = next.map ModelVersion.stored := by rw [Store.entries, renamed.registry]
  rw [renamed.stages] at last
  rw [entries]
  by_cases own : name = coerce call.version
  · subst own
    rw [List.lookup_cons_self] at last
    cases last
    obtain ⟨mv, inside, version, stage⟩ := makes.sets
    exact ⟨mv.stored, List.mem_map_of_mem inside, version, stage⟩
  · rw [List.lookup_cons, beq_eq_false_iff_ne.mpr own] at last
    obtain ⟨e, entry, rfl, same⟩ := held.present name stage last
    have inAll := (read e entry).resolve_right own
    obtain ⟨inside, stored⟩ := makes.keeps e inAll own
    exact ⟨e, List.mem_map.mpr ⟨e, inside, stored⟩, rfl, same⟩

theorem stepConsistent (w : Race) (e : Nat × StepIO) (t : Race) (held : Consistent w)
    (undisturbed : Undisturbed w e) (step : Does (Race.step sha256) w e t) : Consistent t := by
  obtain ⟨r, found, step⟩ := Option.bind_eq_some_iff.mp step
  obtain ⟨⟨u, phase⟩, done, same⟩ := Option.bind_eq_some_iff.mp step
  have member := List.mem_of_getElem? found
  cases same
  have others {u : Race} (calls : u.calls = w.calls) {s : Running}
      (inside : s ∈ u.calls.set e.1 { r with phase := phase }) : s = { r with phase := phase } ∨ s ∈ w.calls := by
    rw [calls] at inside
    exact (List.mem_or_eq_of_mem_set inside).symm
  rcases advanceCases (held.prepared r member) done with silent | ⟨all, next, content, at_, rfl, renamed⟩
  · refine ⟨fun s inside => ?_, fun s inside finished => ?_, ?_⟩
    · rcases others silent.calls inside with rfl | old
      · exact silent.prepared
      · exact held.prepared s old
    · rcases others silent.calls inside with rfl | old
      · exact absurd finished silent.unfinished
      · exact silent.stages ▸ held.recorded s old finished
    · exact fun name stage last => silent.entries ▸ held.present name stage (silent.stages ▸ last)
  · have makes : Makes r.call all next := by
      have prepared := held.prepared r member
      rwa [at_] at prepared
    have own := undisturbed r found
    rw [Running.Undisturbed, at_] at own
    obtain ⟨rfl, read⟩ := own renamed.works content renamed.tmp
    refine ⟨fun s inside => ?_, fun s inside finished => ?_,
      renamedPresent (t := u) held makes renamed read⟩
    · rcases others renamed.calls inside with rfl | old
      · trivial
      · exact held.prepared s old
    · rcases others renamed.calls inside with rfl | old
      · exact ⟨_, by rw [renamed.stages, List.lookup_cons_self]⟩
      · obtain ⟨stage, last⟩ := held.recorded s old finished
        rw [renamed.stages, List.lookup_cons]
        split
        · exact ⟨_, rfl⟩
        · exact ⟨stage, last⟩

theorem updatesKept (store : Store) (tmp : Option Registry) (calls : List Call)
    {steps : List (Nat × StepIO)} {w : Race}
    (run : Run (Guarded Undisturbed (Does (Race.step sha256))) (race store tmp calls) steps w) : Kept w := by
  have start : Consistent (race store tmp calls) := by
    refine ⟨fun r inside => ?_, fun r inside finished => ?_, fun name stage last => by cases last⟩
    · obtain ⟨call, _, rfl⟩ := List.mem_map.mp inside
      trivial
    · obtain ⟨call, _, rfl⟩ := List.mem_map.mp inside
      cases finished
  exact consistentKept (StepRun.guardedInvariant stepConsistent run start)

end Digest

/-! ### Two Pushes at once -/

def sourceAt (path : Bytes) : Store := newLocalModelStore (ascii "/models") fun p => if p = path then some [1] else none

def twoPushes : List Call :=
  [.push (ascii "v1") (ascii "shadow") (ascii "/tmp/m"), .push (ascii "v2") (ascii "shadow") (ascii "/tmp/m")]

/-- The calls take turns at every step up to the rename of the first. -/
def readTogether : List (Nat × StepIO) :=
  [(0, {}), (1, {}), (0, {}), (1, {}), (0, {}), (1, {}), (0, {}), (0, {}), (1, {}), (1, {})]

def thenPromoted : List Call := twoPushes ++ [.promote (ascii "v1") (ascii "production")]

def oneByOne : List (Nat × StepIO) :=
  [(0, {}), (0, {}), (0, {}), (0, {}), (0, {}), (1, {}), (1, {}), (1, {}), (1, {}), (1, {}),
    (2, {}), (2, {}), (2, {})]

theorem updateLost : ¬ ∃ sha256 : Bytes → Bytes, ∀ (store : Store) (calls : List Call)
    (steps : List (Nat × StepIO)) (w : Race), (calls.map Call.version).Nodup →
      Run (Does (Race.step sha256)) (race store none calls) steps w →
      (∀ r ∈ w.calls, r.phase = .returned none) → Kept w := by
  rintro ⟨sha256, promised⟩
  have run : Run (Does (Race.step sha256)) (race (sourceAt (ascii "/tmp/m")) none twoPushes) readTogether _ :=
    StepRun.runFoldlM rfl
  have kept := promised _ twoPushes _ _ (by decide +kernel) run fun r inside => by
    rcases List.mem_cons.mp inside with rfl | inside
    · rfl
    · rcases List.mem_cons.mp inside with rfl | inside
      · rfl
      · exact absurd inside List.not_mem_nil
  obtain ⟨e, entry, version, _⟩ := kept _ List.mem_cons_self rfl
  have only : e.version = coerce (ascii "v2") := by
    rcases List.mem_cons.mp entry with rfl | none_
    · rfl
    · exact absurd none_ List.not_mem_nil
  have first : e.version = coerce (ascii "v1") := version
  exact absurd (only.symm.trans first) (by decide +kernel)

theorem updatesKeptOneByOne : ∃ w : Race,
    Run (Guarded Undisturbed (Does (Race.step id))) (race (sourceAt (ascii "/tmp/m")) none thenPromoted) oneByOne w ∧
      Kept w := by
  have run : Run (Guarded Undisturbed (Does (Race.step id)))
      (race (sourceAt (ascii "/tmp/m")) none thenPromoted) oneByOne _ := StepRun.runGuardedRun rfl
  exact ⟨_, run, updatesKept _ none thenPromoted run⟩

end OmegaLb.StoreRace
