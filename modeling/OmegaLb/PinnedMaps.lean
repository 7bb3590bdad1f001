import OmegaLb.GoText
import OmegaLb.StepRun

/-! PinOrReuse in loader.go over the BPF file system, one system call at a time. The daemon may stop between
any two of them, and an operator may remove pins. A map is told by the load that made it and by its name. -/
namespace OmegaLb.PinnedMaps
open GoText (Bytes ascii)
open StepRun (Run Does Guarded)

structure MapId where
  load : Nat
  name : Bytes
  deriving DecidableEq

abbrev Maps := List (Bytes × MapId)

/-- Map.Pin, given what the path holds: `none` is its error. -/
abbrev Pin := Option MapId → MapId → Option MapId

/-- The path of a pin is never taken from another map. -/
def Exclusive (pin : Pin) : Prop := ∀ held m after, pin held m = some after → held = none ∧ after = m

def sentinel : Bytes := ascii "ha_ring_map"

def mapNames : List Bytes :=
  [sentinel, ascii "instance_registry", ascii "isock_pool", ascii "instance_stats_map", ascii "circuit_state_map",
    ascii "events_ringbuf"]

inductive ReattachStatus where
  | freshLoad
  | reused
  deriving DecidableEq

inductive Failure where
  | spec
  | collection
  | mkdir
  | pin (name : Bytes)
  deriving DecidableEq

/-- Where PinOrReuse stands. The maps are those of its collection that are open, and pinned where it pins. -/
inductive Process where
  | down
  | starting
  | opening (left : List Bytes) (maps : Maps)
  | loading
  | loaded (maps : Maps)
  | pinning (left maps : Maps)
  | failed (why : Failure)
  | returned (maps : Maps) (status : ReattachStatus)
  deriving DecidableEq

structure World where
  pins : Bytes → Option MapId
  loads : Nat
  process : Process

def World.boot : World := ⟨fun _ => none, 0, .down⟩

/-- What `load` finds in the object: the names of its maps, in the order in which Go ranges over them. -/
inductive Event where
  | start
  | stat (fails : Bool)
  | reopen (readable : Bool)
  | load (spec : Option (List Bytes)) (created : Bool)
  | mkdir (fails : Bool)
  | pin (fails : Bool)
  | crash
  | remove (name : Bytes)
  deriving DecidableEq

/-- openPinnedCollection once it has tried a name. -/
def reopened : List Bytes → Maps → Process
  | [], [] => .loading
  | [], maps => .returned maps .reused
  | left, maps => .opening left maps

/-- PinAllMaps once it has pinned a map. -/
def pinnedAll : Maps → Maps → Process
  | [], maps => .returned maps .freshLoad
  | left, maps => .pinning left maps

def World.exec (pin : Pin) (w : World) : Event → Option World
  | .start => if w.process = .down then some { w with process := .starting } else none
  | .stat fails =>
    match w.process with
    | .starting =>
      some { w with process := if !fails && (w.pins sentinel).isSome then .opening mapNames [] else .loading }
    | _ => none
  | .reopen readable =>
    match w.process with
    | .opening (name :: left) maps =>
      match w.pins name, readable with
      | some m, true => some { w with process := reopened left (maps ++ [(name, m)]) }
      | _, _ => some { w with process := reopened left maps }
    | _ => none
  | .load spec created =>
    match w.process, spec with
    | .loading, none => some { w with process := .failed .spec }
    | .loading, some names =>
      if ¬names.Nodup then none
      else if created then
        some { w with loads := w.loads + 1, process := .loaded (names.map fun name => (name, ⟨w.loads, name⟩)) }
      else some { w with process := .failed .collection }
    | _, _ => none
  | .mkdir fails =>
    match w.process with
    | .loaded maps => some { w with process := if fails then .failed .mkdir else pinnedAll maps [] }
    | _ => none
  | .pin fails =>
    match w.process with
    | .pinning ((name, m) :: left) maps =>
      match if fails then none else pin (w.pins name) m with
      | none => some { w with process := .failed (.pin name) }
      | some after =>
        some { w with
          pins := Function.update w.pins name (some after)
          process := pinnedAll left (maps ++ [(name, m)]) }
    | _ => none
  | .crash => some { w with process := .down }
  | .remove name => some { w with pins := Function.update w.pins name none }

variable {pin : Pin}

inductive Step (pin : Pin) (w : World) : Event → World → Prop where
  | start (at_ : w.process = .down) : Step pin w .start { w with process := .starting }
  | found (at_ : w.process = .starting) (pinned : (w.pins sentinel).isSome) :
      Step pin w (.stat false) { w with process := .opening mapNames [] }
  | absent {fails} (at_ : w.process = .starting) (unseen : fails = false → w.pins sentinel = none) :
      Step pin w (.stat fails) { w with process := .loading }
  | reopen {name left maps m} (at_ : w.process = .opening (name :: left) maps) (pinned : w.pins name = some m) :
      Step pin w (.reopen true) { w with process := reopened left (maps ++ [(name, m)]) }
  | skip {name left maps readable} (at_ : w.process = .opening (name :: left) maps) :
      Step pin w (.reopen readable) { w with process := reopened left maps }
  | refused {spec created why} (at_ : w.process = .loading) :
      Step pin w (.load spec created) { w with process := .failed why }
  | load {names} (at_ : w.process = .loading) (distinct : names.Nodup) : Step pin w (.load (some names) true)
      { w with loads := w.loads + 1, process := .loaded (names.map fun name => (name, ⟨w.loads, name⟩)) }
  | unmade {maps} (at_ : w.process = .loaded maps) : Step pin w (.mkdir true) { w with process := .failed .mkdir }
  | mkdir {maps} (at_ : w.process = .loaded maps) : Step pin w (.mkdir false) { w with process := pinnedAll maps [] }
  | unpinned {name m left maps fails} (at_ : w.process = .pinning ((name, m) :: left) maps)
      (failed : fails = false → pin (w.pins name) m = none) : Step pin w (.pin fails)
      { w with process := .failed (.pin name) }
  | pin {name m left maps after} (at_ : w.process = .pinning ((name, m) :: left) maps)
      (done : pin (w.pins name) m = some after) :
      Step pin w (.pin false) { w with
        pins := Function.update w.pins name (some after), process := pinnedAll left (maps ++ [(name, m)]) }
  | crash : Step pin w .crash { w with process := .down }
  | remove (name : Bytes) : Step pin w (.remove name) { w with pins := Function.update w.pins name none }

theorem execStep {w t : World} {e : Event} (taken : w.exec pin e = some t) : Step pin w e t := by
  cases e with
  | start =>
    simp only [World.exec] at taken
    split at taken
    · cases Option.some.inj taken
      exact .start ‹_›
    · contradiction
  | stat fails =>
    simp only [World.exec] at taken
    split at taken <;> try contradiction
    cases Option.some.inj taken
    split
    · rename_i seen
      obtain ⟨works, pinned⟩ := (Bool.and_eq_true _ _).mp seen
      cases (Bool.not_eq_true' fails).mp works
      exact .found ‹_› pinned
    · rename_i unseen
      refine .absent ‹_› fun works => ?_
      subst works
      simpa using unseen
  | reopen readable =>
    simp only [World.exec] at taken
    split at taken <;> try contradiction
    split at taken
    · cases Option.some.inj taken
      exact .reopen ‹_› ‹_›
    · cases Option.some.inj taken
      exact .skip ‹_›
  | load spec created =>
    simp only [World.exec] at taken
    split at taken <;> try contradiction
    · cases Option.some.inj taken
      exact .refused ‹_›
    · split at taken <;> try contradiction
      split at taken
      · cases Option.some.inj taken
        subst created
        exact .load ‹_› (Decidable.not_not.mp ‹_›)
      · cases Option.some.inj taken
        exact .refused ‹_›
  | mkdir fails =>
    simp only [World.exec] at taken
    split at taken <;> try contradiction
    cases Option.some.inj taken
    cases fails with
    | true => exact .unmade ‹_›
    | false => exact .mkdir ‹_›
  | pin fails =>
    simp only [World.exec] at taken
    split at taken <;> try contradiction
    split at taken
    · rename_i refused
      cases Option.some.inj taken
      refine .unpinned ‹_› fun works => ?_
      subst works
      exact refused
    · rename_i found
      cases Option.some.inj taken
      cases fails with
      | true => contradiction
      | false => exact .pin ‹_› found
  | crash =>
    cases Option.some.inj taken
    exact .crash
  | remove name =>
    cases Option.some.inj taken
    exact .remove name

/-! ### Pins outlive the daemon -/

def Event.wipes : Event → Bool
  | .remove _ => true
  | _ => false

def Unwiped (_ : World) (e : Event) : Prop := e.wipes = false

instance (w e) : Decidable (Unwiped w e) := inferInstanceAs (Decidable (_ = _))

/-- The open maps that a process has found or made pinned. -/
def Process.maps : Process → Maps
  | .opening _ maps | .pinning _ maps | .returned maps _ => maps
  | _ => []

@[simp] theorem reopenedMaps (left : List Bytes) (maps : Maps) : (reopened left maps).maps = maps := by
  cases left <;> cases maps <;> rfl

@[simp] theorem pinnedAllMaps (left maps : Maps) : (pinnedAll left maps).maps = maps := by
  cases left <;> rfl

def Held (w : World) : Prop := ∀ name m, (name, m) ∈ w.process.maps → w.pins name = some m

theorem pinnedNow {pins : Bytes → Option MapId} {maps : Maps} {name : Bytes} {m : MapId}
    (before : ∀ name m, (name, m) ∈ maps → pins name = some m) (now : pins name = some m) :
    ∀ name' m', (name', m') ∈ maps ++ [(name, m)] → pins name' = some m' := by
  intro name' m' inside
  rcases List.mem_append.mp inside with earlier | last
  · exact before name' m' earlier
  · cases List.mem_singleton.mp last
    exact now

section Exclusive
variable (exclusive : Exclusive pin)
include exclusive

theorem pinsStep {w t : World} {e : Event} (step : Step pin w e t) (unwiped : Unwiped w e) {name : Bytes} {m : MapId}
    (pinned : w.pins name = some m) : t.pins name = some m := by
  cases step with
  | @pin other _ _ _ _ _ done =>
    obtain ⟨free, -⟩ := exclusive _ _ _ done
    have apart : name ≠ other := by
      rintro rfl
      rw [pinned] at free
      contradiction
    exact (Function.update_of_ne apart _ _).trans pinned
  | remove other => exact Bool.noConfusion unwiped
  | _ => exact pinned

theorem heldStep {w t : World} {e : Event} (held : Held w) (step : Step pin w e t) (unwiped : Unwiped w e) :
    Held t := by
  have kept : ∀ name m, w.pins name = some m → t.pins name = some m := fun _ _ =>
    pinsStep exclusive step unwiped
  have before : ∀ name m, (name, m) ∈ w.process.maps → t.pins name = some m := fun name m inside =>
    kept name m (held name m inside)
  unfold Held
  cases step with
  | reopen at_ pinned =>
    rw [at_] at before
    rw [reopenedMaps]
    exact pinnedNow before pinned
  | skip at_ =>
    rw [at_] at before
    rwa [reopenedMaps]
  | @mkdir maps at_ =>
    rw [pinnedAllMaps]
    exact fun _ _ inside => absurd inside List.not_mem_nil
  | @pin name m _ _ after at_ done =>
    rw [at_] at before
    obtain ⟨-, rfl⟩ := exclusive _ _ _ done
    rw [pinnedAllMaps]
    exact pinnedNow before (Function.update_self _ _ _)
  | remove other => exact Bool.noConfusion unwiped
  | _ => exact fun _ _ inside => absurd inside List.not_mem_nil

theorem runPins {w t : World} {es : List Event} (run : Run (Guarded Unwiped (Does (World.exec pin))) w es t)
    (name : Bytes) (m : MapId) (pinned : w.pins name = some m) : t.pins name = some m := by
  induction run with
  | nil w => exact pinned
  | cons head _ ih => exact ih (pinsStep exclusive (execStep head.2) head.1 pinned)

theorem runHeld {w t : World} {es : List Event} (run : Run (Guarded Unwiped (Does (World.exec pin))) w es t)
    (held : Held w) : Held t := by
  have preserved : ∀ u e v, Held u → Unwiped u e → Does (World.exec pin) u e v → Held v :=
    fun _ _ _ before unwiped taken => heldStep exclusive before (execStep taken) unwiped
  exact StepRun.guardedInvariant preserved run held

end Exclusive

def undisturbed : List Event := .start :: .stat false :: mapNames.map fun _ => .reopen true

theorem reopenAll {w : World} {found : Bytes → MapId} (name : Bytes) (left : List Bytes) (maps : Maps)
    (at_ : w.process = .opening (name :: left) maps)
    (pinned : ∀ other, other ∈ name :: left → w.pins other = some (found other)) :
    ((name :: left).map fun _ => Event.reopen true).foldlM (World.exec pin) w =
      some { w with process := .returned (maps ++ (name :: left).map fun other => (other, found other)) .reused } := by
  induction left generalizing w name maps with
  | nil =>
    have one := pinned name List.mem_cons_self
    have last : reopened [] (maps ++ [(name, found name)]) = .returned (maps ++ [(name, found name)]) .reused := by
      cases maps <;> rfl
    simp only [List.map_cons, List.map_nil, List.foldlM_cons, List.foldlM_nil, World.exec, at_, one, last]
    rfl
  | cons next left ih =>
    have one := pinned name List.mem_cons_self
    have opened : w.exec pin (.reopen true) =
        some { w with process := .opening (next :: left) (maps ++ [(name, found name)]) } := by
      simp only [World.exec, at_, one]
      rfl
    rw [List.map_cons, List.foldlM_cons, opened]
    refine (ih (w := { w with process := _ }) next _ rfl fun other inside =>
      pinned other (List.mem_cons_of_mem _ inside)).trans ?_
    rw [List.append_assoc]
    rfl

theorem undisturbedReuses {w : World} {found : Bytes → MapId} (down : w.process = .down)
    (pinned : ∀ name, name ∈ mapNames → w.pins name = some (found name)) :
    undisturbed.foldlM (World.exec pin) w =
      some { w with process := .returned (mapNames.map fun name => (name, found name)) .reused } := by
  have first : w.exec pin .start = some { w with process := .starting } := if_pos down
  have seen : ({ w with process := .starting } : World).exec pin (.stat false) =
      some { w with process := .opening mapNames [] } := by
    have there := pinned sentinel List.mem_cons_self
    simp only [World.exec, there]
    rfl
  rw [undisturbed, List.foldlM_cons, first, Option.bind_eq_bind, Option.bind_some, List.foldlM_cons, seen]
  exact reopenAll (w := { w with process := _ }) _ _ [] rfl pinned

/-- What a later world has of the maps that an earlier one used. -/
structure Kept (pin : Pin) (s t : World) : Prop where
  pins : ∀ name m, s.pins name = some m → t.pins name = some m
  used : ∀ maps status, s.process = .returned maps status → ∀ name m, (name, m) ∈ maps → t.pins name = some m
  same : ∀ before first after second, s.process = .returned before first → t.process = .returned after second →
    ∀ name m m', (name, m) ∈ before → (name, m') ∈ after → m' = m
  reused : ∀ maps status, s.process = .returned maps status → t.process = .down →
    (∀ name, name ∈ mapNames → name ∈ maps.map Prod.fst) →
    ∃ again next, undisturbed.foldlM (World.exec pin) t = some next ∧ next.process = .returned again .reused ∧
      again.map Prod.fst = mapNames ∧ again ⊆ maps

/-- Whatever stops in between, a daemon goes on with the maps of the ones before it. -/
theorem mapsKept (exclusive : Exclusive pin) {w s t : World} {es fs : List Event} (down : w.process = .down)
    (run : Run (Guarded Unwiped (Does (World.exec pin))) w es s)
    (later : Run (Guarded Unwiped (Does (World.exec pin))) s fs t) : Kept pin s t := by
  have first : Held s := runHeld exclusive run fun name m inside => by
    rw [down] at inside
    exact absurd inside List.not_mem_nil
  have last : Held t := runHeld exclusive later first
  have pins := runPins exclusive later
  have used : ∀ maps status, s.process = .returned maps status →
      ∀ name m, (name, m) ∈ maps → t.pins name = some m := fun maps status returned name m inside =>
    pins name m (first name m (by rw [returned]; exact inside))
  refine ⟨pins, used, ?_, ?_⟩
  · intro before _ after _ returned returned' name m m' inside inside'
    have then_ := used before _ returned name m inside
    have now := last name m' (by rw [returned']; exact inside')
    exact Option.some.inj (now.symm.trans then_)
  · intro maps status returned stopped whole
    have found : ∀ name, ∃ m, name ∈ mapNames → (name, m) ∈ maps := fun name => by
      by_cases inside : name ∈ mapNames
      · obtain ⟨⟨_, m⟩, entry, rfl⟩ := List.mem_map.mp (whole name inside)
        exact ⟨m, fun _ => entry⟩
      · exact ⟨⟨0, name⟩, fun inside' => absurd inside' inside⟩
    choose m entry using found
    have pinned : ∀ name, name ∈ mapNames → t.pins name = some (m name) := fun name inside =>
      used maps status returned name _ (entry name inside)
    refine ⟨_, _, undisturbedReuses stopped pinned, rfl, ?_, ?_⟩
    · rw [List.map_map]
      exact List.map_id _
    · intro x inside
      obtain ⟨name, known, rfl⟩ := List.mem_map.mp inside
      exact entry name known

/-! #### A daemon that stops after its first load -/

/-- A file system that takes every map at a free path and none at another. -/
def bpffs : Pin := fun held m => if held.isSome then none else some m

theorem bpffsExclusive : Exclusive bpffs := by
  intro held m after done
  unfold bpffs at done
  split at done
  · contradiction
  · rename_i free
    exact ⟨Option.not_isSome_iff_eq_none.mp free, (Option.some.inj done).symm⟩

def firstLoad : List Event :=
  [.start, .stat false, .load (some mapNames) true, .mkdir false] ++ mapNames.map fun _ => .pin false

def firstMaps : Maps := mapNames.map fun name => (name, ⟨0, name⟩)

def after (es : List Event) : World := (es.foldlM (World.exec bpffs) .boot).getD .boot

theorem afterSplit {guard : World → Event → Prop} [∀ w e, Decidable (guard w e)] {es fs : List Event}
    {p : World → Bool} (begun : (es.foldlM (World.exec bpffs) .boot).isSome = true)
    (whole : (StepRun.runGuarded guard (World.exec bpffs) .boot (es ++ fs)).any p = true) :
    Run (Guarded guard (Does (World.exec bpffs))) .boot es (after es) ∧
      ∃ t, Run (Guarded guard (Does (World.exec bpffs))) (after es) fs t ∧ p t = true := by
  obtain ⟨t, run, holds⟩ := StepRun.runGuardedAny whole
  obtain ⟨s, reached⟩ := Option.isSome_iff_exists.mp begun
  have there : after es = s := congrArg (Option.getD · World.boot) reached
  obtain ⟨before, later⟩ := StepRun.doesSplit run (there ▸ StepRun.runFoldlM reached : Run _ _ _ (after es))
  exact ⟨before, t, later, holds⟩

theorem mapsKeptCrash : ∃ t : World, (after firstLoad).process = .returned firstMaps .freshLoad ∧
    t.process = .down ∧ Kept bpffs (after firstLoad) t := by
  obtain ⟨run, t, later, down⟩ :
      Run (Guarded Unwiped (Does (World.exec bpffs))) .boot firstLoad (after firstLoad) ∧
        ∃ t, Run (Guarded Unwiped (Does (World.exec bpffs))) (after firstLoad) [.crash] t ∧
          decide (t.process = .down) = true := afterSplit (by decide +kernel) (by decide +kernel)
  exact ⟨t, by decide +kernel, of_decide_eq_true down, mapsKept bpffsExclusive rfl run later⟩

/-! ### The fresh load after pins that cannot be read -/

def Process.fresh : Process → Maps
  | .pinning _ maps | .returned maps .freshLoad => maps
  | _ => []

@[simp] theorem reopenedFresh (left : List Bytes) (maps : Maps) : (reopened left maps).fresh = [] := by
  cases left <;> cases maps <;> rfl

@[simp] theorem pinnedAllFresh (left maps : Maps) : (pinnedAll left maps).fresh = maps := by
  cases left <;> rfl

/-- The name is pinned, and not by the process that runs. -/
structure Foreign (name : Bytes) (m : MapId) (w : World) : Prop where
  pinned : w.pins name = some m
  apart : name ∉ w.process.fresh.map Prod.fst

theorem foreignStep (exclusive : Exclusive pin) {name : Bytes} {m : MapId} {w t : World} {e : Event}
    (foreign : Foreign name m w) (step : Step pin w e t) (unwiped : Unwiped w e) : Foreign name m t := by
  refine ⟨pinsStep exclusive step unwiped foreign.pinned, ?_⟩
  have apart := foreign.apart
  cases step with
  | reopen | skip =>
    rw [reopenedFresh]
    exact List.not_mem_nil
  | mkdir =>
    rw [pinnedAllFresh]
    exact List.not_mem_nil
  | @pin next _ _ _ _ at_ done =>
    rw [at_] at apart
    obtain ⟨free, -⟩ := exclusive _ _ _ done
    have other : name ≠ next := by
      rintro rfl
      rw [foreign.pinned] at free
      contradiction
    rw [pinnedAllFresh, List.map_append, List.mem_append, List.map_singleton, List.mem_singleton, not_or]
    exact ⟨apart, other⟩
  | remove => exact apart
  | _ => exact List.not_mem_nil

/-- PinAllMaps never gets past a name that is pinned: what returns from a fresh load found all of its names free. -/
theorem fallbackNeverLoads (exclusive : Exclusive pin) {s t : World} {es : List Event} {name : Bytes}
    (pinned : (s.pins name).isSome) (down : s.process = .down)
    (run : Run (Guarded Unwiped (Does (World.exec pin))) s es t) {maps : Maps}
    (loaded : t.process = .returned maps .freshLoad) : name ∉ maps.map Prod.fst := by
  obtain ⟨m, held⟩ := Option.isSome_iff_exists.mp pinned
  have start : Foreign name m s := ⟨held, by rw [down]; exact List.not_mem_nil⟩
  have preserved : ∀ u e v, Foreign name m u → Unwiped u e → Does (World.exec pin) u e v → Foreign name m v :=
    fun _ _ _ before unwiped taken => foreignStep exclusive before (execStep taken) unwiped
  have apart := (StepRun.guardedInvariant preserved run start).apart
  rwa [loaded] at apart

def otherMaps : Maps := [(ascii "conn_map", ⟨1, ascii "conn_map"⟩)]

theorem fallbackNeverLoadsOther : ∃ t : World, t.process = .returned otherMaps .freshLoad ∧
    sentinel ∉ otherMaps.map Prod.fst := by
  obtain ⟨-, t, run, loaded⟩ :
      Run (Guarded Unwiped (Does (World.exec bpffs))) .boot (firstLoad ++ [.crash]) (after (firstLoad ++ [.crash])) ∧
        ∃ t, Run (Guarded Unwiped (Does (World.exec bpffs))) (after (firstLoad ++ [.crash]))
          [.start, .stat true, .load (some [ascii "conn_map"]) true, .mkdir false, .pin false] t ∧
          decide (t.process = .returned otherMaps .freshLoad) = true :=
    afterSplit (by decide +kernel) (by decide +kernel)
  have loaded' := of_decide_eq_true loaded
  exact ⟨t, loaded', fallbackNeverLoads bpffsExclusive (by decide +kernel) (by decide +kernel) run loaded'⟩

/-! ### Maps of one load -/

/-- The map to be pinned behind one that this start has pinned already. -/
def Process.next : Process → Option (Bytes × MapId)
  | .pinning (entry :: _) (_ :: _) => some entry
  | _ => none

def Event.object : Event → Option (List Bytes)
  | .load spec _ => spec
  | _ => none

/-- Neither a wipe nor anything that stops PinAllMaps once it has pinned a map, and every object has the
sentinel. -/
structure Unbroken (pin : Pin) (w : World) (e : Event) : Prop where
  unwiped : Unwiped w e
  sentinel : ∀ names ∈ e.object, sentinel ∈ names
  whole : ∀ entry ∈ w.process.next, e = .pin false ∧ (pin (w.pins entry.1) entry.2).isSome

theorem unbrokenParts {w : World} {e : Event} :
    (Unwiped w e ∧ (∀ names ∈ e.object, names.any (· = sentinel) = true) ∧
      ∀ entry ∈ w.process.next, e = .pin false ∧ (pin (w.pins entry.1) entry.2).isSome) ↔ Unbroken pin w e := by
  have named : ∀ names : List Bytes, names.any (· = sentinel) = true ↔ sentinel ∈ names := fun names => by simp
  simp only [named]
  exact ⟨fun ⟨unwiped, sentinel, whole⟩ => ⟨unwiped, sentinel, whole⟩,
    fun unbroken => ⟨unbroken.unwiped, unbroken.sentinel, unbroken.whole⟩⟩

instance (w e) : Decidable (Unbroken pin w e) := decidable_of_iff _ unbrokenParts

def OneLoad (g : Nat) (maps : Maps) : Prop := ∀ entry, entry ∈ maps → entry.2.load = g

structure Coming (maps : Maps) : Prop where
  load : ∃ g, OneLoad g maps
  sentinel : sentinel ∈ maps.map Prod.fst

def Carries (w : World) : Prop := ∀ maps, w.process = .loaded maps → Coming maps

/-- Nothing is pinned, at most about to be. -/
structure Bare (w : World) : Prop where
  free : ∀ name, w.pins name = none
  shut : ∀ left maps, w.process ≠ .opening left maps
  going : ∀ maps status, w.process ≠ .returned maps status
  first : ∀ left maps, w.process = .pinning left maps → maps = [] ∧ Coming left

/-- The pins are of the load `g`, or a later load is at work on them that cannot end. -/
inductive Stage (g : Nat) (w : World) : Prop where
  | pinning (name : Bytes) (m : MapId) (left : Maps) (one : Bytes × MapId) (maps : Maps)
      (at_ : w.process = .pinning ((name, m) :: left) (one :: maps))
      (rest : OneLoad g ((name, m) :: left)) (pins : ∀ other m', w.pins other = some m' → m'.load = g)
      (goal : sentinel ∈ ((name, m) :: left).map Prod.fst ∨ (w.pins sentinel).isSome)
  | pinned (past : ∀ left maps, w.process ≠ .pinning left maps)
      (pins : ∀ name m, w.pins name = some m → m.load = g) (goal : (w.pins sentinel).isSome)
  | retrying (name : Bytes) (m : MapId) (left : Maps) (at_ : w.process = .pinning ((name, m) :: left) [])
      (ahead : sentinel ∈ ((name, m) :: left).map Prod.fst)
      (pins : ∀ name m, w.pins name = some m → m.load = g) (goal : (w.pins sentinel).isSome)
  | stuck (name : Bytes) (m : MapId) (left : Maps) (one : Bytes × MapId) (maps : Maps)
      (at_ : w.process = .pinning ((name, m) :: left) (one :: maps))
      (ahead : sentinel ∈ ((name, m) :: left).map Prod.fst) (goal : (w.pins sentinel).isSome)

theorem reopenedPast (left : List Bytes) (maps rest others : Maps) : reopened left maps ≠ .pinning rest others := by
  cases left <;> cases maps <;> simp [reopened]

theorem carriesStep {w t : World} {e : Event} (step : Step pin w e t) (unbroken : Unbroken pin w e)
    (carries : Carries w) : Carries t := by
  intro maps at_
  cases step with
  | load _ _ =>
    cases at_
    refine ⟨⟨w.loads, fun entry inside => ?_⟩, ?_⟩
    · obtain ⟨_, -, rfl⟩ := List.mem_map.mp inside
      rfl
    · rw [List.map_map]
      exact List.mem_map.mpr ⟨sentinel, unbroken.sentinel _ rfl, rfl⟩
  | @reopen name left earlier m _ _ =>
    cases left <;> cases earlier <;> cases at_
  | @skip name left earlier _ _ =>
    cases left <;> cases earlier <;> cases at_
  | @mkdir other _ =>
    cases other <;> cases at_
  | @pin _ _ left _ _ _ _ =>
    cases left <;> cases at_
  | remove => exact carries maps at_
  | _ => cases at_

theorem comingMore {maps : Maps} (coming : Coming maps) : ∃ name m left, maps = (name, m) :: left := by
  cases maps with
  | nil => exact absurd coming.sentinel List.not_mem_nil
  | cons entry left => exact ⟨entry.1, entry.2, left, rfl⟩

/-- While it pins, a daemon pins the next map or is gone. -/
theorem pinningStep (exclusive : Exclusive pin) {w t : World} {e : Event} (step : Step pin w e t)
    (unwiped : Unwiped w e) {name : Bytes} {m : MapId} {left maps : Maps}
    (at_ : w.process = .pinning ((name, m) :: left) maps) :
    (t.pins = w.pins ∧ (t.process = .down ∨ t.process = .failed (.pin name))) ∨
      (w.pins name = none ∧ t.pins = Function.update w.pins name (some m) ∧
        t.process = pinnedAll left (maps ++ [(name, m)])) := by
  cases step with
  | unpinned at' =>
    rw [at_] at at'
    cases at'
    exact .inl ⟨rfl, .inr rfl⟩
  | pin at' done =>
    rw [at_] at at'
    cases at'
    obtain ⟨free, rfl⟩ := exclusive _ _ _ done
    exact .inr ⟨free, rfl, rfl⟩
  | crash => exact .inl ⟨rfl, .inl rfl⟩
  | remove => exact Bool.noConfusion unwiped
  | start at' | found at' | absent at' | reopen at' | skip at' | refused at' | load at' | unmade at' | mkdir at' =>
    rw [at_] at at'
    contradiction

theorem wholeStep (exclusive : Exclusive pin) {w t : World} {e : Event} (step : Step pin w e t)
    (unbroken : Unbroken pin w e) {name : Bytes} {m : MapId} {left maps : Maps} {one : Bytes × MapId}
    (at_ : w.process = .pinning ((name, m) :: left) (one :: maps)) :
    w.pins name = none ∧ t.pins = Function.update w.pins name (some m) ∧
      t.process = pinnedAll left (one :: maps ++ [(name, m)]) := by
  obtain ⟨rfl, works⟩ := unbroken.whole (name, m) (by rw [at_]; rfl)
  cases step with
  | unpinned at' failed =>
    rw [at_] at at'
    cases at'
    rw [failed rfl] at works
    contradiction
  | pin at' done =>
    rw [at_] at at'
    cases at'
    obtain ⟨free, rfl⟩ := exclusive _ _ _ done
    exact ⟨free, rfl, rfl⟩

section Pinned
variable {g : Nat} {w t : World} {name : Bytes} {m : MapId} {left : Maps}

/-- A map of the load `g` has been pinned: the next one, or all. -/
theorem pinnedOn {one : Bytes × MapId} {maps : Maps} (pins : ∀ other m', w.pins other = some m' → m'.load = g)
    (after : t.pins = Function.update w.pins name (some m)) (next : t.process = pinnedAll left (one :: maps))
    (load : OneLoad g ((name, m) :: left)) (goal : sentinel ∈ ((name, m) :: left).map Prod.fst ∨
      (t.pins sentinel).isSome) : Stage g t := by
  have mine : ∀ other m', t.pins other = some m' → m'.load = g := fun other m' pinned => by
    rw [after, Function.update_apply] at pinned
    split at pinned
    · cases Option.some.inj pinned
      exact load _ List.mem_cons_self
    · exact pins other m' pinned
  have goal' : sentinel ∈ left.map Prod.fst ∨ (t.pins sentinel).isSome := by
    rcases goal with ahead | before
    · rcases List.mem_cons.mp ahead with now | later
      · refine .inr ?_
        rw [after, now, Function.update_self]
        rfl
      · exact .inl later
    · exact .inr before
  cases left with
  | nil => exact .pinned (by rw [next]; simp [pinnedAll]) mine (goal'.resolve_left List.not_mem_nil)
  | cons entry left =>
    exact .pinning entry.1 entry.2 left one maps next (fun x inside => load x (List.mem_cons_of_mem _ inside)) mine
      goal'

/-- The path pinned was free, so it is not the sentinel's, and that one is still ahead. -/
theorem stuckOn {one : Bytes × MapId} {maps : Maps} (free : w.pins name = none) (goal : (w.pins sentinel).isSome)
    (ahead : sentinel ∈ ((name, m) :: left).map Prod.fst) (next : t.process = pinnedAll left (one :: maps))
    (kept : (t.pins sentinel).isSome) : Stage g t := by
  have apart : sentinel ≠ name := by
    rintro rfl
    rw [free] at goal
    contradiction
  have later : sentinel ∈ left.map Prod.fst := (List.mem_cons.mp ahead).resolve_left apart
  cases left with
  | nil => exact absurd later List.not_mem_nil
  | cons entry left => exact .stuck entry.1 entry.2 left one maps next later kept

end Pinned

theorem bareStep (exclusive : Exclusive pin) {w t : World} {e : Event} (step : Step pin w e t)
    (unbroken : Unbroken pin w e) (bare : Bare w) (carries : Carries w) : Bare t ∨ ∃ g, Stage g t := by
  obtain ⟨free, shut, going, first⟩ := bare
  have none_ : ∀ {g : Nat} other m', w.pins other = some m' → m'.load = g := fun other m' pinned => by
    rw [free] at pinned
    contradiction
  cases step with
  | found _ pinned =>
    rw [free] at pinned
    contradiction
  | reopen at_ | skip at_ => exact absurd at_ (shut _ _)
  | unpinned => exact .inl ⟨free, by simp, by simp, by simp⟩
  | @pin name m left maps after at_ done =>
    obtain ⟨rfl, coming⟩ := first _ _ at_
    obtain ⟨g, load⟩ := coming.load
    obtain ⟨-, rfl⟩ := exclusive _ _ _ done
    exact .inr ⟨g, pinnedOn none_ rfl rfl load (.inl coming.sentinel)⟩
  | @mkdir maps at_ =>
    have coming := carries maps at_
    obtain ⟨name, m, left, rfl⟩ := comingMore coming
    refine .inl ⟨free, by simp [pinnedAll], by simp [pinnedAll], fun left' maps' begun => ?_⟩
    cases begun
    exact ⟨rfl, coming⟩
  | remove name => exact Bool.noConfusion unbroken.unwiped
  | _ => exact .inl ⟨free, by simp, by simp, by simp⟩

theorem stageStep (exclusive : Exclusive pin) {g : Nat} {w t : World} {e : Event} (step : Step pin w e t)
    (unbroken : Unbroken pin w e) (stage : Stage g w) (carries : Carries w) : Stage g t := by
  have goalKept : (w.pins sentinel).isSome → (t.pins sentinel).isSome := fun goal => by
    obtain ⟨m, pinned⟩ := Option.isSome_iff_exists.mp goal
    exact Option.isSome_iff_exists.mpr ⟨m, pinsStep exclusive step unbroken.unwiped pinned⟩
  cases stage with
  | pinning name m left one maps at_ rest pins goal =>
    obtain ⟨-, after, next⟩ := wholeStep exclusive step unbroken at_
    exact pinnedOn pins after next rest (goal.imp_right goalKept)
  | stuck name m left one maps at_ ahead goal =>
    obtain ⟨free, -, next⟩ := wholeStep exclusive step unbroken at_
    exact stuckOn free goal ahead next (goalKept goal)
  | retrying name m left at_ ahead pins goal =>
    rcases pinningStep exclusive step unbroken.unwiped at_ with ⟨same, gone⟩ | ⟨free, -, next⟩
    · refine .pinned (fun _ _ => ?_) (same ▸ pins) (goalKept goal)
      rcases gone with down | failed
      · simp [down]
      · simp [failed]
    · exact stuckOn free goal ahead next (goalKept goal)
  | pinned past pins goal =>
    cases step with
    | reopen | skip => exact .pinned (reopenedPast _ _) pins goal
    | unpinned at_ | pin at_ => exact absurd at_ (past _ _)
    | @mkdir maps at_ =>
      have coming := carries maps at_
      obtain ⟨name, m, left, rfl⟩ := comingMore coming
      -- the fall-through to a fresh load, with the sentinel's path taken
      exact .retrying name m left rfl coming.sentinel pins goal
    | remove name => exact Bool.noConfusion unbroken.unwiped
    | _ => exact .pinned (by simp) pins goal

structure Progress (w : World) : Prop where
  carries : Carries w
  stage : Bare w ∨ ∃ g, Stage g w

theorem progressStep (exclusive : Exclusive pin) {w t : World} {e : Event} (progress : Progress w)
    (step : Step pin w e t) (unbroken : Unbroken pin w e) : Progress t := by
  refine ⟨carriesStep step unbroken progress.carries, ?_⟩
  rcases progress.stage with bare | ⟨g, stage⟩
  · exact bareStep exclusive step unbroken bare progress.carries
  · exact .inr ⟨g, stageStep exclusive step unbroken stage progress.carries⟩

theorem returnedStage {w : World} {maps : Maps} {status : ReattachStatus} (progress : Progress w)
    (returned : w.process = .returned maps status) : ∃ g, Stage g w :=
  progress.stage.resolve_left fun bare => bare.going maps status returned

theorem stageLoad {g : Nat} {w : World} {maps : Maps} {status : ReattachStatus} (stage : Stage g w) (held : Held w)
    (returned : w.process = .returned maps status) : OneLoad g maps := by
  cases stage with
  | pinning _ _ _ _ _ at_ | retrying _ _ _ at_ | stuck _ _ _ _ _ at_ =>
    rw [returned] at at_
    contradiction
  | pinned _ pins _ =>
    intro entry inside
    exact pins entry.1 entry.2 (held entry.1 entry.2 (by rw [returned]; exact inside))

/-- Where no daemon stops between two pins, all of them work with the maps of one load, the one whose programs
run. -/
theorem oneGeneration (exclusive : Exclusive pin) {w s t : World} {es fs : List Event}
    (down : w.process = .down) (free : ∀ name, w.pins name = none)
    (run : Run (Guarded (Unbroken pin) (Does (World.exec pin))) w es s)
    (later : Run (Guarded (Unbroken pin) (Does (World.exec pin))) s fs t)
    {before after : Maps} {first second : ReattachStatus} (returned : s.process = .returned before first)
    (returned' : t.process = .returned after second) : ∃ g, OneLoad g before ∧ OneLoad g after := by
  have unwiped : ∀ u e v, Guarded (Unbroken pin) (Does (World.exec pin)) u e v →
      Guarded Unwiped (Does (World.exec pin)) u e v := fun _ _ _ taken => ⟨taken.1.unwiped, taken.2⟩
  have heldNow : Held s := runHeld exclusive (StepRun.runWeaken unwiped run) fun _ _ inside => by
    rw [down] at inside
    exact absurd inside List.not_mem_nil
  have heldThen : Held t := runHeld exclusive (StepRun.runWeaken unwiped later) heldNow
  have start : Progress w := ⟨fun maps at_ => by rw [down] at at_; contradiction,
    .inl ⟨free, by simp [down], by simp [down], by simp [down]⟩⟩
  have preserved : ∀ u e v, Progress u → Unbroken pin u e → Does (World.exec pin) u e v → Progress v :=
    fun _ _ _ progress unbroken taken => progressStep exclusive progress (execStep taken) unbroken
  have progress : Progress s := StepRun.guardedInvariant preserved run start
  obtain ⟨g, stage⟩ := returnedStage progress returned
  have staged : ∀ u e v, Carries u ∧ Stage g u → Unbroken pin u e → Does (World.exec pin) u e v →
      Carries v ∧ Stage g v := fun _ _ _ both unbroken taken =>
    ⟨carriesStep (execStep taken) unbroken both.1, stageStep exclusive (execStep taken) unbroken both.2 both.1⟩
  have last := StepRun.guardedInvariant staged later ⟨progress.carries, stage⟩
  exact ⟨g, stageLoad stage heldNow returned, stageLoad last.2 heldThen returned'⟩

/-- A first start fails at its first pin, a second one loads. -/
def secondLoad : List Event :=
  [.start, .stat false, .load (some mapNames) true, .mkdir false, .pin true, .crash] ++ firstLoad

def secondMaps : Maps := mapNames.map fun name => (name, ⟨1, name⟩)

/-- A start that cannot see the sentinel loads, and fails at its first pin. -/
def thirdLoad : List Event :=
  [.crash, .start, .stat true, .load (some mapNames) true, .mkdir false, .pin false, .crash] ++ undisturbed

theorem oneGenerationCrash : ∃ t : World, t.loads = 3 ∧ t.process = .returned secondMaps .reused ∧
    ∃ g, OneLoad g secondMaps ∧ OneLoad g secondMaps := by
  obtain ⟨run, t, later, reused⟩ :
      Run (Guarded (Unbroken bpffs) (Does (World.exec bpffs))) .boot secondLoad (after secondLoad) ∧
        ∃ t, Run (Guarded (Unbroken bpffs) (Does (World.exec bpffs))) (after secondLoad) thirdLoad t ∧
          decide (t.loads = 3 ∧ t.process = .returned secondMaps .reused) = true :=
    afterSplit (by decide +kernel) (by decide +kernel)
  have loaded : (after secondLoad).process = .returned secondMaps .freshLoad := by decide +kernel
  obtain ⟨loads, reused'⟩ := of_decide_eq_true reused
  exact ⟨t, loads, reused', oneGeneration bpffsExclusive rfl (fun _ => rfl) run later loaded reused'⟩

/-- A daemon that stops between two pins, and a second one that fails on the first of them, leave maps of two loads. -/
example : (after ([.start, .stat false, .load (some [ascii "instance_registry", sentinel]) true, .mkdir false,
    .pin false, .crash, .start, .stat false, .load (some [sentinel, ascii "instance_registry"]) true, .mkdir false,
    .pin false, .pin false, .crash] ++ undisturbed)).process =
    .returned [(sentinel, ⟨1, sentinel⟩), (ascii "instance_registry", ⟨0, ascii "instance_registry"⟩)] .reused := by
  decide +kernel

end OmegaLb.PinnedMaps
