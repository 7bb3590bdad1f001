import OmegaLb.ChainOrder

/-! What the counters of the maps say about a run: each one is its value before, and one more for
every step that is to count in it, whatever the CPUs interleave. -/
namespace OmegaLb.ChainCounts
open DataPlane ChainOrder KernelMaps LbPolicy MetricsSteps PolicySteps RelayChain
open StepRun (Along Run)
open Reconcile (BackendEntry)

def accountsOn (cpu : Nat) (id : UInt32) (m : Mark) : Bool := m.cpu = some cpu ∧ m.did = .accounted id true

def splicedId (m : Mark) : Option UInt32 :=
  match m.did with
  | .relayed id true => some id
  | _ => none

def activeReqs (w : World) (id : UInt32) : Option UInt32 :=
  (w.kernel.instanceRegistry.lookup id).map BackendEntry.activeReqs

/-! ### metrics_collector's slots -/

theorem requestsLookup {k next : Kernel} {cpu : Nat} {id : UInt32}
    (same : next.instanceStats.lookup id = k.instanceStats.lookup id) : requests next cpu id = requests k cpu id := by
  unfold requests
  rw [same]

/-- Only the CPU's own slot of the backend is written. -/
theorem requestsInsert {k next : Kernel} {cpu : Nat} {id : UInt32} {slots : Nat → InstanceStats} {s : InstanceStats}
    (stats : next.instanceStats = k.instanceStats.insert id (Function.update slots cpu s))
    (before : ∀ at_, (slots at_).totalRequests = requests k at_ id)
    (one : s.totalRequests = requests k cpu id + 1) (at_ : Nat) (other : UInt32) :
    requests next at_ other = requests k at_ other + if at_ = cpu ∧ other = id then 1 else 0 := by
  by_cases same : other = id
  · subst same
    have here : requests next at_ other = (Function.update slots cpu s at_).totalRequests := by
      unfold requests
      rw [stats, AList.lookup_insert]
    rw [here]
    by_cases own : at_ = cpu
    · subst own
      rw [Function.update_self, one, if_pos ⟨rfl, rfl⟩]
    · rw [Function.update_of_ne own, before, if_neg fun both => own both.1]
      exact (UInt64.add_zero _).symm
  · rw [requestsLookup (k := k) (by rw [stats, AList.lookup_insert_ne same]), if_neg fun both => same both.2]
    exact (UInt64.add_zero _).symm

theorem foundBefore {k : Kernel} {id : UInt32} {slots : Nat → InstanceStats}
    (found : k.instanceStats.lookup id = some slots) (at_ : Nat) : (slots at_).totalRequests = requests k at_ id := by
  unfold requests
  rw [found]

theorem missingBefore {k : Kernel} {id : UInt32} (missing : k.instanceStats.lookup id = none) (at_ : Nat) :
    requests k at_ id = 0 := by
  unfold requests
  rw [missing]

/-! ### A step -/

structure Books (w next : World) (m : Mark) : Prop where
  relayed : next.kernel.relayed = w.kernel.relayed ++ (splicedId m).toList
  requests : ∀ cpu id, requests next.kernel cpu id =
    requests w.kernel cpu id + if accountsOn cpu id m then 1 else 0
  active : m.did ≠ .written → ∀ id ≠ 0, activeReqs next id =
    (activeReqs w id).map (· + if m.did = .picked id then 1 else 0)

/-- The steps that count in one of the maps. -/
def tallied : Did → Bool
  | .picked _ | .relayed _ true | .accounted _ true => true
  | _ => false

theorem activeKept {a : Option UInt32} : a = a.map (· + 0) := by
  cases a <;> simp

theorem requestsKept {w next : World} {m : Mark} (stats : next.kernel.instanceStats = w.kernel.instanceStats)
    (unaccounted : ∀ id, m.did ≠ .accounted id true) (cpu : Nat) (id : UInt32) :
    requests next.kernel cpu id = requests w.kernel cpu id + if accountsOn cpu id m then 1 else 0 := by
  have not : accountsOn cpu id m = false := decide_eq_false fun both => unaccounted id both.2
  rw [requestsLookup (k := w.kernel) (by rw [stats]), not]
  exact (UInt64.add_zero _).symm

theorem booksKept {w next : World} {m : Mark} (relayed : next.kernel.relayed = w.kernel.relayed)
    (stats : next.kernel.instanceStats = w.kernel.instanceStats)
    (registry : m.did ≠ .written → next.kernel.instanceRegistry = w.kernel.instanceRegistry)
    (untallied : tallied m.did = false) : Books w next m := by
  have not {did : Did} (counts : tallied did = true) : m.did ≠ did := fun same => by
    rw [same, counts] at untallied
    cases untallied
  constructor
  · have none_ : splicedId m = none := by
      unfold splicedId
      split
      · exact absurd ‹_› (not rfl)
      · rfl
    rw [none_, relayed]
    exact (List.append_nil _).symm
  · exact requestsKept stats fun _ => not rfl
  · intro unwritten id _
    rw [if_neg (not rfl), ← activeKept]
    unfold activeReqs
    rw [registry unwritten]

theorem spliceBooks (w : World) (cpu : Nat) (skops : SockOps) (called : Option Bool) : Books w
    ((w.splice cpu).follow cpu skops (.tailCall progMetrics))
    ⟨cpu, skops, .relayed (w.selected cpu) (w.kernel.redirectHash (w.selected cpu) = skPass), called⟩ := by
  unfold World.splice
  dsimp only
  by_cases spliced : w.kernel.redirectHash (w.selected cpu) = skPass
  · rw [if_pos spliced, decide_eq_true spliced]
    exact ⟨rfl, requestsKept rfl fun _ => by simp, fun _ _ _ => activeKept⟩
  · rw [if_neg spliced, decide_eq_false spliced]
    exact booksKept rfl rfl (fun _ => rfl) rfl

/-- A step that counts for its CPU's slot of `id` and leaves the registry and the redirections. -/
theorem accountBooks {w next : World} {cpu : Nat} {skops : SockOps} {id : UInt32} {called : Option Bool}
    (relayed : next.kernel.relayed = w.kernel.relayed)
    (registry : next.kernel.instanceRegistry = w.kernel.instanceRegistry)
    (counts : ∀ at_ other, requests next.kernel at_ other =
      requests w.kernel at_ other + if at_ = cpu ∧ other = id then 1 else 0) :
    Books w next ⟨cpu, skops, .accounted id true, called⟩ := by
  refine ⟨relayed.trans (List.append_nil _).symm, fun at_ other => ?_, fun _ other _ => ?_⟩
  · rw [counts]
    by_cases own : at_ = cpu ∧ other = id
    · obtain ⟨rfl, rfl⟩ := own
      simp [accountsOn]
    · have apart : accountsOn at_ other ⟨cpu, skops, .accounted id true, called⟩ = false := by
        refine decide_eq_false fun both => own ⟨(Option.some.inj both.1).symm, ?_⟩
        exact (Did.accounted.inj both.2).1.symm
      rw [if_neg own, apart]
      rfl
  · unfold activeReqs
    rw [registry, if_neg (by simp)]
    exact activeKept

theorem createBooks (w : World) (cpu : Nat) (skops : SockOps) (s : Seen) (chain : Option Chain) : Books w
    ((w.withKernel { w.kernel with
      instanceStats := updateNoExist w.kernel.instanceStats s.id (newSlots cpu s.now) }).goOn cpu chain)
    ⟨cpu, skops, .accounted s.id (s.id ∉ w.kernel.instanceStats ∧ Fits w.kernel.instanceStats s.id), none⟩ := by
  by_cases kept : s.id ∉ w.kernel.instanceStats ∧ Fits w.kernel.instanceStats s.id
  · rw [decide_eq_true kept]
    have missing := AList.lookup_eq_none.mpr kept.1
    refine accountBooks rfl rfl
      (@requestsInsert _ _ _ _ (fun _ => {}) { totalRequests := 1, lastReqTsNs := s.now } ?_ ?_ ?_)
    · change updateNoExist w.kernel.instanceStats s.id (newSlots cpu s.now) = _
      rw [updateNoExist, if_neg kept.1, updateElem, if_pos kept.2]
      rfl
    · exact fun at_ => (missingBefore missing at_).symm
    · rw [missingBefore missing]
      rfl
  · rw [decide_eq_false kept]
    have same : updateNoExist w.kernel.instanceStats s.id (newSlots cpu s.now) = w.kernel.instanceStats := by
      unfold updateNoExist updateElem
      split
      · rfl
      · exact if_neg fun fits => kept ⟨‹_›, fits⟩
    exact booksKept rfl same (fun _ => rfl) rfl

theorem stageBooks (w : World) (cpu : Nat) (skops : SockOps) (reserved : Bool) (stage : Stage) (chain : Option Chain) :
    Books w ((w.withKernel (stage.step w.kernel cpu reserved).1).goOn cpu chain)
      ⟨cpu, skops, stageDid w.kernel stage, none⟩ := by
  have kept := (stepKeeps w.kernel cpu reserved stage).same
  have rest (stats : (stage.step w.kernel cpu reserved).1.instanceStats = w.kernel.instanceStats)
      (untallied : tallied (stageDid w.kernel stage) = false) : Books w
      ((w.withKernel (stage.step w.kernel cpu reserved).1).goOn cpu chain)
      ⟨cpu, skops, stageDid w.kernel stage, none⟩ := by
    refine booksKept ?_ stats (fun _ => ?_) untallied
    · rw [kernelGoOn, kernelWith, kept]
    · rw [kernelGoOn, kernelWith, kept]
  cases stage with
  | creating s => exact createBooks w cpu skops s chain
  | judging s stats =>
    refine rest ?_ rfl
    rw [Stage.step]
    split
    · rfl
    · split <;> rfl
  | closing s latencyNs => exact rest rfl rfl
  | emitting s latencyNs =>
    refine rest ?_ rfl
    rw [Stage.step]
    exact (emitKeeps ..).1

theorem pickActive (k : Kernel) (cpu : Nat) (id : UInt32) (be : BackendEntry) (other : UInt32) :
    ((pick k cpu id be).instanceRegistry.lookup other).map BackendEntry.activeReqs =
      ((k.instanceRegistry.lookup other).map BackendEntry.activeReqs).map (· + if id = other then 1 else 0) := by
  unfold pick
  dsimp only
  by_cases same : id = other
  · subst same
    rw [if_pos rfl]
    cases found : k.instanceRegistry.lookup id with
    | none => rw [found]; rfl
    | some now => rw [AList.lookup_insert]; rfl
  · rw [if_neg same]
    cases found : k.instanceRegistry.lookup id with
    | none => exact activeKept
    | some now =>
      dsimp only
      rw [AList.lookup_insert_ne (Ne.symm same)]
      exact activeKept

theorem pickBooks (w : World) (cpu : Nat) (skops : SockOps) (id : UInt32) (be : BackendEntry) (called : Option Bool) :
    Books w ((w.withKernel (pick w.kernel cpu id be)).follow cpu skops (.tailCall progConnRelay))
      ⟨cpu, skops, .picked id, called⟩ := by
  refine ⟨(List.append_nil _).symm, requestsKept rfl fun _ => by simp, fun _ other _ => ?_⟩
  unfold activeReqs
  rw [kernelFollow, kernelWith, pickActive]
  simp only [Did.picked.injEq]

/-- A pick of 0 counts for instance 0 alone. -/
theorem pickZeroBooks (w : World) (cpu : Nat) (skops : SockOps) (be : BackendEntry) (called : Option Bool) : Books w
    ((w.withKernel (pick w.kernel cpu 0 be)).goOn cpu none) ⟨cpu, skops, .unrouted, called⟩ := by
  refine ⟨(List.append_nil _).symm, requestsKept rfl fun _ => by simp, fun _ other nonzero => ?_⟩
  unfold activeReqs
  rw [kernelGoOn, kernelWith, pickActive, if_neg (Ne.symm nonzero), if_neg (by simp)]

theorem advancedBooks {w next : World} {cpu : Nat} {skops : SockOps} {o : Outside} {point : Point} {did : Did}
    (advanced : Advanced w cpu skops o point next did) :
    Books w next ⟨cpu, skops, did, did.calls.map next.kernel.progArray⟩ := by
  cases advanced with
  | unlimited | admitted | overdrawn | refunded | dropped | counted | unseen | inserted | stopped | routed | searched | ringless | looked
  | chosen | unrouted | unspliced | missed | unmeasured =>
    exact booksKept rfl rfl (fun _ => rfl) rfl
  | picked nonzero => exact pickBooks ..
  | pickedZero => exact pickZeroBooks ..
  | relayed => exact spliceBooks ..
  | @accounted slots _ _ found =>
    refine accountBooks rfl rfl (requestsInsert rfl (foundBefore found) ?_)
    rw [booked, judgedRequests, foundBefore found]
  | measured stage =>
    rw [stageCalls]
    exact stageBooks ..

theorem stepBooks {w next : World} {e : Move × Mark} (step : Steps w e next) : Books w next e.2 := by
  obtain ⟨move, mark⟩ := e
  cases move with
  | send cpu skops =>
    obtain ⟨_, ⟨rfl, rfl⟩ | ⟨rfl, rfl⟩⟩ := stepsSend step
    all_goals exact booksKept rfl rfl (fun _ => rfl) rfl
  | go cpu o =>
    obtain ⟨skops, point, did, _, rfl, advanced⟩ := stepsGo step
    exact advancedBooks advanced
  | control c =>
    obtain ⟨rfl, rfl⟩ := stepsControl step
    exact booksKept rfl rfl (fun written => absurd rfl written) rfl

/-! ### A run -/

/-- Every counter at the end of a run, from its value at the start. The registry is the control
plane's to write, so its counts stand for runs without such a write. -/
structure Ledger (w final : World) (marks : List Mark) : Prop where
  relayed : final.kernel.relayed = w.kernel.relayed ++ marks.filterMap splicedId
  requests : ∀ cpu id, requests final.kernel cpu id =
    requests w.kernel cpu id + UInt64.ofNat (marks.countP (accountsOn cpu id))
  active : (∀ m ∈ marks, m.did ≠ .written) → ∀ id ≠ 0, activeReqs final id =
    (activeReqs w id).map (· + UInt32.ofNat (marks.countP fun m => m.did = .picked id))

theorem countersExact {w final : World} {es : List (Move × Mark)} (run : Run Steps w es final) :
    Ledger w final (es.map Prod.snd) := by
  induction run with
  | nil w => exact ⟨(List.append_nil _).symm, fun _ _ => (UInt64.add_zero _).symm, fun _ _ _ => activeKept⟩
  | @cons w e t es final head tail ih =>
    obtain ⟨relayed, requests_, active⟩ := stepBooks head
    obtain ⟨laterRelayed, laterRequests, laterActive⟩ := ih
    constructor
    · rw [laterRelayed, relayed, List.append_assoc, List.map_cons, List.filterMap_cons]
      cases splicedId e.2 <;> rfl
    · intro cpu id
      rw [laterRequests, requests_, List.map_cons, List.countP_cons, UInt64.ofNat_add, UInt64.add_assoc]
      split
      · rw [UInt64.add_comm 1]
        rfl
      · rw [UInt64.zero_add]
        exact congrArg _ (UInt64.add_zero _).symm
    · intro unwritten id nonzero
      rw [List.map_cons, List.forall_mem_cons] at unwritten
      rw [laterActive unwritten.2 id nonzero, active unwritten.1 id nonzero, Option.map_map, List.map_cons,
        List.countP_cons, UInt32.ofNat_add]
      congr 1
      funext count
      simp only [Function.comp_apply, decide_eq_true_eq]
      split
      · rw [UInt32.add_assoc, UInt32.add_comm 1]
        rfl
      · rw [UInt32.add_zero]
        exact congrArg _ (UInt32.add_zero _).symm

/-! ### No request is lost -/

def Loaded (w : World) : Prop :=
  ∀ slot ∈ [progRouteManager, RouteManager.progLbPolicy, progConnRelay, progMetrics], w.kernel.progArray slot = true

/-- No i-sock for the backend. -/
def unspliced : Did → Bool
  | .unspliced _ => true
  | _ => false

def measured : Did → Bool
  | .emitted _ _ => true
  | _ => false

def ends (did : Did) : Bool := did = .dropped ∨ did = .unrouted ∨ unspliced did ∨ measured did ∨ did = .stopped

def busy (w : World) (cpu : Nat) : Nat := if (w.running cpu).isSome then 1 else 0

theorem advancedEnds {w next : World} {cpu : Nat} {skops : SockOps} {o : Outside} {point : Point} {did : Did}
    (advanced : Advanced w cpu skops o point next did) (loaded : Loaded next) :
    (next.running cpu).isSome = !ends did ∧ did ≠ .entered := by
  have goes : ∀ {v : World} {slot : Nat}, Loaded (v.follow cpu skops (.tailCall slot)) →
      slot ∈ [progRouteManager, RouteManager.progLbPolicy, progConnRelay, progMetrics] →
      ((v.follow cpu skops (.tailCall slot)).running cpu).isSome = true := by
    intro v slot loaded filled
    have here : v.kernel.progArray slot = true := loaded slot filled
    rw [runningFollow, Function.update_self, if_pos here]
    rfl
  cases advanced with
  | counted => exact ⟨goes loaded (by decide), by simp⟩
  | inserted => exact ⟨goes loaded (by decide), by simp⟩
  | routed => exact ⟨goes loaded (by decide), by simp⟩
  | picked => exact ⟨goes loaded (by decide), by simp⟩
  | relayed => exact ⟨goes loaded (by decide), by simp⟩
  | unlimited | admitted | overdrawn | refunded | dropped | unseen | stopped | searched | ringless | looked | chosen | unrouted
  | pickedZero | unspliced | accounted | missed | unmeasured =>
    simp [ends, unspliced, measured]
  | measured stage =>
    rw [runningGoOn, Function.update_self, Option.isSome_map]
    cases stage with
    | judging s stats =>
      rw [Stage.step]
      split
      · exact ⟨rfl, by simp [stageDid]⟩
      · split <;> exact ⟨rfl, by simp [stageDid]⟩
    | creating | closing | emitting => exact ⟨rfl, by simp [stageDid]⟩

theorem stepEnds {w next : World} {e : Move × Mark} (step : Steps w e next) (loaded : Loaded next) (cpu : Nat) :
    (marksOn cpu [e]).countP (·.did = .entered) + busy w cpu =
      (marksOn cpu [e]).countP (ends ·.did) + busy next cpu := by
  by_cases here : e.2.cpu = some cpu
  · rw [marksHere here]
    obtain ⟨move, mark⟩ := e
    unfold busy
    cases move with
    | send other skops =>
      obtain ⟨idle, ⟨rfl, rfl⟩ | ⟨rfl, rfl⟩⟩ := stepsSend step
      · cases Option.some.inj here
        simp [idle, marksOn, ends, unspliced, measured]
      · simp [marksOn, ends, unspliced, measured]
    | go other o =>
      obtain ⟨skops, point, did, at_, rfl, advanced⟩ := stepsGo step
      cases Option.some.inj here
      obtain ⟨goes, unentered⟩ := advancedEnds advanced loaded
      rw [at_, goes]
      cases finished : ends did <;> simp [marksOn, finished, unentered]
    | control c =>
      obtain ⟨rfl, rfl⟩ := stepsControl step
      cases here
  · rw [marksElsewhere here]
    unfold busy
    rw [(stepElsewhere step here).1]
    rfl

theorem runEnds {w final : World} {es : List (Move × Mark)} (run : Run (Along Loaded Steps) w es final) (cpu : Nat) :
    (marksOn cpu es).countP (·.did = .entered) + busy w cpu =
      (marksOn cpu es).countP (ends ·.did) + busy final cpu := by
  induction run with
  | nil w => rfl
  | @cons w e t es final head tail ih =>
    have step := stepEnds head.1 head.2 cpu
    have split : marksOn cpu (e :: es) = marksOn cpu [e] ++ marksOn cpu es := marksAppend cpu [e] es
    rw [split, List.countP_append, List.countP_append]
    omega

theorem neverStopped {q : Mark} {ms : List Mark} (chain : (q :: ms).IsChain Follows) :
    ∀ m ∈ ms, m.did ≠ .stopped := by
  induction ms generalizing q with
  | nil => exact fun m inside => absurd inside List.not_mem_nil
  | cons a rest ih =>
    rw [List.isChain_cons_cons] at chain
    refine List.forall_mem_cons.mpr ⟨fun same => ?_, ih chain.2⟩
    rcases chain.1 with ⟨_, _, next_⟩ | ⟨_, starts⟩
    · rw [same] at next_
      generalize q.did = before at next_
      cases next_
    · rw [same] at starts
      simp at starts

theorem endsCount (ms : List Mark) (unstopped : ∀ m ∈ ms, m.did ≠ .stopped) :
    ms.countP (ends ·.did) = ms.countP (·.did = .dropped) + ms.countP (·.did = .unrouted) +
      ms.countP (unspliced ·.did) + ms.countP (measured ·.did) := by
  induction ms with
  | nil => rfl
  | cons m rest ih =>
    obtain ⟨running, later⟩ := List.forall_mem_cons.mp unstopped
    simp only [List.countP_cons, ih later]
    generalize m.did = did at running
    cases did <;> simp [ends, unspliced, measured] at running ⊢ <;> omega

/-- While the four programs behind filter_manager stay loaded, every request that enters on a
CPU is dropped by the gate, finds no backend, finds no i-sock, is measured, or is the one under way. -/
theorem requestsConserved {w final : World} {es : List (Move × Mark)} (quiet : Quiet w)
    (run : Run (Along Loaded Steps) w es final) (cpu : Nat) :
    (marksOn cpu es).countP (·.did = .entered) =
      (marksOn cpu es).countP (·.did = .dropped) + (marksOn cpu es).countP (·.did = .unrouted) +
        (marksOn cpu es).countP (unspliced ·.did) + (marksOn cpu es).countP (measured ·.did) + busy final cpu := by
  have chain := runFollows (StepRun.runWeaken (fun _ _ _ => And.left) run) (quietStands quiet cpu)
  have total := runEnds run cpu
  have idle : busy w cpu = 0 := by
    rw [busy, quiet cpu]
    rfl
  rw [endsCount _ (neverStopped chain), idle] at total
  exact total

/-! ### Two CPUs -/

theorem advancedProgs {w next : World} {cpu : Nat} {skops : SockOps} {o : Outside} {point : Point} {did : Did}
    (advanced : Advanced w cpu skops o point next did) : next.kernel.progArray = w.kernel.progArray := by
  cases advanced with
  | relayed =>
    rw [kernelFollow]
    unfold World.splice
    dsimp only
    split <;> rfl
  | measured stage =>
    rw [kernelGoOn, kernelWith, (stepKeeps w.kernel cpu o.reading.reserved stage).same]
  | unlimited | admitted | overdrawn | refunded | dropped | counted | unseen | inserted | stopped | routed | searched | ringless | looked
  | chosen | unrouted | picked | pickedZero | unspliced | accounted | missed | unmeasured =>
    rfl

/-- Only the control plane unloads a program. -/
theorem runLoaded {w final : World} {es : List (Move × Mark)} (run : Run Steps w es final) (loaded : Loaded w)
    (unwritten : ∀ e ∈ es, e.2.did ≠ .written) : Run (Along Loaded Steps) w es final := by
  induction run with
  | nil w => exact .nil w
  | @cons w e t es final head tail ih =>
    obtain ⟨here, later⟩ := List.forall_mem_cons.mp unwritten
    have kept : t.kernel.progArray = w.kernel.progArray := by
      obtain ⟨move, mark⟩ := e
      cases move with
      | send cpu skops =>
        obtain ⟨_, ⟨_, rfl⟩ | ⟨_, rfl⟩⟩ := stepsSend head <;> rfl
      | go cpu o =>
        obtain ⟨_, _, _, _, _, advanced⟩ := stepsGo head
        exact advancedProgs advanced
      | control c => exact absurd (congrArg Mark.did (stepsControl head).1) here
    have still : Loaded t := fun slot filled => by rw [kept, loaded slot filled]
    exact .cons ⟨head, still⟩ (ih still later)

theorem countersExactOverlap : ∃ final, Run Steps served overlapping final ∧
    Ledger served final (overlapping.map Prod.snd) ∧ final.kernel.relayed = [1, 1] := by
  obtain ⟨final, run⟩ := overlappingRun
  have ledger := countersExact run
  exact ⟨final, run, ledger, ledger.relayed⟩

theorem requestsConservedOverlap : ∃ final, Run (Along Loaded Steps) served overlapping final ∧
    ∀ cpu, (marksOn cpu overlapping).countP (·.did = .entered) =
      (marksOn cpu overlapping).countP (·.did = .dropped) + (marksOn cpu overlapping).countP (·.did = .unrouted) +
        (marksOn cpu overlapping).countP (unspliced ·.did) + (marksOn cpu overlapping).countP (measured ·.did) +
        busy final cpu := by
  obtain ⟨final, run⟩ := overlappingRun
  have along := runLoaded run (fun _ _ => rfl) (by decide)
  exact ⟨final, along, requestsConserved (fun _ => rfl) along⟩

end OmegaLb.ChainCounts
