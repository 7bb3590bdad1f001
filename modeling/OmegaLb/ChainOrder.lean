import OmegaLb.DataPlane

/-! What one CPU does, taken out of a run of all of them: its steps make up chains in the order
of the programs, each about one request and one selection, whatever falls between them. -/
namespace OmegaLb.ChainOrder
open DataPlane KernelMaps LbPolicy MetricsSteps PolicySteps RelayChain RouteManager
open StepRun (Run)
open Reconcile (BackendEntry)

inductive Next : Did → Did → Prop where
  | enter : Next .entered .admitted
  | overdraw : Next .entered .overdrawn
  | drop : Next .overdrawn .dropped
  | count : Next .admitted .counted
  | seek : Next .admitted .unseen
  | insert : Next .unseen .counted
  | route (cluster : UInt32) : Next .counted (.routed cluster)
  | search (cluster : UInt32) : Next (.routed cluster) .looked
  | ringless (cluster : UInt32) : Next (.routed cluster) .unrouted
  | look : Next .looked .looked
  | pick (id : UInt32) : Next .looked (.picked id)
  | pass : Next .looked .unrouted
  | relay (id : UInt32) (spliced : Bool) : Next (.picked id) (.relayed id spliced)
  | lose (id : UInt32) : Next (.picked id) (.unspliced id)
  | account (id : UInt32) (spliced : Bool) : Next (.relayed id spliced) (.accounted id true)
  | miss (id : UInt32) (spliced : Bool) : Next (.relayed id spliced) (.missed id)
  | create (id : UInt32) (kept : Bool) : Next (.missed id) (.accounted id kept)
  | settle (id : UInt32) (kept : Bool) : Next (.accounted id kept) (.settled id)
  | settleAgain (id : UInt32) : Next (.settled id) (.settled id)
  | emit (id : UInt32) (kept isError : Bool) : Next (.accounted id kept) (.emitted id isError)
  | emitSettled (id : UInt32) (isError : Bool) : Next (.settled id) (.emitted id isError)

/-- The steps that return a verdict and make no tail call. -/
def final : Did → Bool
  | .ignored | .dropped | .unrouted | .unspliced _ | .emitted _ _ => true
  | _ => false

/-- The chain ends with this step: with its verdict, or as its tail call has found an empty slot. -/
def Over (m : Mark) : Prop := final m.did = true ∨ m.called = some false

def Follows (a b : Mark) : Prop :=
  (¬ Over a ∧ b.skops = a.skops ∧ Next a.did b.did) ∨ (Over a ∧ b.did ∈ [Did.entered, .ignored])

def marksOn (cpu : Nat) (es : List (Move × Mark)) : List Mark :=
  (es.map Prod.snd).filter fun m => decide (m.cpu = some cpu)

def Quiet (w : World) : Prop := ∀ cpu, w.running cpu = none

def quietMark (cpu : Nat) : Mark := ⟨cpu, noSkops, .ignored, none⟩

/-! ### Where a chain stands after each of its steps -/

/-- A stage that has `s` counted or given up. -/
inductive Counted (s : Seen) : Stage → Prop where
  | judging (stats : InstanceStats) : Counted s (.judging s stats)
  | closing (latencyNs : UInt64) : Counted s (.closing s latencyNs)
  | emitting (latencyNs : UInt64) : Counted s (.emitting s latencyNs)

/-- The depth counter and the selection of the CPU after a step, and what comes next. -/
inductive Reached : UInt32 → UInt32 → Did → Point → Prop where
  | entered (id) : Reached 0 id .entered .limiting
  | overdrawn (id) : Reached 0 id .overdrawn .refusing
  | admitted (id) : Reached 0 id .admitted .counting
  | unseen (id) : Reached 0 id .unseen .inserting
  | counted (id) : Reached 0 id .counted (.program progRouteManager)
  | routed (id cluster) : Reached 1 id (.routed cluster) (.program progLbPolicy)
  | looked (id walk) : Reached 2 id .looked (.walking walk)
  | chosen (id other be) : Reached 2 id .looked (.choosing other be)
  | picked {id} (nonzero : id ≠ 0) : Reached 2 id (.picked id) (.program progConnRelay)
  | relayed {id} (spliced) (nonzero : id ≠ 0) : Reached 3 id (.relayed id spliced) (.program progMetrics)
  | missed (id s) : Reached 4 id (.missed s.id) (.measuring (.creating s))
  | accounted (id kept) {s : Seen} {stage} (counted : Counted s stage) :
      Reached 4 id (.accounted s.id kept) (.measuring stage)
  | settled (id) {s : Seen} {stage} (counted : Counted s stage) :
      Reached 4 id (.settled s.id) (.measuring stage)

def Stands (w : World) (cpu : Nat) (m : Mark) : Prop :=
  (w.running cpu = none ∧ Over m) ∨
    ¬ Over m ∧ ∃ point, w.running cpu = some ⟨m.skops, point⟩ ∧
      Reached (w.kernel.tailDepth cpu) (w.selected cpu) m.did point

theorem standsKept {w next : World} {cpu : Nat} {m : Mark} (stands : Stands w cpu m)
    (running : next.running cpu = w.running cpu) (depth : next.kernel.tailDepth cpu = w.kernel.tailDepth cpu)
    (selection : next.kernel.selection cpu = w.kernel.selection cpu) : Stands next cpu m := by
  unfold Stands World.selected at *
  rwa [running, depth, selection]

theorem advancedElsewhere {w next : World} {cpu other : Nat} {skops : SockOps} {o : Outside} {point : Point}
    {did : Did} (advanced : Advanced w cpu skops o point next did) (apart : other ≠ cpu) :
    next.running other = w.running other ∧ next.kernel.tailDepth other = w.kernel.tailDepth other ∧
      next.kernel.selection other = w.kernel.selection other := by
  cases advanced with
  | counted | inserted => exact ⟨Function.update_of_ne apart .., rfl, rfl⟩
  | unlimited | admitted | overdrawn | refunded | dropped | unseen | stopped | routed | searched | ringless | looked
  | chosen | unrouted | picked | pickedZero | relayed | unspliced | accounted | missed | unmeasured | measured =>
    simp [Kernel.deeper, apart]

theorem stepElsewhere {w next : World} {e : Move × Mark} {cpu : Nat} (step : Steps w e next)
    (apart : e.2.cpu ≠ some cpu) :
    next.running cpu = w.running cpu ∧ next.kernel.tailDepth cpu = w.kernel.tailDepth cpu ∧
      next.kernel.selection cpu = w.kernel.selection cpu := by
  obtain ⟨move, mark⟩ := e
  cases move with
  | send at_ skops =>
    obtain ⟨idle, ⟨rfl, rfl⟩ | ⟨rfl, rfl⟩⟩ := stepsSend step
    · have other : cpu ≠ at_ := fun same => apart (congrArg some same.symm)
      simp [World.filterManager, World.goOn, World.kernel, other]
    · exact ⟨rfl, rfl, rfl⟩
  | go at_ o =>
    obtain ⟨skops, point, did, busy, rfl, advanced⟩ := stepsGo step
    exact advancedElsewhere advanced fun same => apart (congrArg some same.symm)
  | control c =>
    obtain ⟨rfl, rfl⟩ := stepsControl step
    exact ⟨rfl, rfl, rfl⟩

theorem reachedShallow {depth id : UInt32} {did : Did} {point : Point} (reached : Reached depth id did point) :
    depth < tailCallDepthMax := by
  cases reached <;> decide

theorem depthDeeper {k : Kernel} {cpu : Nat} {d : UInt32} (depth : k.tailDepth cpu = d) :
    (k.deeper cpu).tailDepth cpu = d + 1 :=
  (Function.update_self ..).trans (congrArg (· + 1) depth)

theorem standsOver {w : World} {cpu : Nat} {skops : SockOps} {did : Did} {called : Option Bool}
    (finished : final did = true) : Stands (w.goOn cpu none) cpu ⟨cpu, skops, did, called⟩ :=
  .inl ⟨by simp, .inl finished⟩

section
variable {w : World} {cpu : Nat} {skops : SockOps} {did : Did} {d : UInt32} (depth : w.kernel.tailDepth cpu = d)
include depth

theorem standsOn {point : Point} (going : final did = false) (reached : Reached d (w.selected cpu) did point) :
    Stands (w.goOn cpu (some ⟨skops, point⟩)) cpu ⟨cpu, skops, did, none⟩ :=
  .inr ⟨by simp [Over, going], point, by simp, depth ▸ reached⟩

theorem standsTail {slot : Nat} (calls : did.calls = some slot) (going : final did = false)
    (reached : Reached d (w.selected cpu) did (.program slot)) : Stands (w.follow cpu skops (.tailCall slot)) cpu
      ⟨cpu, skops, did, did.calls.map (w.follow cpu skops (.tailCall slot)).kernel.progArray⟩ := by
  rw [calls, kernelFollow]
  by_cases loaded : w.kernel.progArray slot = true
  · refine .inr ⟨by simp [Over, going, loaded], .program slot, ?_, depth ▸ reached⟩
    rw [runningFollow, Function.update_self, if_pos loaded]
  · refine .inl ⟨?_, .inr (by simp [loaded])⟩
    rw [runningFollow, Function.update_self, if_neg loaded]

end

theorem stageStands {w : World} {cpu : Nat} {skops : SockOps} {did : Did} {o : Outside} {s : Seen} {stage : Stage}
    (counted : Counted s stage) (settle : Next did (.settled s.id)) (emit : ∀ isError, Next did (.emitted s.id isError))
    (depth : w.kernel.tailDepth cpu = 4) :
    Next did (stageDid w.kernel stage) ∧ Stands ((w.withKernel (stage.step w.kernel cpu o.reading.reserved).1).goOn cpu
      ((stage.step w.kernel cpu o.reading.reserved).2.map fun stage => ⟨skops, .measuring stage⟩)) cpu
      ⟨cpu, skops, stageDid w.kernel stage, none⟩ := by
  have kept : (w.withKernel (stage.step w.kernel cpu o.reading.reserved).1).kernel.tailDepth cpu = 4 := by
    rw [kernelWith, depthStage, depth]
  have settles {next : Stage} (is : (stage.step w.kernel cpu o.reading.reserved).2 = some next)
      (later : Counted s next) : Stands ((w.withKernel (stage.step w.kernel cpu o.reading.reserved).1).goOn cpu
        ((stage.step w.kernel cpu o.reading.reserved).2.map fun stage => ⟨skops, .measuring stage⟩)) cpu
        ⟨cpu, skops, .settled s.id, none⟩ := by
    rw [is]
    exact standsOn kept rfl (.settled _ later)
  cases counted with
  | judging stats =>
    refine ⟨settle, ?_⟩
    unfold Stage.step at settles ⊢
    by_cases failed : s.isError = true
    · simp only [if_pos failed] at settles ⊢
      exact settles rfl (.emitting _)
    · by_cases closed : w.kernel.circuitState.lookup s.id = some circuitClosed
      · simp only [if_neg failed, if_pos closed] at settles ⊢
        exact settles rfl (.emitting _)
      · simp only [if_neg failed, if_neg closed] at settles ⊢
        exact settles rfl (.closing _)
  | closing latencyNs => exact ⟨settle, settles rfl (.emitting latencyNs)⟩
  | emitting latencyNs => exact ⟨emit _, standsOver rfl⟩

theorem advancedStands {w next : World} {cpu : Nat} {skops : SockOps} {o : Outside} {point : Point}
    {before did : Did} (reached : Reached (w.kernel.tailDepth cpu) (w.selected cpu) before point)
    (advanced : Advanced w cpu skops o point next did) :
    Next before did ∧ Stands next cpu ⟨cpu, skops, did, did.calls.map next.kernel.progArray⟩ := by
  -- the chain has four guarded programs, so the depth guard is never what stops it
  have shallow := reachedShallow reached
  generalize depth : w.kernel.tailDepth cpu = d at reached
  generalize selected : w.selected cpu = id at reached
  cases reached with
  | entered =>
    cases advanced with
    | unlimited free => exact ⟨.enter, standsOn depth rfl (.admitted _)⟩
    | admitted read positive => exact ⟨.enter, standsOn depth rfl (.admitted _)⟩
    | overdrawn read empty => exact ⟨.overdraw, standsOn depth rfl (.overdrawn _)⟩
  | overdrawn =>
    cases advanced with
    | refunded read => exact ⟨.drop, standsOver rfl⟩
    | dropped gone => exact ⟨.drop, standsOver rfl⟩
  | admitted =>
    cases advanced with
    | counted found => exact ⟨.count, standsTail depth rfl rfl (.counted _)⟩
    | unseen missing => exact ⟨.seek, standsOn depth rfl (.unseen _)⟩
  | unseen =>
    cases advanced with
    | inserted => exact ⟨.insert, standsTail depth rfl rfl (.counted _)⟩
  | counted =>
    cases advanced with
    | stopped no => exact absurd no (by simp [shallow, progRouteManager])
    | routed => exact ⟨.route _, standsTail (w := w.route cpu) (depthDeeper depth) rfl rfl (.routed ..)⟩
  | routed =>
    cases advanced with
    | stopped no => exact absurd no (by simp [shallow, progLbPolicy])
    | searched => exact ⟨.search _, standsOn (w := w.deeper cpu) (depthDeeper depth) rfl (.looked ..)⟩
    | ringless => exact ⟨.ringless _, standsOver rfl⟩
  | looked =>
    cases advanced with
    | looked look => exact ⟨.look, standsOn depth rfl (.looked ..)⟩
    | chosen look => exact ⟨.look, standsOn depth rfl (.chosen ..)⟩
    | unrouted look => exact ⟨.pass, standsOver rfl⟩
  | chosen _ other be =>
    cases advanced with
    | picked nonzero =>
      have chosen : (w.withKernel (pick w.kernel cpu other be)).selected cpu = other := by
        simp [World.selected]
      refine ⟨.pick _, standsTail (w := w.withKernel (pick w.kernel cpu other be)) depth rfl rfl ?_⟩
      rw [chosen]
      exact .picked nonzero
    | pickedZero => exact ⟨.pass, standsOver rfl⟩
  | picked nonzero =>
    cases advanced with
    | stopped no => exact absurd no (by simp [shallow, progConnRelay])
    | relayed =>
      have kept : (w.splice cpu).selected cpu = id := by
        rw [World.selected, selectionSplice]
        exact selected
      have deeper : (w.splice cpu).kernel.tailDepth cpu = 3 := by
        rw [depthSplice]
        exact depthDeeper depth
      rw [selected]
      refine ⟨.relay .., standsTail deeper rfl rfl ?_⟩
      rw [kept]
      exact .relayed _ nonzero
    | unspliced =>
      rw [selected]
      exact ⟨.lose _, standsOver rfl⟩
  | relayed spliced nonzero =>
    cases advanced with
    | stopped no => exact absurd no (by simp [shallow, progMetrics])
    | accounted =>
      refine ⟨selected ▸ .account .., standsOn (w := w.book cpu o _) (depthDeeper depth) rfl ?_⟩
      exact .accounted _ true (.judging (s := w.seen cpu o) _)
    | missed =>
      refine ⟨selected ▸ .miss .., standsOn (w := w.deeper cpu) (depthDeeper depth) rfl ?_⟩
      exact .missed _ (w.seen cpu o)
    | unmeasured _ zero => exact absurd (selected.symm.trans zero) nonzero
  | missed _ s =>
    cases advanced with
    | measured => exact ⟨.create .., standsOn depth rfl (.accounted _ _ (.emitting 0))⟩
  | accounted _ kept counted =>
    cases advanced with
    | measured =>
      rw [stageCalls]
      exact stageStands counted (.settle ..) (fun _ => .emit ..) depth
  | settled _ counted =>
    cases advanced with
    | measured =>
      rw [stageCalls]
      exact stageStands counted (.settleAgain _) (fun _ => .emitSettled ..) depth

/-! ### A step, and a run -/

theorem stepFollows {w next : World} {e : Move × Mark} {cpu : Nat} {last : Mark}
    (stands : Stands w cpu last) (step : Steps w e next) (here : e.2.cpu = some cpu) :
    Follows last e.2 ∧ Stands next cpu e.2 := by
  obtain ⟨move, mark⟩ := e
  cases move with
  | send other skops =>
    obtain ⟨idle, which⟩ := stepsSend step
    have finished : w.running cpu = none → Over last := by
      intro none_
      rcases stands with ⟨_, finished⟩ | ⟨_, point, busy, _⟩
      · exact finished
      · cases none_.symm.trans busy
    rcases which with ⟨rfl, rfl⟩ | ⟨rfl, rfl⟩
    · cases Option.some.inj here
      have reset : (w.filterManager cpu skops).kernel.tailDepth cpu = 0 := Function.update_self ..
      exact ⟨.inr ⟨finished idle, by simp⟩, standsOn reset rfl (.entered _)⟩
    · cases Option.some.inj here
      exact ⟨.inr ⟨finished idle, by simp⟩, .inl ⟨idle, .inl rfl⟩⟩
  | go at_ o =>
    obtain ⟨skops, point, did, busy, rfl, advanced⟩ := stepsGo step
    cases Option.some.inj here
    rcases stands with ⟨none_, _⟩ | ⟨going, point', busy', reached⟩
    · cases none_.symm.trans busy
    · cases busy'.symm.trans busy
      obtain ⟨next_, after⟩ := advancedStands reached advanced
      exact ⟨.inl ⟨going, rfl, next_⟩, after⟩
  | control c =>
    obtain ⟨rfl, rfl⟩ := stepsControl step
    cases here

theorem marksHere {cpu : Nat} {e : Move × Mark} (here : e.2.cpu = some cpu) (es : List (Move × Mark)) :
    marksOn cpu (e :: es) = e.2 :: marksOn cpu es := by
  rw [marksOn, List.map_cons, List.filter_cons_of_pos (by simpa using here)]
  rfl

theorem marksElsewhere {cpu : Nat} {e : Move × Mark} (apart : e.2.cpu ≠ some cpu) (es : List (Move × Mark)) :
    marksOn cpu (e :: es) = marksOn cpu es := by
  rw [marksOn, List.map_cons, List.filter_cons_of_neg (by simpa using apart)]
  rfl

theorem runFollows {w final : World} {es : List (Move × Mark)} {cpu : Nat} {last : Mark}
    (run : Run Steps w es final) (stands : Stands w cpu last) : (last :: marksOn cpu es).IsChain Follows := by
  induction run generalizing last with
  | nil w => exact .singleton _
  | @cons w e t es final head tail ih =>
    by_cases here : e.2.cpu = some cpu
    · obtain ⟨follows, after⟩ := stepFollows stands head here
      rw [marksHere here]
      exact .cons_cons follows (ih after)
    · obtain ⟨running, depth, selection⟩ := stepElsewhere head here
      rw [marksElsewhere here]
      exact ih (standsKept stands running depth selection)

theorem quietStands {w : World} (quiet : Quiet w) (cpu : Nat) : Stands w cpu (quietMark cpu) :=
  .inl ⟨quiet cpu, .inl rfl⟩

/-- Each CPU runs whole chains, one request at a time and in the order of the programs. A chain goes on
until a program returns a verdict or a tail call finds its slot empty; the depth guard stops none. -/
theorem chainsIsolated {w final : World} {es : List (Move × Mark)} (quiet : Quiet w)
    (run : Run Steps w es final) (cpu : Nat) : (quietMark cpu :: marksOn cpu es).IsChain Follows :=
  runFollows run (quietStands quiet cpu)

/-! ### Where a relayed request comes from -/

theorem marksAppend (cpu : Nat) (es fs : List (Move × Mark)) :
    marksOn cpu (es ++ fs) = marksOn cpu es ++ marksOn cpu fs := by
  simp [marksOn]

section Told
variable (start : World) (cpu : Nat) (skops : SockOps)

/-- The last step of the CPU has this mark; the maps it met were like `here`, and `past` is what had
been before. -/
def LastOn (mark : Mark) (here : World → Prop) (past : List (Move × Mark) → Prop) (es : List (Move × Mark)) : Prop :=
  ∃ early move late v, es = early ++ (move, mark) :: late ∧ marksOn cpu late = [] ∧ Run Steps start early v ∧
    here v ∧ past early

def LookedOn : (World → Prop) → (List (Move × Mark) → Prop) → List (Move × Mark) → Prop :=
  LastOn start cpu ⟨cpu, skops, .looked, none⟩

/-- The key has been read from a slot of the ring. -/
def KeyRead (key : UInt32) : List (Move × Mark) → Prop :=
  LookedOn start cpu skops (fun v => ∃ i, v.kernel.ringMeta.key i = key) fun _ => True

/-- The backend owned the key when the owner was read. -/
def OwnerRead (id : UInt32) (es : List (Move × Mark)) : Prop :=
  ∃ key, LookedOn start cpu skops (fun v => v.kernel.haRing.lookup key = some id) (KeyRead start cpu skops key) es

/-- The owner was registered and healthy when its entry was read. -/
def EntryRead (id : UInt32) (be : BackendEntry) : List (Move × Mark) → Prop :=
  LookedOn start cpu skops (fun v => v.kernel.instanceRegistry.lookup id = some be ∧ be.health ≠ 0)
    (OwnerRead start cpu skops id)

/-- Its circuit was not open when that was read. -/
def CircuitRead (id : UInt32) (be : BackendEntry) : List (Move × Mark) → Prop :=
  LookedOn start cpu skops (fun v => v.kernel.circuitState.lookup id ≠ some circuitOpen)
    (EntryRead start cpu skops id be)

/-- The backend has been picked for the request, and the three reads are the steps of the CPU before that. -/
def PickedFor (id : UInt32) (es : List (Move × Mark)) : Prop :=
  ∃ be, LastOn start cpu ⟨cpu, skops, .picked id, some true⟩ (fun _ => True) (CircuitRead start cpu skops id be) es

/-- What a chain under way has read, by where it stands. -/
def Told (es : List (Move × Mark)) (selected : UInt32) : Point → Prop
  | .walking (.owner _ key) => KeyRead start cpu skops key es
  | .walking (.backend _ id) => OwnerRead start cpu skops id es
  | .walking (.circuit _ id be) => EntryRead start cpu skops id be es
  | .choosing id be => CircuitRead start cpu skops id be es
  | .program slot => slot = progConnRelay → PickedFor start cpu skops selected es
  | _ => True

end Told

def Story (start : World) (cpu : Nat) (es : List (Move × Mark)) (w : World) : Prop :=
  ∀ skops point, w.running cpu = some ⟨skops, point⟩ → Told start cpu skops es (w.selected cpu) point

section Story
variable {start w next : World} {cpu : Nat} {skops : SockOps} {es : List (Move × Mark)}

theorem lastOnLater {mark : Mark} {here : World → Prop} {past : List (Move × Mark) → Prop} {e : Move × Mark}
    (apart : e.2.cpu ≠ some cpu) (last : LastOn start cpu mark here past es) :
    LastOn start cpu mark here past (es ++ [e]) := by
  obtain ⟨early, move, late, v, split, silent, reached, was, before⟩ := last
  refine ⟨early, move, late ++ [e], v, by simp [split], ?_, reached, was, before⟩
  rw [marksAppend, silent, marksElsewhere apart]
  rfl

theorem lastOnNow {mark : Mark} {here : World → Prop} {past : List (Move × Mark) → Prop} {move : Move}
    (run : Run Steps start es w) (is : here w) (before : past es) :
    LastOn start cpu mark here past (es ++ [(move, mark)]) :=
  ⟨es, move, [], w, rfl, rfl, run, is, before⟩

theorem toldLater {e : Move × Mark} (apart : e.2.cpu ≠ some cpu) {selected : UInt32} {point : Point}
    (told : Told start cpu skops es selected point) : Told start cpu skops (es ++ [e]) selected point := by
  cases point with
  | walking walk =>
    cases walk with
    | owner c key => exact lastOnLater apart told
    | backend c id =>
      obtain ⟨key, read⟩ := told
      exact ⟨key, lastOnLater apart read⟩
    | circuit c id be => exact lastOnLater apart told
    | candidate | sizing | bisecting | bounding | slot => trivial
  | choosing id be => exact lastOnLater apart told
  | program slot =>
    intro relay
    obtain ⟨be, picked⟩ := told relay
    exact ⟨be, lastOnLater apart picked⟩
  | limiting | refusing | counting | inserting | measuring => trivial

/-- What a step of the walk has read is what the place it comes to tells. -/
theorem lookTold {walk : Walk} (move : Move) (run : Run Steps start es w)
    (told : Told start cpu skops es (w.selected cpu) (.walking walk)) :
    match walk.look w.kernel with
    | .still after => Told start cpu skops (es ++ [(move, ⟨cpu, skops, .looked, none⟩)]) (w.selected cpu) (.walking after)
    | .chosen id be => CircuitRead start cpu skops id be (es ++ [(move, ⟨cpu, skops, .looked, none⟩)])
    | .missed => True := by
  have read := lookRead w.kernel walk
  revert read
  cases walk.look w.kernel with
  | missed => exact fun _ => trivial
  | chosen id be =>
    rintro ⟨c, rfl, admits⟩
    exact lastOnNow run admits told
  | still after =>
    cases after with
    | candidate | sizing | bisecting | bounding | slot => exact fun _ => trivial
    | owner c key => exact fun read => lastOnNow run read trivial
    | backend c id =>
      rintro ⟨c, key, rfl, owner⟩
      exact ⟨key, lastOnNow run owner told⟩
    | circuit c id be =>
      rintro ⟨c, rfl, entry⟩
      exact lastOnNow run entry told

theorem followRuns {skops' : SockOps} {slot : Nat} {point : Point}
    (stands : (w.follow cpu skops (.tailCall slot)).running cpu = some ⟨skops', point⟩) :
    skops' = skops ∧ point = .program slot ∧ w.kernel.progArray slot = true := by
  rw [runningFollow, Function.update_self] at stands
  split at stands
  · cases stands
    exact ⟨rfl, rfl, ‹_›⟩
  · cases stands

theorem goOnRuns {skops' : SockOps} {point point' : Point}
    (stands : (w.goOn cpu (some ⟨skops, point⟩)).running cpu = some ⟨skops', point'⟩) :
    skops' = skops ∧ point' = point := by
  rw [runningGoOn, Function.update_self] at stands
  cases stands
  exact ⟨rfl, rfl⟩

theorem advancedStory {o : Outside} {skops' : SockOps} {point point' : Point} {did : Did} (run : Run Steps start es w)
    (told : Told start cpu skops es (w.selected cpu) point) (advanced : Advanced w cpu skops o point next did)
    (stands : next.running cpu = some ⟨skops', point'⟩) :
    Told start cpu skops' (es ++ [(.go cpu o, ⟨cpu, skops, did, did.calls.map next.kernel.progArray⟩)])
      (next.selected cpu) point' := by
  cases advanced with
  | refunded | dropped | stopped | ringless | unrouted | pickedZero | unspliced | unmeasured =>
    rw [runningGoOn, Function.update_self] at stands
    cases stands
  | unlimited | admitted | overdrawn | unseen | searched | accounted | missed =>
    obtain ⟨rfl, rfl⟩ := goOnRuns stands
    trivial
  | counted | inserted | routed | relayed =>
    obtain ⟨rfl, rfl, _⟩ := followRuns stands
    exact fun other => absurd other (by decide)
  | looked look =>
    obtain ⟨rfl, rfl⟩ := goOnRuns stands
    have after := lookTold (.go cpu o) run told
    rw [look] at after
    exact after
  | chosen look =>
    obtain ⟨rfl, rfl⟩ := goOnRuns stands
    have after := lookTold (.go cpu o) run told
    rw [look] at after
    exact after
  | @picked id be nonzero =>
    obtain ⟨rfl, rfl, loaded⟩ := followRuns stands
    intro _
    have selected : ((w.withKernel (pick w.kernel cpu id be)).follow cpu skops' (.tailCall progConnRelay)).selected cpu =
        id := by
      rw [World.selected, kernelFollow, kernelWith, selectionPick, Function.update_self]
    have called : (Did.picked id).calls.map
        ((w.withKernel (pick w.kernel cpu id be)).follow cpu skops' (.tailCall progConnRelay)).kernel.progArray =
          some true := by
      rw [kernelFollow]
      exact congrArg some loaded
    rw [selected, called]
    exact ⟨be, lastOnNow run trivial told⟩
  | measured stage =>
    rw [runningGoOn, Function.update_self] at stands
    obtain ⟨later, _, same⟩ := Option.map_eq_some_iff.mp stands
    cases same
    trivial

theorem stepStory {e : Move × Mark} (run : Run Steps start es w) (story : Story start cpu es w)
    (step : Steps w e next) : Story start cpu (es ++ [e]) next := by
  intro skops point stands
  by_cases here : e.2.cpu = some cpu
  · obtain ⟨move, mark⟩ := e
    cases move with
    | send other skops' =>
      obtain ⟨idle, ⟨rfl, rfl⟩ | ⟨rfl, rfl⟩⟩ := stepsSend step
      · cases Option.some.inj here
        rw [runningGoOn, Function.update_self] at stands
        cases stands
        trivial
      · cases Option.some.inj here
        cases idle.symm.trans stands
    | control c =>
      obtain ⟨rfl, rfl⟩ := stepsControl step
      cases here
    | go other o =>
      obtain ⟨skops', point', did, busy, rfl, advanced⟩ := stepsGo step
      cases Option.some.inj here
      exact advancedStory run (story skops' point' busy) advanced stands
  · obtain ⟨running, _, selection⟩ := stepElsewhere step here
    rw [running] at stands
    have selected : next.selected cpu = w.selected cpu := congrArg SelectionResult.instanceId selection
    rw [selected]
    exact toldLater here (story skops point stands)

end Story

theorem runStory {w final : World} {es : List (Move × Mark)} (quiet : Quiet w) (run : Run Steps w es final)
    (cpu : Nat) : Story w cpu es final := by
  have preserved : ∀ es s e t, Run Steps w es s ∧ Story w cpu es s → Steps s e t →
      Run Steps w (es ++ [e]) t ∧ Story w cpu (es ++ [e]) t :=
    fun es s e t held step => ⟨StepRun.runSnoc held.1 step, stepStory held.1 held.2 step⟩
  have begun : Story w cpu [] w := fun skops point stands => by cases (quiet cpu).symm.trans stands
  exact (StepRun.runTrace preserved run [] ⟨.nil w, begun⟩).2

/-- The backend a flow was given had been picked for it by the same chain. Its slot, its entry and its
circuit were read one after the other, whatever fell between, and each admitted it when it was read. -/
theorem relayedAdmitted {w final : World} {before after : List (Move × Mark)} {move : Move} {cpu : Nat}
    {skops : SockOps} {id : UInt32} {spliced : Bool} {called : Option Bool} (quiet : Quiet w)
    (run : Run Steps w (before ++ (move, ⟨cpu, skops, .relayed id spliced, called⟩) :: after) final) :
    PickedFor w cpu skops id before := by
  obtain ⟨v, first, rest⟩ := StepRun.runSplit run
  cases rest with
  | cons step _ =>
    have story := runStory quiet first cpu
    cases move with
    | send other skops' => obtain ⟨_, ⟨same, _⟩ | ⟨same, _⟩⟩ := stepsSend step <;> cases same
    | control c => cases (stepsControl step).1
    | go other o =>
      obtain ⟨skops', point, did, busy, same, advanced⟩ := stepsGo step
      obtain ⟨here, asks, given, _⟩ := Mark.mk.inj same
      cases here
      cases asks
      cases advanced with
      | relayed =>
        cases given
        exact story skops _ busy rfl
      | measured stage => cases stage <;> cases given
      | unlimited | admitted | overdrawn | refunded | dropped | counted | unseen | inserted | stopped | routed | searched
      | ringless | looked | chosen | unrouted | picked | pickedZero | unspliced | accounted | missed | unmeasured => cases given

/-! ### Two CPUs -/

def served : World where
  routing := { kernel := sole 1, scratchMap := fun _ => ⟨0, 0, 0, Vector.replicate 64 0, 0⟩,
               serviceConfigMap := fun _ => none }
  rateLimitMap := fun _ => some 2
  flowMetrics := fun _ => none
  running := fun _ => none

def request : SockOps := ⟨true, 0x0a000002, client.remoteIp4, 443, client.remotePort⟩

def outside : Outside := ⟨⟨5, false, true⟩, fun _ => false⟩

/-- Whether these are the marks that the moves leave. -/
def plays (w : World) : List (Move × Mark) → Bool
  | [] => true
  | (move, mark) :: es =>
    match w.exec move with
    | none => false
    | some (next, same) => decide (same = mark) && plays next es

theorem playsRun {w : World} {es : List (Move × Mark)} (all : plays w es = true) : ∃ final, Run Steps w es final := by
  induction es generalizing w with
  | nil => exact ⟨w, .nil w⟩
  | cons e es ih =>
    obtain ⟨move, mark⟩ := e
    unfold plays at all
    split at all
    · cases all
    · rename_i next same taken
      obtain ⟨rfl, rest⟩ := Bool.and_eq_true_iff.mp all |>.imp of_decide_eq_true id
      obtain ⟨final, run⟩ := ih rest
      exact ⟨final, .cons taken run⟩

def on (cpu : Nat) (dids : List (Did × Option Bool)) : List (Move × Mark) :=
  dids.map fun d => (.go cpu outside, ⟨some cpu, request, d.1, d.2⟩)

/-- The reads of a ring of one entry, from its size to the circuit. -/
def tenReads : List (Did × Option Bool) := List.replicate 10 (.looked, none)

def toFlow : List (Did × Option Bool) := [(.admitted, none), (.unseen, none)]

def toPolicy : List (Did × Option Bool) := [(.counted, some true), (.routed 0, some true)]

def beforeRelay : List (Move × Mark) :=
  [(.send 0 request, ⟨some 0, request, .entered, none⟩), (.send 1 request, ⟨some 1, request, .entered, none⟩),
    (.send 2 request, ⟨some 2, request, .entered, none⟩)] ++
  on 0 toFlow ++ on 1 (toFlow ++ toPolicy ++ tenReads.take 7) ++ on 2 [(.overdrawn, none)] ++
  on 0 (toPolicy ++ tenReads.take 8) ++ on 1 (tenReads.drop 7 ++ [(.picked 1, some true)]) ++
  on 0 (tenReads.drop 8) ++ on 2 [(.dropped, none)] ++ on 0 [(.picked 1, some true)]

/-- CPU 2 enters while the others hold the tokens. Both of these miss the flow and the statistics, and
of two insertions one comes too late. -/
def overlapping : List (Move × Mark) :=
  beforeRelay ++ on 0 [(.relayed 1 true, some true), (.missed 1, none)] ++
  on 1 [(.relayed 1 true, some true), (.missed 1, none), (.accounted 1 true, none)] ++
  on 0 [(.accounted 1 false, none), (.emitted 1 false, none)] ++ on 1 [(.emitted 1 false, none)]

theorem overlappingRun : ∃ final, Run Steps served overlapping final := playsRun (by decide +kernel)

theorem chainsIsolatedOverlap : ∃ final, Run Steps served overlapping final ∧
    ∀ cpu, (quietMark cpu :: marksOn cpu overlapping).IsChain Follows := by
  obtain ⟨final, run⟩ := overlappingRun
  exact ⟨final, run, chainsIsolated (fun _ => rfl) run⟩

theorem relayedAdmittedOverlap : PickedFor served 0 request 1 beforeRelay := by
  obtain ⟨final, run⟩ := overlappingRun
  exact relayedAdmitted (fun _ => rfl) run

end OmegaLb.ChainOrder
