import OmegaLb.ChainOrder

/-! The cluster that route_manager writes into the request context is read by no later program:
two data planes that differ in their rules alone do the same to every request. -/
namespace OmegaLb.RouteBlind
open DataPlane KernelMaps MetricsSteps PolicySteps RelayChain RouteManager
open StepRun (Run)

def noContext : RequestCtx := ⟨0, 0, 0, Vector.replicate 64 0, 0⟩

def blindWorld (w : World) : World :=
  { w with routing := ⟨w.routing.kernel, fun _ => noContext, fun _ => none⟩ }

def blindMove : Move → Move
  | .control c => .control { c with serviceConfigMap := fun _ => none }
  | move => move

def blindDid : Did → Did
  | .routed _ => .routed 0
  | did => did

def blindMark (m : Mark) : Mark := { m with did := blindDid m.did }

def blindResult (r : World × Did) : World × Did := (blindWorld r.1, blindDid r.2)

theorem foundBlind (w : World) (cpu : Nat) (skops : SockOps) (found : Found) :
    blindResult (w.found cpu skops found) = blindResult ((blindWorld w).found cpu skops found) := by
  cases found <;> rfl

theorem runProgramBlind (w : World) (cpu : Nat) (skops : SockOps) (slot : Nat) (o : Outside) :
    blindResult (w.runProgram cpu skops slot o) = blindResult ((blindWorld w).runProgram cpu skops slot o) := by
  have kernel : (blindWorld w).kernel = w.kernel := rfl
  unfold World.runProgram
  split_ifs
  · unfold routeManager
    rw [show (blindWorld w).routing.kernel = w.routing.kernel from rfl]
    cases w.routing.kernel.enter cpu <;> rfl
  · unfold World.policy
    rw [kernel]
    cases w.kernel.enter cpu with
    | none => rfl
    | some next => exact foundBlind (w.withKernel next) cpu skops (startWalk next skops.flow)
  · rw [kernel]
    obtain ⟨next, verdict⟩ := connectionRelay w.kernel cpu
    cases verdict <;> rfl
  · unfold World.metrics
    rw [kernel]
    cases w.kernel.enter cpu with
    | none => rfl
    | some next =>
      dsimp only
      split <;> rfl
  · rfl

theorem advanceBlind (w : World) (cpu : Nat) (chain : Chain) (o : Outside) :
    blindResult (w.advance cpu chain o) = blindResult ((blindWorld w).advance cpu chain o) := by
  obtain ⟨skops, point⟩ := chain
  have tokens : (blindWorld w).rateLimitMap = w.rateLimitMap := rfl
  cases point with
  | limiting =>
    dsimp only [World.advance]
    rw [tokens]
    cases w.rateLimitMap skops.serviceId with
    | none => rfl
    | some cur =>
      dsimp only
      split <;> rfl
  | refusing =>
    dsimp only [World.advance]
    rw [tokens]
    cases w.rateLimitMap skops.serviceId <;> rfl
  | counting =>
    dsimp only [World.advance]
    rw [show (blindWorld w).flowMetrics = w.flowMetrics from rfl]
    split <;> rfl
  | inserting => rfl
  | program slot =>
    have same := runProgramBlind w cpu skops slot o
    have kernel : (blindWorld w).kernel = w.kernel := rfl
    dsimp only [World.advance]
    rw [kernel]
    split
    · have worlds : blindWorld (w.runProgram cpu skops slot o).1 =
          blindWorld ((blindWorld w).runProgram cpu skops slot o).1 := congrArg Prod.fst same
      exact Prod.ext worlds rfl
    · exact same
  | walking walk => exact foundBlind w cpu skops (walk.look w.kernel)
  | choosing id be =>
    dsimp only [World.advance, World.choose]
    split <;> rfl
  | measuring stage => rfl

theorem blindCalls (did : Did) : (blindDid did).calls = did.calls := by
  cases did <;> rfl

theorem execBlind (w : World) (move : Move) :
    (w.exec move).map (fun r => (blindWorld r.1, blindMark r.2)) =
      ((blindWorld w).exec (blindMove move)).map fun r => (blindWorld r.1, blindMark r.2) := by
  have running : (blindWorld w).running = w.running := rfl
  cases move with
  | send cpu skops =>
    dsimp only [World.exec, blindMove]
    rw [running]
    cases w.running cpu with
    | some _ => rfl
    | none =>
      dsimp only
      split <;> rfl
  | go cpu o =>
    dsimp only [World.exec, blindMove]
    rw [running]
    cases w.running cpu with
    | none => rfl
    | some chain =>
      have same := advanceBlind w cpu chain o
      have worlds : blindWorld (w.advance cpu chain o).1 = blindWorld ((blindWorld w).advance cpu chain o).1 :=
        congrArg Prod.fst same
      have dids : blindDid (w.advance cpu chain o).2 = blindDid ((blindWorld w).advance cpu chain o).2 :=
        congrArg Prod.snd same
      have calls : (w.advance cpu chain o).2.calls = ((blindWorld w).advance cpu chain o).2.calls := by
        rw [← blindCalls, dids, blindCalls]
      have progs : (w.advance cpu chain o).1.kernel.progArray = ((blindWorld w).advance cpu chain o).1.kernel.progArray :=
        congrArg (fun v => v.kernel.progArray) worlds
      refine congrArg some (Prod.ext worlds ?_)
      exact Mark.mk.injEq .. |>.mpr ⟨rfl, rfl, dids, by rw [calls, progs]⟩
  | control c => rfl

theorem stepBlind {w v t : World} {e : Move × Mark} {move : Move} (same : blindWorld w = blindWorld v)
    (moves : blindMove move = blindMove e.1) (step : Steps w e t) :
    ∃ mark u, Steps v (move, mark) u ∧ blindMark mark = blindMark e.2 ∧ blindWorld t = blindWorld u := by
  have left := execBlind w e.1
  have right := execBlind v move
  rw [show w.exec e.1 = some (t, e.2) from step, same, ← moves, ← right] at left
  obtain ⟨⟨u, mark⟩, done, pair⟩ := Option.map_eq_some_iff.mp left.symm
  exact ⟨mark, u, done, congrArg Prod.snd pair, (congrArg Prod.fst pair).symm⟩

/-- With other rules, and however they are written meanwhile, the same moves end in the same
admissions, picks, relays and statistics. -/
theorem rulesIrrelevant {w v final : World} {es : List (Move × Mark)} {moves : List Move}
    (same : blindWorld w = blindWorld v) (run : Run Steps w es final)
    (alike : moves.map blindMove = es.map fun e => blindMove e.1) :
    ∃ fs final', fs.map Prod.fst = moves ∧ Run Steps v fs final' ∧
      fs.map (fun f => blindMark f.2) = es.map (fun e => blindMark e.2) ∧ blindWorld final = blindWorld final' := by
  induction run generalizing v moves with
  | nil w =>
    have none_ : moves = [] := List.map_eq_nil_iff.mp alike
    exact ⟨[], v, none_.symm, .nil v, rfl, same⟩
  | @cons w e t es final head tail ih =>
    cases moves with
    | nil => cases alike
    | cons move rest =>
      obtain ⟨first, later⟩ := List.cons.inj alike
      obtain ⟨mark, u, step, marks, next⟩ := stepBlind same first head
      obtain ⟨fs, final', taken, other, theirs, end_⟩ := ih next later
      refine ⟨(move, mark) :: fs, final', congrArg (move :: ·) taken, .cons step other, ?_, end_⟩
      rw [List.map_cons, List.map_cons, marks, theirs]

/-! ### Other rules -/

def ruled : World :=
  { ChainOrder.served with
    routing := { ChainOrder.served.routing with serviceConfigMap := (servedBy twoTenants []).serviceConfigMap } }

theorem rulesIrrelevantOverlap : ∃ final, Run Steps ChainOrder.served ChainOrder.overlapping final ∧
    ∃ fs final', Run Steps ruled fs final' ∧ blindWorld final = blindWorld final' := by
  obtain ⟨final, run⟩ := ChainOrder.overlappingRun
  obtain ⟨fs, final', _, other, _, same⟩ :=
    @rulesIrrelevant ChainOrder.served ruled _ _ (ChainOrder.overlapping.map Prod.fst) rfl run (by rw [List.map_map]; rfl)
  exact ⟨final, run, fs, final', other, same⟩

end OmegaLb.RouteBlind
