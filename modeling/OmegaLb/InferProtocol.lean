import OmegaLb.ModelOutput
import OmegaLb.RequestReply

/-! Infer and RunInferenceLoop of kan_actor.go as callers and server of one queue of eight
requests. NewKANActor makes the queue, so that a caller waits for the loop also where no loop
was started. -/
namespace OmegaLb.Rl
open RequestReply
open StepRun (Run)

variable {F : Type} [GoMath F] [GoRoots F]

def inferQueue : Nat := 8

abbrev Response (F : Type) := Go (Except InferError (List F))

abbrev InferStep (k : KANActor F) :
    World (List F) (Response F) → Event (List F) → World (List F) (Response F) → Prop :=
  Step inferQueue k.runInference

def fromResponse (state : List F) (resp : Response F) : Go (List F × Option InferError) := do
  match ← resp with
  | .error e => return (← symbolicFallback state, some e)
  | .ok weights => return (weights, none)

/-- What Infer has returned, once it has. -/
def returned (c : Call (List F) (Response F)) : Option (Go (List F × Option InferError)) :=
  match c.phase with
  | .sending => none
  | .waiting => none
  | .answered resp => some (fromResponse c.input resp)
  | .gaveUp false => some (.ok ([], some .enqueueTimeout))
  | .gaveUp true => some (.ok ([], some .timeout))

/-- Every run is a choice of how the wait of each call ends. -/
theorem returnedInfer {k : KANActor F} (made : k.inferCh = true) {c : Call (List F) (Response F)}
    (own : Own k.runInference c) {out : Go (List F × Option InferError)} (done : returned c = some out) :
    ∃ wait, out = k.infer wait c.input := by
  unfold returned at done
  have open_ : (!k.inferCh) = false := by rw [made]; rfl
  split at done
  · contradiction
  · contradiction
  · rename_i resp phase
    cases done
    refine ⟨.answered, ?_⟩
    rw [own.answered resp phase, fromResponse, KANActor.infer, open_]
    rfl
  · cases done
    exact ⟨.notEnqueued, by rw [KANActor.infer, open_]; rfl⟩
  · cases done
    exact ⟨.notAnswered, by rw [KANActor.infer, open_]; rfl⟩

/-- Part one of the promise is about every run, part two about runs without the loop. -/
structure Promised (k : KANActor F) (events : List (Event (List F)))
    (w : World (List F) (Response F)) : Prop where
  own : ∀ c ∈ w.calls, ∀ v, returned c = some (.ok (v, none)) → k.runInference c.input = .ok (.ok v)
  fallback : .start ∉ events → ∀ c ∈ w.calls, ∀ out, returned c = some out →
    ∃ v, symbolicFallback c.input = .ok v ∧ out = .ok (v, none)

omit [GoRoots F] in
theorem fromResponseNil {state : List F} {resp : Response F} {v : List F}
    (out : fromResponse state resp = .ok (v, none)) : resp = .ok (.ok v) := by
  obtain ⟨w, symbolic, _⟩ := fallbackReturns state
  cases resp with
  | error p => contradiction
  | ok answer =>
    cases answer with
    | error e =>
      simp only [fromResponse, symbolic, bind, Except.bind] at out
      cases out
    | ok weights =>
      cases out
      rfl

theorem nilErrorOwn {k : KANActor F} {c : Call (List F) (Response F)} (own : Own k.runInference c)
    {v : List F} (done : returned c = some (.ok (v, none))) : k.runInference c.input = .ok (.ok v) := by
  unfold returned at done
  split at done
  · contradiction
  · contradiction
  · rename_i resp phase
    rw [← own.answered resp phase]
    exact fromResponseNil (Option.some.inj done)
  · cases done
  · cases done

omit [GoRoots F] in
theorem unansweredReturned {c : Call (List F) (Response F)} (unanswered : ∀ r, c.phase ≠ .answered r)
    {out : Go (List F × Option InferError)} (done : returned c = some out) :
    c.GaveUp ∧ ∃ e, out = .ok ([], some e) := by
  unfold returned at done
  split at done
  · contradiction
  · contradiction
  · rename_i resp phase
    exact absurd phase (unanswered resp)
  · rename_i phase
    exact ⟨⟨false, phase⟩, _, (Option.some.inj done).symm⟩
  · rename_i phase
    exact ⟨⟨true, phase⟩, _, (Option.some.inj done).symm⟩

omit [GoRoots F] in
theorem gaveUpReturned {c : Call (List F) (Response F)} (gone : c.GaveUp) :
    ∃ e, returned c = some (.ok ([], some e)) := by
  obtain ⟨sent, phase⟩ := gone
  unfold returned
  rw [phase]
  cases sent <;> exact ⟨_, rfl⟩

/-- A run keeps the promise exactly when the loop was started in it or no deadline has fired. -/
theorem promiseExact (k : KANActor F) {events : List (Event (List F))} {w : World (List F) (Response F)}
    (run : Run (InferStep k) (.start _ _) events w) :
    Promised k events w ↔ .start ∈ events ∨ ∀ e ∈ events, ¬ e.Deadline := by
  have consistent := runConsistent run
  have own : ∀ c ∈ w.calls, ∀ v, returned c = some (.ok (v, none)) →
      k.runInference c.input = .ok (.ok v) :=
    fun c member _ done => nilErrorOwn (consistent.calls c member) done
  have gone := runGaveUp run
  constructor
  · intro promised
    by_cases started : .start ∈ events
    · exact .inl started
    · refine .inr fun e member deadline => ?_
      obtain ⟨c, inside, late⟩ := gone.mpr ⟨e, member, deadline⟩
      obtain ⟨err, done⟩ := gaveUpReturned late
      obtain ⟨v, _, out⟩ := promised.fallback started c inside _ done
      cases out
  · rintro (started | timely)
    · exact ⟨own, fun quiet => absurd started quiet⟩
    · refine ⟨own, fun quiet c member out done => ?_⟩
      have unanswered := ((runUnserved run quiet).calls c member).2
      obtain ⟨late, _⟩ := unansweredReturned unanswered done
      obtain ⟨e, inside, deadline⟩ := gone.mp ⟨c, member, late⟩
      exact absurd deadline (timely e inside)

/-- Without the loop no Infer ever returns a nil error. -/
theorem neverNil (k : KANActor F) {events : List (Event (List F))} {w : World (List F) (Response F)}
    (run : Run (InferStep k) (.start _ _) events w) (quiet : .start ∉ events) :
    ∀ c ∈ w.calls, ∀ v, returned c ≠ some (.ok (v, none)) := by
  intro c member v done
  have unanswered := ((runUnserved run quiet).calls c member).2
  obtain ⟨_, e, out⟩ := unansweredReturned unanswered done
  cases out

/-! ### With the loop and without it -/

def shadowActor : KANActor ℚ := ⟨none, true⟩

/-- Two idle backends, one of them healthy. -/
def onlyUp (j : Nat) : List ℚ :=
  ((List.range 2).flatMap fun i => [0, 0, 0, 0, 0, 0, if i = j then 1 else 0, 0]) ++ [0, 0, 0, 0]

/-- The first caller gives up while its request is queued, and is replied to all the same. -/
def servedEvents : List (Event (List ℚ)) :=
  [.begin (onlyUp 0), .begin (onlyUp 1), .send 0, .send 1, .waitDeadline 0, .start, .take, .reply, .take,
    .reply, .receive 1]

def lateEvents : List (Event (List ℚ)) := [.begin [], .send 0, .waitDeadline 0]

theorem servedPromised : ∃ (_ : GoRoots ℚ) (w : World (List ℚ) (Response ℚ)),
    w.calls.map returned = [some (.ok ([], some .timeout)), some (.ok ([0, 1], none))] ∧
      Promised shadowActor servedEvents w := by
  let roots : GoRoots ℚ := ⟨id, id⟩
  have second : shadowActor.runInference (onlyUp 1) = .ok (.ok [0, 1]) := by decide +kernel
  have run : Run (InferStep shadowActor) (.start _ _) servedEvents
      ⟨[⟨onlyUp 0, .gaveUp true, some (shadowActor.runInference (onlyUp 0))⟩,
        ⟨onlyUp 1, .answered (shadowActor.runInference (onlyUp 1)), none⟩], [], .idle⟩ :=
    .cons (.begin _ _) (.cons (.begin _ _) (.cons (.send rfl rfl (by decide)) (.cons (.send rfl rfl (by decide))
      (.cons (.waitDeadline rfl rfl) (.cons (.start rfl) (.cons (.take rfl rfl) (.cons (.reply rfl rfl rfl)
      (.cons (.take rfl rfl) (.cons (.reply rfl rfl rfl) (.cons (.receive rfl rfl rfl) (.nil _)))))))))))
  refine ⟨roots, _, ?_, (promiseExact shadowActor run).mpr (.inl (by decide))⟩
  simp only [List.map_cons, List.map_nil, returned, second]
  rfl

/-- NewKANActor makes the queue, nothing serves it, and the caller's deadline fires. -/
theorem unservedTimesOut : ¬ ∃ _ : GoRoots ℚ, ∀ (k : KANActor ℚ) events w,
    Run (InferStep k) (.start _ _) events w → Promised k events w := by
  rintro ⟨_, promises⟩
  have run : Run (InferStep shadowActor) (.start _ _) lateEvents
      ⟨[⟨[], .gaveUp true, none⟩], [(0, [])], .off⟩ :=
    .cons (.begin _ _) (.cons (.send rfl rfl (by decide)) (.cons (.waitDeadline rfl rfl) (.nil _)))
  obtain ⟨v, _, out⟩ := (promises shadowActor lateEvents _ run).fallback (by decide) _ List.mem_cons_self _ rfl
  cases out

end OmegaLb.Rl
