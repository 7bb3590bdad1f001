import OmegaLb.StepRun
import Mathlib.Algebra.Order.Ring.Int

/-! The rate-limit gate of filter_manager.bpf.c. A call of consume_token takes its atomic
instructions one at a time, between those of any other calls. -/
namespace OmegaLb.FilterManager
open StepRun (Run Does)

inductive Phase where
  | called
  | refusing
  | returned (allowed : Bool)
  deriving DecidableEq, Repr

structure Call where
  serviceId : UInt32
  phase : Phase
  deriving DecidableEq, Repr

structure World where
  rateLimitMap : UInt32 → Option Int
  calls : List Call

def World.setTokens (w : World) (serviceId : UInt32) (tokens : Int) : World :=
  { w with rateLimitMap := Function.update w.rateLimitMap serviceId (some tokens) }

def World.move (w : World) (i : Nat) (c : Call) (phase : Phase) : World :=
  { w with calls := w.calls.set i { c with phase := phase } }

/-- The next instruction of one call. -/
def World.consumeToken (w : World) (i : Nat) : Option World := do
  let c ← w.calls[i]?
  match c.phase, w.rateLimitMap c.serviceId with
  -- no limit configured
  | .called, none => some (w.move i c (.returned true))
  | .called, some cur =>
    let w := w.setTokens c.serviceId (cur - 1)
    if cur ≤ 0 then some (w.move i c .refusing) else some (w.move i c (.returned true))
  | .refusing, some cur => some ((w.setTokens c.serviceId (cur + 1)).move i c (.returned false))
  | .refusing, none => none
  | .returned _, _ => none

def start (rateLimitMap : UInt32 → Option Int) (services : List UInt32) : World :=
  ⟨rateLimitMap, services.map (⟨·, .called⟩)⟩

def Call.Finished (c : Call) : Prop := ∃ allowed, c.phase = .returned allowed

def World.tally (w : World) (serviceId : UInt32) (phase : Phase) : Nat :=
  w.calls.count ⟨serviceId, phase⟩

/-- Calls of the service at any point of consume_token. -/
def World.callers (w : World) (serviceId : UInt32) : Nat :=
  w.tally serviceId .called + w.tally serviceId .refusing +
    w.tally serviceId (.returned true) + w.tally serviceId (.returned false)

theorem tallyMove {w : World} {i : Nat} {c : Call} (found : w.calls[i]? = some c) (next : Phase)
    (serviceId : UInt32) (phase : Phase) :
    (w.move i c next).tally serviceId phase + (if c = ⟨serviceId, phase⟩ then 1 else 0) =
      w.tally serviceId phase + if c.serviceId = serviceId ∧ next = phase then 1 else 0 := by
  obtain ⟨inside, same⟩ := List.getElem?_eq_some_iff.mp found
  have counted := List.count_set (a := { c with phase := next }) (b := ⟨serviceId, phase⟩) inside
  have present : c = ⟨serviceId, phase⟩ → 0 < w.calls.count ⟨serviceId, phase⟩ := fun is =>
    List.count_pos_iff.mpr (is ▸ same ▸ List.getElem_mem inside)
  simp only [same, beq_iff_eq, Call.mk.injEq] at counted
  simp only [World.tally, World.move, counted]
  by_cases is : c = ⟨serviceId, phase⟩
  · have held := present is
    rw [if_pos is]
    split <;> omega
  · rw [if_neg is]
    split <;> omega

section
variable {w : World} {i : Nat} {c : Call} (found : w.calls[i]? = some c) (next : Phase)
include found

theorem tallyOther {serviceId : UInt32} (other : c.serviceId ≠ serviceId) (phase : Phase) :
    (w.move i c next).tally serviceId phase = w.tally serviceId phase := by
  have counted := tallyMove found next serviceId phase
  have apart : c ≠ ⟨serviceId, phase⟩ := fun same => other (congrArg Call.serviceId same)
  simpa [other, apart] using counted

theorem tallyHere (phase : Phase) :
    (w.move i c next).tally c.serviceId phase + (if c.phase = phase then 1 else 0) =
      w.tally c.serviceId phase + if next = phase then 1 else 0 := by
  have counted := tallyMove found next c.serviceId phase
  have same : c = ⟨c.serviceId, phase⟩ ↔ c.phase = phase :=
    ⟨congrArg Call.phase, fun at_ => at_ ▸ rfl⟩
  simpa only [same, true_and] using counted

end

/-- What one instruction can do to a call. -/
inductive Took (w : World) (i : Nat) (c : Call) : World → Prop where
  | unlimited (at_ : c.phase = .called) (none_ : w.rateLimitMap c.serviceId = none) :
      Took w i c (w.move i c (.returned true))
  | admitted {cur} (at_ : c.phase = .called) (read : w.rateLimitMap c.serviceId = some cur)
      (positive : 0 < cur) :
      Took w i c ((w.setTokens c.serviceId (cur - 1)).move i c (.returned true))
  | overdrawn {cur} (at_ : c.phase = .called) (read : w.rateLimitMap c.serviceId = some cur)
      (empty : cur ≤ 0) :
      Took w i c ((w.setTokens c.serviceId (cur - 1)).move i c .refusing)
  | refunded {cur} (at_ : c.phase = .refusing) (read : w.rateLimitMap c.serviceId = some cur) :
      Took w i c ((w.setTokens c.serviceId (cur + 1)).move i c (.returned false))

theorem consumeTokenTook {w w' : World} {i : Nat} (step : Does World.consumeToken w i w') :
    ∃ c, w.calls[i]? = some c ∧ Took w i c w' := by
  obtain ⟨c, found, step⟩ := Option.bind_eq_some_iff.mp step
  refine ⟨c, found, ?_⟩
  split at step
  case h_1 at_ none_ =>
    cases step
    exact .unlimited at_ none_
  case h_2 cur at_ read =>
    dsimp only at step
    split at step
    case isTrue empty =>
      cases step
      exact .overdrawn at_ read empty
    case isFalse full =>
      cases step
      exact .admitted at_ read (Int.not_le.mp full)
  case h_3 cur at_ read =>
    cases step
    exact .refunded at_ read
  case h_4 => cases step
  case h_5 => cases step

@[simp] theorem tallySetTokens (w : World) (serviceId other : UInt32) (tokens : Int) (phase : Phase) :
    (w.setTokens serviceId tokens).tally other phase = w.tally other phase := rfl

@[simp] theorem mapMove (w : World) (i : Nat) (c : Call) (phase : Phase) :
    (w.move i c phase).rateLimitMap = w.rateLimitMap := rfl

@[simp] theorem mapSetTokens (w : World) (serviceId : UInt32) (tokens : Int) :
    (w.setTokens serviceId tokens).rateLimitMap serviceId = some tokens := Function.update_self ..

theorem mapSetOther {serviceId other : UInt32} (apart : other ≠ serviceId) (w : World) (tokens : Int) :
    (w.setTokens serviceId tokens).rateLimitMap other = w.rateLimitMap other :=
  Function.update_of_ne apart ..

/-- Of `initial` tokens: what is left, and that nobody is refused before they are spent. -/
structure Spent (serviceId : UInt32) (initial : Int) (callers : Nat) (w : World) : Prop where
  tokens : w.rateLimitMap serviceId =
    some (initial - w.tally serviceId (.returned true) - w.tally serviceId .refusing)
  within : w.tally serviceId (.returned true) ≤ initial
  refused : 0 < w.tally serviceId .refusing + w.tally serviceId (.returned false) →
    w.tally serviceId (.returned true) = initial
  everyone : w.callers serviceId = callers

theorem spentOther {w w' : World} {i : Nat} {c : Call} {serviceId : UInt32} {initial : Int} {callers : Nat}
    (held : Spent serviceId initial callers w) (found : w.calls[i]? = some c) (took : Took w i c w')
    (other : c.serviceId ≠ serviceId) : Spent serviceId initial callers w' := by
  have tallies : ∀ phase, w'.tally serviceId phase = w.tally serviceId phase := by
    intro phase
    cases took with
    | unlimited | admitted | overdrawn | refunded => exact tallyOther (by exact found) _ other phase
  have read : w'.rateLimitMap serviceId = w.rateLimitMap serviceId := by
    cases took with
    | unlimited => rfl
    | admitted | overdrawn | refunded => exact mapSetOther other.symm w _
  obtain ⟨tokens, within, refused, everyone⟩ := held
  unfold World.callers at everyone
  constructor <;> simp only [World.callers, tallies, read]
  · exact tokens
  · exact within
  · exact refused
  · exact everyone

theorem talliesHere {w : World} {i : Nat} {c : Call} (found : w.calls[i]? = some c) (tokens : Int) (next : Phase) :
    let moved (phase : Phase) : Prop :=
      ((w.setTokens c.serviceId tokens).move i c next).tally c.serviceId phase + (if c.phase = phase then 1 else 0) =
        w.tally c.serviceId phase + if next = phase then 1 else 0
    moved .called ∧ moved .refusing ∧ moved (.returned true) ∧ moved (.returned false) := by
  have tally := tallyHere (w := w.setTokens c.serviceId tokens) found next
  exact ⟨tally .called, tally .refusing, tally (.returned true), tally (.returned false)⟩

theorem spentHere {w w' : World} {i : Nat} {c : Call} {initial : Int} {callers : Nat}
    (held : Spent c.serviceId initial callers w) (found : w.calls[i]? = some c) (took : Took w i c w') :
    Spent c.serviceId initial callers w' := by
  obtain ⟨tokens, within, refused, everyone⟩ := held
  unfold World.callers at everyone
  cases took with
  | unlimited at_ none_ => simp [tokens] at none_
  | @admitted cur at_ read positive =>
    have value := Option.some.inj (tokens.symm.trans read)
    obtain ⟨called, refusing, allowed, turned⟩ := talliesHere found (cur - 1) (.returned true)
    simp [at_] at called refusing allowed turned
    constructor
    · simp only [mapMove, mapSetTokens, Option.some.injEq]
      omega
    · omega
    · omega
    · unfold World.callers
      omega
  | @overdrawn cur at_ read empty =>
    have value := Option.some.inj (tokens.symm.trans read)
    obtain ⟨called, refusing, allowed, turned⟩ := talliesHere found (cur - 1) .refusing
    simp [at_] at called refusing allowed turned
    constructor
    · simp only [mapMove, mapSetTokens, Option.some.injEq]
      omega
    · omega
    · omega
    · unfold World.callers
      omega
  | @refunded cur at_ read =>
    have value := Option.some.inj (tokens.symm.trans read)
    obtain ⟨called, refusing, allowed, turned⟩ := talliesHere found (cur + 1) (.returned false)
    simp [at_] at called refusing allowed turned
    constructor
    · simp only [mapMove, mapSetTokens, Option.some.injEq]
      omega
    · omega
    · omega
    · unfold World.callers
      omega

theorem spentStep {serviceId : UInt32} {initial : Int} {callers : Nat} (w : World) (i : Nat) (w' : World)
    (held : Spent serviceId initial callers w) (step : Does World.consumeToken w i w') :
    Spent serviceId initial callers w' := by
  obtain ⟨c, found, took⟩ := consumeTokenTook step
  by_cases same : c.serviceId = serviceId
  · subst same
    exact spentHere held found took
  · exact spentOther held found took same

theorem startTally (rateLimitMap : UInt32 → Option Int) (services : List UInt32) (serviceId : UInt32)
    (phase : Phase) : (start rateLimitMap services).tally serviceId phase =
      if phase = .called then services.count serviceId else 0 := by
  induction services with
  | nil => simp [World.tally, start]
  | cons s rest ih =>
    simp only [World.tally, start, List.map_cons, List.count_cons, beq_iff_eq, Call.mk.injEq] at ih ⊢
    rw [ih]
    by_cases at_ : phase = .called
    · subst at_
      simp
    · simp [at_, Ne.symm at_]

theorem spentStart {rateLimitMap : UInt32 → Option Int} {serviceId : UInt32} {initial : Int}
    (limit : rateLimitMap serviceId = some initial) (nonneg : 0 ≤ initial) (services : List UInt32) :
    Spent serviceId initial (services.count serviceId) (start rateLimitMap services) := by
  constructor
  · rw [startTally, startTally]
    simpa [start] using limit
  · simpa [startTally] using nonneg
  · simp [startTally]
  · simp [World.callers, startTally]

theorem finishedTally {w : World} {serviceId : UInt32} (phase : Phase)
    (finished : ∀ c ∈ w.calls, c.serviceId = serviceId → c.Finished)
    (running : ∀ allowed, phase ≠ .returned allowed) : w.tally serviceId phase = 0 := by
  refine List.count_eq_zero.mpr fun member => ?_
  obtain ⟨allowed, at_⟩ := finished _ member rfl
  exact running allowed at_

theorem exactAdmissions {rateLimitMap : UInt32 → Option Int} {serviceId : UInt32} {initial : Int}
    (limit : rateLimitMap serviceId = some initial) (nonneg : 0 ≤ initial) (services : List UInt32)
    {steps : List Nat} {w : World} (run : Run (Does World.consumeToken) (start rateLimitMap services) steps w)
    (finished : ∀ c ∈ w.calls, c.serviceId = serviceId → c.Finished) :
    (w.tally serviceId (.returned true) : Int) = min initial (services.count serviceId) ∧
      w.rateLimitMap serviceId = some (initial - min initial (services.count serviceId)) := by
  obtain ⟨tokens, within, refused, everyone⟩ :=
    StepRun.runInvariant spentStep run (spentStart limit nonneg services)
  have called := finishedTally .called finished nofun
  have refusing := finishedTally .refusing finished nofun
  unfold World.callers at everyone
  have admitted : (w.tally serviceId (.returned true) : Int) = min initial (services.count serviceId) := by
    omega
  rw [tokens, refusing, admitted]
  simp

theorem exactAdmissionsOverlap :
    ∃ w, Run (Does World.consumeToken) (start (fun _ => some 1) [7, 7, 7]) [1, 0, 2, 0, 2] w ∧
      (w.tally 7 (.returned true) : Int) = min 1 3 ∧ w.rateLimitMap 7 = some (1 - min 1 3) := by
  have run : Run (Does World.consumeToken) (start (fun _ => some 1) [7, 7, 7]) [1, 0, 2, 0, 2] _ :=
    StepRun.runFoldlM rfl
  refine ⟨_, run, @exactAdmissions (fun _ => some 1) 7 1 rfl (by decide) [7, 7, 7] _ _ run ?_⟩
  intro c member _
  simp only [start, World.move, World.setTokens, List.map_cons, List.map_nil, List.set_cons_succ,
    List.set_cons_zero, List.mem_cons, List.not_mem_nil, or_false] at member
  rcases member with rfl | rfl | rfl <;> exact ⟨_, rfl⟩

/-- The counter stays within s64 while no more than 2^63 calls overlap. -/
theorem tokensBounded {rateLimitMap : UInt32 → Option Int} {serviceId : UInt32} {initial : Int}
    (limit : rateLimitMap serviceId = some initial) (nonneg : 0 ≤ initial) (services : List UInt32)
    {steps : List Nat} {w : World} (run : Run (Does World.consumeToken) (start rateLimitMap services) steps w) :
    ∃ tokens, w.rateLimitMap serviceId = some tokens ∧
      -(w.tally serviceId .refusing : Int) ≤ tokens ∧ tokens ≤ initial := by
  obtain ⟨tokens, within, refused, everyone⟩ :=
    StepRun.runInvariant spentStep run (spentStart limit nonneg services)
  exact ⟨_, tokens, by omega, by omega⟩

end OmegaLb.FilterManager
