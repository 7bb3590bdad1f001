import OmegaLb.StepRun

/-! Callers that put requests into a bounded queue, each with a place for its own reply, and one
server that takes them in order. A caller may give up at any time while it waits, and its request
stays where it is. -/
namespace OmegaLb.RequestReply
open StepRun (Run)

variable {α ρ : Type}

inductive Phase (ρ : Type) where
  | sending
  | waiting
  | answered (r : ρ)
  | gaveUp (sent : Bool)
  deriving DecidableEq, Repr

structure Call (α ρ : Type) where
  input : α
  phase : Phase ρ
  reply : Option ρ

inductive Server (α : Type) where
  | off
  | idle
  | serving (i : Nat) (input : α)
  deriving DecidableEq, Repr

structure World (α ρ : Type) where
  calls : List (Call α ρ)
  queue : List (Nat × α)
  server : Server α

def World.start (α ρ : Type) : World α ρ := ⟨[], [], .off⟩

inductive Event (α : Type) where
  | begin (input : α)
  | send (i : Nat)
  | sendDeadline (i : Nat)
  | receive (i : Nat)
  | waitDeadline (i : Nat)
  | start
  | stop
  | take
  | reply
  deriving DecidableEq, Repr

/-- A call is known by its position, and its reply place holds one reply. -/
inductive Step (capacity : Nat) (compute : α → ρ) : World α ρ → Event α → World α ρ → Prop where
  | begin (w : World α ρ) (input : α) : Step capacity compute w (.begin input)
      { w with calls := w.calls ++ [⟨input, .sending, none⟩] }
  | send {w : World α ρ} {i : Nat} {c : Call α ρ} (at_ : w.calls[i]? = some c)
      (sending : c.phase = .sending) (room : w.queue.length < capacity) :
      Step capacity compute w (.send i)
        { w with calls := w.calls.set i { c with phase := .waiting }, queue := w.queue ++ [(i, c.input)] }
  | sendDeadline {w : World α ρ} {i : Nat} {c : Call α ρ} (at_ : w.calls[i]? = some c)
      (sending : c.phase = .sending) : Step capacity compute w (.sendDeadline i)
        { w with calls := w.calls.set i { c with phase := .gaveUp false } }
  | receive {w : World α ρ} {i : Nat} {c : Call α ρ} {r : ρ} (at_ : w.calls[i]? = some c)
      (waiting : c.phase = .waiting) (full : c.reply = some r) : Step capacity compute w (.receive i)
        { w with calls := w.calls.set i { c with phase := .answered r, reply := none } }
  | waitDeadline {w : World α ρ} {i : Nat} {c : Call α ρ} (at_ : w.calls[i]? = some c)
      (waiting : c.phase = .waiting) : Step capacity compute w (.waitDeadline i)
        { w with calls := w.calls.set i { c with phase := .gaveUp true } }
  | start {w : World α ρ} (off : w.server = .off) : Step capacity compute w .start
      { w with server := .idle }
  | stop {w : World α ρ} (idle : w.server = .idle) : Step capacity compute w .stop
      { w with server := .off }
  | take {w : World α ρ} {i : Nat} {input : α} {rest : List (Nat × α)} (idle : w.server = .idle)
      (first : w.queue = (i, input) :: rest) : Step capacity compute w .take
        { w with queue := rest, server := .serving i input }
  | reply {w : World α ρ} {i : Nat} {input : α} {c : Call α ρ} (serving : w.server = .serving i input)
      (at_ : w.calls[i]? = some c) (empty : c.reply = none) : Step capacity compute w .reply
        { w with calls := w.calls.set i { c with reply := some (compute input) }, server := .idle }

/-! ### What a caller gets was computed from its own request -/

structure Own (compute : α → ρ) (c : Call α ρ) : Prop where
  replied : ∀ r, c.reply = some r → r = compute c.input
  answered : ∀ r, c.phase = .answered r → r = compute c.input

structure Consistent (compute : α → ρ) (w : World α ρ) : Prop where
  calls : ∀ c ∈ w.calls, Own compute c
  queued : ∀ e ∈ w.queue, (w.calls[e.1]?).map Call.input = some e.2
  served : ∀ i input, w.server = .serving i input → (w.calls[i]?).map Call.input = some input

theorem setInputs {calls : List (Call α ρ)} {i : Nat} {c d : Call α ρ} (at_ : calls[i]? = some c)
    (same : d.input = c.input) (j : Nat) :
    ((calls.set i d)[j]?).map Call.input = (calls[j]?).map Call.input := by
  rw [List.getElem?_set]
  split
  · rename_i here
    subst here
    have inside : i < calls.length := (List.getElem?_eq_some_iff.mp at_).1
    rw [if_pos inside, at_]
    exact congrArg some same
  · rfl

theorem setConsistent {compute : α → ρ} {w : World α ρ} (consistent : Consistent compute w) {i : Nat}
    {c : Call α ρ} (at_ : w.calls[i]? = some c) (d : Call α ρ) (same : d.input = c.input)
    (own : Own compute d) :
    Consistent compute { w with calls := w.calls.set i d } where
  calls := StepRun.everySet consistent.calls i own
  queued := fun e member => (setInputs at_ same e.1).trans (consistent.queued e member)
  served := fun j input serving => (setInputs at_ same j).trans (consistent.served j input serving)

theorem beginInputs {calls : List (Call α ρ)} {j : Nat} {x : α}
    (known : (calls[j]?).map Call.input = some x) (c : Call α ρ) :
    ((calls ++ [c])[j]?).map Call.input = some x := by
  obtain ⟨d, at_, same⟩ := Option.map_eq_some_iff.mp known
  have inside : j < calls.length := (List.getElem?_eq_some_iff.mp at_).1
  rw [List.getElem?_append_left inside, known]

theorem stepConsistent {capacity : Nat} {compute : α → ρ} {w next : World α ρ} {e : Event α}
    (consistent : Consistent compute w) (step : Step capacity compute w e next) :
    Consistent compute next := by
  have held : ∀ {i : Nat} {c : Call α ρ}, w.calls[i]? = some c → Own compute c :=
    fun at_ => consistent.calls _ (List.mem_of_getElem? at_)
  cases step with
  | begin input =>
    constructor
    · intro c member
      rcases List.mem_append.mp member with old | new
      · exact consistent.calls c old
      · rw [List.mem_singleton.mp new]
        exact ⟨fun _ none_ => by contradiction, fun _ none_ => by contradiction⟩
    · exact fun e member => beginInputs (consistent.queued e member) _
    · exact fun i x serving => beginInputs (consistent.served i x serving) _
  | @send i c at_ sending room =>
    have kept := setConsistent consistent at_ { c with phase := .waiting } rfl
      ⟨(held at_).replied, fun _ none_ => by contradiction⟩
    refine ⟨kept.calls, fun e member => ?_, kept.served⟩
    rcases List.mem_append.mp member with old | new
    · exact kept.queued e old
    · rw [List.mem_singleton.mp new]
      have known : (w.calls[i]?).map Call.input = some c.input := congrArg _ at_
      exact (setInputs at_ (d := { c with phase := .waiting }) rfl i).trans known
  | sendDeadline at_ sending =>
    exact setConsistent consistent at_ _ rfl ⟨(held at_).replied, fun _ none_ => by contradiction⟩
  | receive at_ waiting full =>
    refine setConsistent consistent at_ _ rfl ⟨fun _ none_ => by contradiction, fun r same => ?_⟩
    cases same
    exact (held at_).replied _ full
  | waitDeadline at_ waiting =>
    exact setConsistent consistent at_ _ rfl ⟨(held at_).replied, fun _ none_ => by contradiction⟩
  | start off => exact ⟨consistent.calls, consistent.queued, fun _ _ none_ => by contradiction⟩
  | stop idle => exact ⟨consistent.calls, consistent.queued, fun _ _ none_ => by contradiction⟩
  | take idle first =>
    refine ⟨consistent.calls, fun e member => ?_, fun i input serving => ?_⟩
    · exact consistent.queued e (first ▸ List.mem_cons_of_mem _ member)
    · cases serving
      exact consistent.queued _ (first ▸ List.mem_cons_self)
  | @reply i input c serving at_ empty =>
    have own := consistent.served i input serving
    rw [at_, Option.map_some] at own
    have kept := setConsistent consistent at_ { c with reply := some (compute input) } rfl
      ⟨fun r same => by rw [← Option.some.inj same, ← Option.some.inj own], (held at_).answered⟩
    exact ⟨kept.calls, kept.queued, fun _ _ none_ => by contradiction⟩

theorem runConsistent {capacity : Nat} {compute : α → ρ} {events : List (Event α)} {w : World α ρ}
    (run : Run (Step capacity compute) (.start α ρ) events w) : Consistent compute w := by
  have start : Consistent compute (.start α ρ) :=
    ⟨fun _ member => absurd member List.not_mem_nil, fun _ member => absurd member List.not_mem_nil,
      fun _ _ none_ => by contradiction⟩
  have preserved : ∀ (s : World α ρ) e t, Consistent compute s → Step capacity compute s e t →
      Consistent compute t := fun _ _ _ consistent step => stepConsistent consistent step
  exact StepRun.runInvariant preserved run start

/-! ### Without a server nobody is answered -/

structure Unserved (w : World α ρ) : Prop where
  server : w.server = .off
  calls : ∀ c ∈ w.calls, c.reply = none ∧ ∀ r, c.phase ≠ .answered r

theorem stepUnserved {capacity : Nat} {compute : α → ρ} {w next : World α ρ} {e : Event α}
    (unserved : Unserved w) (quiet : e ≠ .start) (step : Step capacity compute w e next) :
    Unserved next := by
  have off := unserved.server
  have held : ∀ {i : Nat} {c : Call α ρ}, w.calls[i]? = some c → c.reply = none :=
    fun at_ => (unserved.calls _ (List.mem_of_getElem? at_)).1
  cases step with
  | begin input =>
    refine ⟨off, fun c member => ?_⟩
    rcases List.mem_append.mp member with old | new
    · exact unserved.calls c old
    · rw [List.mem_singleton.mp new]
      exact ⟨rfl, fun _ none_ => by contradiction⟩
  | send at_ sending room =>
    have empty := held at_
    exact ⟨off, StepRun.everySet unserved.calls _ ⟨empty, fun _ none_ => by contradiction⟩⟩
  | sendDeadline at_ sending =>
    have empty := held at_
    exact ⟨off, StepRun.everySet unserved.calls _ ⟨empty, fun _ none_ => by contradiction⟩⟩
  | receive at_ waiting full =>
    rw [held at_] at full
    contradiction
  | waitDeadline at_ waiting =>
    have empty := held at_
    exact ⟨off, StepRun.everySet unserved.calls _ ⟨empty, fun _ none_ => by contradiction⟩⟩
  | start _ => exact absurd rfl quiet
  | stop idle =>
    rw [off] at idle
    contradiction
  | take idle first =>
    rw [off] at idle
    contradiction
  | reply serving at_ empty =>
    rw [off] at serving
    contradiction

theorem runUnserved {capacity : Nat} {compute : α → ρ} {events : List (Event α)} {w : World α ρ}
    (run : Run (Step capacity compute) (.start α ρ) events w) (quiet : .start ∉ events) :
    Unserved w := by
  have preserved : ∀ es (s : World α ρ) e t, (.start ∉ es → Unserved s) →
      Step capacity compute s e t → (.start ∉ es ++ [e] → Unserved t) := by
    intro es s e t unserved step absent
    obtain ⟨before, last⟩ := not_or.mp (List.mem_append.not.mp absent)
    refine stepUnserved (unserved before) (fun same => last ?_) step
    exact List.mem_singleton.mpr same.symm
  have start : .start ∉ ([] : List (Event α)) → Unserved (.start α ρ) :=
    fun _ => ⟨rfl, fun _ member => absurd member List.not_mem_nil⟩
  exact StepRun.runTrace preserved run [] start quiet

/-! ### Deadlines -/

def Event.Deadline : Event α → Prop
  | .sendDeadline _ => True
  | .waitDeadline _ => True
  | _ => False

def Call.GaveUp (c : Call α ρ) : Prop := ∃ sent, c.phase = .gaveUp sent

def GaveUp (w : World α ρ) : Prop := ∃ c ∈ w.calls, c.GaveUp

theorem setMember {calls : List (Call α ρ)} {i : Nat} {c : Call α ρ} (at_ : calls[i]? = some c)
    (d : Call α ρ) : d ∈ calls.set i d := by
  have inside : i < calls.length := (List.getElem?_eq_some_iff.mp at_).1
  exact List.mem_of_getElem? (List.getElem?_set_self inside)

theorem setGaveUp {calls : List (Call α ρ)} {i : Nat} {c d : Call α ρ} (at_ : calls[i]? = some c)
    (same : d.GaveUp ↔ c.GaveUp) : (∃ e ∈ calls.set i d, e.GaveUp) ↔ ∃ e ∈ calls, e.GaveUp := by
  constructor
  · rintro ⟨e, member, gone⟩
    rcases List.mem_or_eq_of_mem_set member with old | rfl
    · exact ⟨e, old, gone⟩
    · exact ⟨c, List.mem_of_getElem? at_, same.mp gone⟩
  · rintro ⟨e, member, gone⟩
    obtain ⟨j, found⟩ := List.mem_iff_getElem?.mp member
    by_cases here : i = j
    · subst here
      cases at_.symm.trans found
      exact ⟨d, setMember at_ d, same.mpr gone⟩
    · exact ⟨e, List.mem_of_getElem? ((List.getElem?_set_ne here).trans found), gone⟩

theorem stepGaveUp {capacity : Nat} {compute : α → ρ} {w next : World α ρ} {e : Event α}
    (step : Step capacity compute w e next) : GaveUp next ↔ GaveUp w ∨ e.Deadline := by
  have live : ∀ {c : Call α ρ} {p : Phase ρ}, c.phase = p → (∀ sent, p ≠ .gaveUp sent) → ¬ c.GaveUp := by
    rintro c p same other ⟨sent, gone⟩
    exact other sent (same.symm.trans gone)
  cases step with
  | begin input =>
    simp only [GaveUp, List.mem_append, List.mem_singleton, Event.Deadline, or_false]
    constructor
    · rintro ⟨c, old | rfl, gone⟩
      · exact ⟨c, old, gone⟩
      · exact absurd gone (live rfl fun _ none_ => by contradiction)
    · rintro ⟨c, old, gone⟩
      exact ⟨c, .inl old, gone⟩
  | send at_ sending room =>
    refine (setGaveUp at_ (iff_of_false ?_ ?_)).trans (or_false _).symm.to_iff
    · exact live rfl fun _ none_ => by contradiction
    · exact live sending fun _ none_ => by contradiction
  | sendDeadline at_ sending =>
    exact iff_of_true ⟨_, setMember at_ _, false, rfl⟩ (.inr trivial)
  | receive at_ waiting full =>
    refine (setGaveUp at_ (iff_of_false ?_ ?_)).trans (or_false _).symm.to_iff
    · exact live rfl fun _ none_ => by contradiction
    · exact live waiting fun _ none_ => by contradiction
  | waitDeadline at_ waiting =>
    exact iff_of_true ⟨_, setMember at_ _, true, rfl⟩ (.inr trivial)
  | start off => exact (or_false _).symm.to_iff
  | stop idle => exact (or_false _).symm.to_iff
  | take idle first => exact (or_false _).symm.to_iff
  | @reply i input c serving at_ empty =>
    have same : ({ c with reply := some (compute input) } : Call α ρ).GaveUp ↔ c.GaveUp := Iff.rfl
    exact (setGaveUp at_ same).trans (or_false _).symm.to_iff

theorem runGaveUp {capacity : Nat} {compute : α → ρ} {events : List (Event α)} {w : World α ρ}
    (run : Run (Step capacity compute) (.start α ρ) events w) :
    GaveUp w ↔ ∃ e ∈ events, e.Deadline := by
  have preserved : ∀ es (s : World α ρ) e t, (GaveUp s ↔ ∃ e ∈ es, e.Deadline) →
      Step capacity compute s e t → (GaveUp t ↔ ∃ d ∈ es ++ [e], d.Deadline) := by
    intro es s e t before step
    rw [stepGaveUp step, before]
    simp [or_and_right, exists_or]
  exact StepRun.runTrace preserved run [] (by simp [GaveUp, World.start])

end OmegaLb.RequestReply
