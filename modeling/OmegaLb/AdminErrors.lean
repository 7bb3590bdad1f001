import OmegaLb.AdminKill

/-! What an admin request that is answered with an error leaves behind. The flags of an order are set
before its backend is told and before the next key is read, and spike.flag is emptied before it is written. -/
namespace OmegaLb.AdminErrors
open GoText (Bytes ascii)
open HaRing (HAring pyIndex)
open OmegaProxy (Proxy)
open AdminHandle (Data Site Disk Order Phase Input handleAdmin obey spike killBackend afterTelling)
open StepRun (Run Does)

variable {F : Type}

/-- One request, with nobody else at work on the site. -/
def request (intOfText : Bytes → Option Int) (r : Site F × Phase) (input : Input) : Option (Site F × Phase) :=
  handleAdmin intOfText r.1 r.2 input

structure Intact (s t : Site F) : Prop where
  ring : t.proxy.ring = s.proxy.ring
  health : t.proxy.metrics.health = s.proxy.metrics.health
  spike : t.spikeFlag = s.spikeFlag

/-! ### What a body asks for -/

/-- `none` where the key cannot be looked up or names no backend, `some none` where it is absent. -/
def asked (intOfText : Bytes → Option Int) (n : Nat) (data : Data) (order : Order) : Option (Option Nat) :=
  match data.has order.key with
  | none => none
  | some false => some none
  | some true => ((data.get order.key).bind (Data.toInt intOfText) |>.bind (pyIndex n)).map some

structure Plan where
  orders : List (Order × Nat)
  complete : Bool

/-- The orders before the first that raises. -/
def plan (intOfText : Bytes → Option Int) (n : Nat) (data : Data) : List Order → Plan
  | [] => ⟨[], true⟩
  | order :: rest =>
    match asked intOfText n data order with
    | none => ⟨[], false⟩
    | some none => plan intOfText n data rest
    | some (some k) =>
      let later := plan intOfText n data rest
      ⟨(order, k) :: later.orders, later.complete⟩

def lastOn (k : Nat) : List (Order × Nat) → Option Order
  | [] => none
  | (order, j) :: rest => (lastOn k rest).or (if k = j then some order else none)

/-- The body gets as far as opening spike.flag. -/
structure Opened (p : Plan) (data : Data) (disk : Disk) (answers : List Input) : Prop where
  complete : p.complete = true
  told : ∀ answer ∈ answers, answer = .told
  present : data.has (ascii "spike") = some true
  granted : disk ≠ .denied

/-- Of the orders that were given, the last on each backend repeats its flags, and spike.flag is not
opened or was empty before. -/
def Harmless (intOfText : Bytes → Option Int) (s : Site F) : List Input → Prop
  | .gate none :: .body data :: answers =>
    let p := plan intOfText s.proxy.ring.n data [.kill, .revive]
    (∀ k order, lastOn k (p.orders.take answers.length) = some order →
      s.proxy.ring.health.getD k false = order.healthy ∧ s.proxy.metrics.health k = order.healthy) ∧
    (Opened p data s.disk answers → s.spikeFlag = some [])
  | _ => True

/-! ### The flags after some orders -/

def give (p : Proxy F) (given : Order × Nat) : Proxy F := p.putHealth given.2 given.1.healthy

/-- A flag that every order on its backend sets is what the last of them says. -/
theorem givenFlag {inside : Proxy F → Prop} {flag : Proxy F → Bool} {i : Nat}
    (kept : ∀ p given, inside p → inside (give p given))
    (sets : ∀ p given, inside p → flag (give p given) = if i = given.2 then given.1.healthy else flag p)
    (orders : List (Order × Nat)) {p : Proxy F} (start : inside p) :
    flag (orders.foldl give p) = (lastOn i orders).elim (flag p) Order.healthy := by
  induction orders generalizing p with
  | nil => rfl
  | cons given orders ih =>
    rw [List.foldl_cons, ih (kept p given start), sets p given start, lastOn]
    cases lastOn i orders with
    | some order => rfl
    | none =>
      rw [Option.none_or]
      split <;> rfl

theorem givenMetrics (orders : List (Order × Nat)) (p : Proxy F) (i : Nat) :
    (orders.foldl give p).metrics.health i = (lastOn i orders).elim (p.metrics.health i) Order.healthy :=
  @givenFlag F (fun _ => True) (fun p => p.metrics.health i) i (fun _ _ _ => trivial)
    (fun p given _ => AdminKill.putHealthFlag p given.2 given.1.healthy i) orders p trivial

theorem givenRing (orders : List (Order × Nat)) {p : Proxy F} {i : Nat} (inside : i < p.ring.n) :
    (orders.foldl give p).ring.health.getD i false =
      (lastOn i orders).elim (p.ring.health.getD i false) Order.healthy := by
  refine @givenFlag F (fun p => i < p.ring.n) (fun p => p.ring.health.getD i false) i
    (fun _ _ within => within) (fun p given within => ?_) orders p inside
  have bound : i < p.ring.health.length := (AdminKill.healthInside i).mp within
  show (p.ring.health.set given.2 given.1.healthy).getD i false = _
  rw [List.getD_eq_getElem _ _ (by simpa using bound), List.getElem_set, List.getD_eq_getElem _ _ bound]
  simp only [eq_comm]

theorem givenVnodes (orders : List (Order × Nat)) (p : Proxy F) :
    (orders.foldl give p).ring.vnodes = p.ring.vnodes := by
  induction orders generalizing p with
  | nil => rfl
  | cons given orders ih => exact ih (give p given)

/-- The points of a ring follow from its counts and flags. -/
theorem ringSame {r q : HAring} (counts : r.vnodes = q.vnodes)
    (flags : ∀ i < q.n, r.health.getD i false = q.health.getD i false) : r = q := by
  have health : r.health = q.health := by
    refine List.ext_getElem ?_ fun i left right => ?_
    · rw [r.backends, q.backends, counts]
    · have within : i < q.vnodes.length := q.backends ▸ right
      have same := flags i within
      rwa [List.getD_eq_getElem _ _ left, List.getD_eq_getElem _ _ right] at same
  have ring : r.ring = q.ring := by rw [r.built, q.built, counts, health]
  cases r
  cases q
  cases counts
  cases health
  cases ring
  rfl

/-! ### One request -/

def follow (intOfText : Bytes → Option Int) : List Order → Site F → Data → Site F × Phase
  | [] => spike
  | order :: rest => obey intOfText order (follow intOfText rest)

/-- Each order is followed by the rest of the list. -/
def Chained (intOfText : Bytes → Option Int) : List Order → Prop
  | [] => True
  | order :: rest =>
    (∀ (s : Site F) data, afterTelling intOfText order s data = follow intOfText rest s data) ∧
      Chained intOfText rest

structure Ended (p : Plan) (data : Data) (s : Site F) (answers : List Input) (t : Site F) (status : Nat) : Prop where
  proxy : t.proxy = (p.orders.take answers.length).foldl give s.proxy
  emptied : status ≠ 200 → Opened p data s.disk answers → t.spikeFlag = some []
  kept : status ≠ 200 → ¬ Opened p data s.disk answers → t.spikeFlag = s.spikeFlag

theorem repliedRun {intOfText : Bytes → Option Int} {s t : Site F} {status status' : Nat} {answers : List Input}
    (run : Run (Does (request intOfText)) (s, .replied status) answers (t, .replied status')) :
    answers = [] ∧ t = s ∧ status' = status := by
  obtain ⟨none_, same⟩ := StepRun.runStuck (fun e u step => by cases e <;> contradiction) run
  cases same
  exact ⟨none_, rfl, rfl⟩

theorem leftRun {intOfText : Bytes → Option Int} {s t : Site F} {raised : OmegaProxy.Raised} {status : Nat}
    {answers : List Input} (run : Run (Does (request intOfText)) (s, .left raised) answers (t, .replied status)) :
    answers = [] ∧ t = s := by
  obtain ⟨none_, same⟩ := StepRun.runStuck (fun e u step => by cases raised <;> cases e <;> contradiction) run
  exact ⟨none_, congrArg Prod.fst same⟩

theorem obeyAsked (intOfText : Bytes → Option Int) (order : Order) (rest : Site F → Data → Site F × Phase)
    (s : Site F) (data : Data) : obey intOfText order rest s data =
      match asked intOfText s.proxy.ring.n data order with
      | none => (s, .replied 400)
      | some none => rest s data
      | some (some k) => (s.putHealth k order.healthy, .telling order k data) := by
  unfold obey asked
  cases data.has order.key with
  | none => rfl
  | some present =>
    cases present with
    | false => rfl
    | true =>
      dsimp only
      cases ((data.get order.key).bind (Data.toInt intOfText)).bind (pyIndex s.proxy.ring.n) with
      | none => rfl
      | some k => rfl

theorem spikeEnds {intOfText : Bytes → Option Int} {s t : Site F} {data : Data} {answers : List Input} {status : Nat}
    (run : Run (Does (request intOfText)) (spike s data) answers (t, .replied status)) :
    Ended ⟨[], true⟩ data s answers t status := by
  unfold spike at run
  split at run
  · rename_i unreadable
    obtain ⟨rfl, rfl, rfl⟩ := repliedRun run
    exact ⟨rfl, fun _ opened => absurd (unreadable.symm.trans opened.present) (by simp), fun _ _ => rfl⟩
  · obtain ⟨rfl, rfl, rfl⟩ := repliedRun run
    exact ⟨rfl, fun error => absurd rfl error, fun error => absurd rfl error⟩
  · rename_i present
    split at run <;> obtain ⟨rfl, rfl, rfl⟩ := repliedRun run
    · rename_i denied
      exact ⟨rfl, fun _ opened => absurd denied opened.granted, fun _ _ => rfl⟩
    · rename_i full
      refine ⟨rfl, fun _ _ => rfl, fun _ closed => absurd ⟨rfl, nofun, present, ?_⟩ closed⟩
      rw [full]
      exact nofun
    · rename_i writable _
      refine ⟨rfl, fun _ _ => rfl, fun _ closed => absurd ⟨rfl, nofun, present, ?_⟩ closed⟩
      rw [writable]
      exact nofun
    · exact ⟨rfl, fun error => absurd rfl error, fun error => absurd rfl error⟩

theorem openedTold {p : Plan} {given : Order × Nat} {data : Data} {disk : Disk} {answers : List Input} :
    Opened ⟨given :: p.orders, p.complete⟩ data disk (.told :: answers) ↔ Opened p data disk answers := by
  constructor
  · intro ⟨complete, told, present, granted⟩
    exact ⟨complete, (List.forall_mem_cons.mp told).2, present, granted⟩
  · intro ⟨complete, told, present, granted⟩
    exact ⟨complete, List.forall_mem_cons.mpr ⟨rfl, told⟩, present, granted⟩

theorem followEnds {intOfText : Bytes → Option Int} {orders : List Order}
    (chained : Chained (F := F) intOfText orders) {s t : Site F} {data : Data} {answers : List Input} {status : Nat}
    (run : Run (Does (request intOfText)) (follow intOfText orders s data) answers (t, .replied status)) :
    Ended (plan intOfText s.proxy.ring.n data orders) data s answers t status := by
  induction orders generalizing s answers with
  | nil => exact spikeEnds run
  | cons order rest ih =>
    obtain ⟨next, chained⟩ := chained
    rw [follow, obeyAsked] at run
    unfold plan
    split at run
    · obtain ⟨rfl, rfl, rfl⟩ := repliedRun run
      exact ⟨rfl, fun _ opened => absurd opened.complete nofun, fun _ _ => rfl⟩
    · exact ih chained run
    · rename_i k found
      dsimp only
      cases run with
      | @cons _ input u answers _ head tail =>
      cases input <;> cases head
      · have ended := ih chained (next _ data ▸ tail)
        exact ⟨ended.proxy, fun error opened => ended.emptied error (openedTold.mp opened),
          fun error closed => ended.kept error fun opened => closed (openedTold.mpr opened)⟩
      · obtain ⟨rfl, rfl⟩ := leftRun tail
        refine ⟨?_, fun _ opened => absurd (opened.told _ List.mem_cons_self) nofun, fun _ _ => ?_⟩
        · split <;> rfl
        · split <;> rfl

/-! ### Where nothing is left behind -/

theorem askedInside {intOfText : Bytes → Option Int} {n k : Nat} {data : Data} {order : Order}
    (found : asked intOfText n data order = some (some k)) : k < n := by
  unfold asked at found
  split at found
  · cases found
  · cases found
  · obtain ⟨j, at_, same⟩ := Option.map_eq_some_iff.mp found
    cases same
    obtain ⟨i, _, index⟩ := Option.bind_eq_some_iff.mp at_
    exact HaRing.pyIndexInside index

theorem planInside {intOfText : Bytes → Option Int} {n : Nat} {data : Data} {orders : List Order} :
    ∀ given ∈ (plan intOfText n data orders).orders, given.2 < n := by
  induction orders with
  | nil => exact nofun
  | cons order rest ih =>
    unfold plan
    split
    · exact nofun
    · exact ih
    · rename_i k found
      exact List.forall_mem_cons.mpr ⟨askedInside found, ih⟩

theorem lastOnMember {k : Nat} {orders : List (Order × Nat)} {order : Order} (last : lastOn k orders = some order) :
    (order, k) ∈ orders := by
  induction orders with
  | nil => contradiction
  | cons given orders ih =>
    rw [lastOn] at last
    rcases Option.or_eq_some_iff.mp last with later | ⟨_, here⟩
    · exact List.mem_cons_of_mem _ (ih later)
    · split at here
      · rename_i same
        cases here
        rw [same]
        exact List.mem_cons_self
      · contradiction

/-- The flags are as before where every last order says what they said. -/
theorem givenSame {p : Proxy F} {orders : List (Order × Nat)} (inside : ∀ given ∈ orders, given.2 < p.ring.n) :
    ((orders.foldl give p).ring = p.ring ∧ (orders.foldl give p).metrics.health = p.metrics.health) ↔
      ∀ k order, lastOn k orders = some order →
        p.ring.health.getD k false = order.healthy ∧ p.metrics.health k = order.healthy := by
  constructor
  · intro ⟨ring, health⟩ k order last
    have within := inside _ (lastOnMember last)
    have first := givenRing orders within
    have second := givenMetrics orders p k
    rw [last] at first second
    exact ⟨(congrArg (·.health.getD k false) ring).symm.trans first, (congrFun health k).symm.trans second⟩
  · intro repeats
    refine ⟨ringSame (givenVnodes orders p) fun i within => ?_, funext fun i => ?_⟩
    · rw [givenRing orders within]
      cases last : lastOn i orders with
      | none => rfl
      | some order => exact (repeats i order last).1.symm
    · rw [givenMetrics]
      cases last : lastOn i orders with
      | none => rfl
      | some order => exact (repeats i order last).2.symm

theorem endedIntact {p : Plan} {data : Data} {s t : Site F} {answers : List Input} {status : Nat}
    (ended : Ended p data s answers t status) (error : status ≠ 200)
    (inside : ∀ given ∈ p.orders, given.2 < s.proxy.ring.n) :
    Intact s t ↔ (∀ k order, lastOn k (p.orders.take answers.length) = some order →
      s.proxy.ring.health.getD k false = order.healthy ∧ s.proxy.metrics.health k = order.healthy) ∧
      (Opened p data s.disk answers → s.spikeFlag = some []) := by
  rw [← givenSame fun given member => inside given (List.mem_of_mem_take member), ← ended.proxy]
  have flag : t.spikeFlag = s.spikeFlag ↔ (Opened p data s.disk answers → s.spikeFlag = some []) := by
    by_cases opened : Opened p data s.disk answers
    · rw [ended.emptied error opened]
      exact ⟨fun same _ => same.symm, fun empty => (empty opened).symm⟩
    · exact iff_of_true (ended.kept error opened) fun last => absurd last opened
  rw [← flag]
  constructor
  · exact fun intact => ⟨⟨intact.ring, intact.health⟩, intact.spike⟩
  · exact fun ⟨⟨ring, health⟩, spike⟩ => ⟨ring, health, spike⟩

/-- After the gate and the body a request is its orders and its spike, and both come before what can fail. -/
theorem errorIntact {intOfText : Bytes → Option Int} {s t : Site F} {inputs : List Input} {status : Nat}
    (run : Run (Does (request intOfText)) (s, .arrived) inputs (t, .replied status)) (error : status ≠ 200) :
    Intact s t ↔ Harmless intOfText s inputs := by
  cases run with
  | @cons _ input _ inputs _ head tail =>
  cases input <;> try contradiction
  rename_i refusal
  cases refusal with
  | some refused =>
    cases head
    obtain ⟨rfl, rfl, _⟩ := repliedRun tail
    exact iff_of_true ⟨rfl, rfl, rfl⟩ trivial
  | none =>
    cases head
    cases tail with
    | @cons _ input _ answers _ head tail =>
    cases input <;> cases head
    · rename_i data
      have chained : Chained (F := F) intOfText [.kill, .revive] := ⟨fun _ _ => rfl, fun _ _ => rfl, trivial⟩
      exact endedIntact (followEnds chained tail) error planInside
    · obtain ⟨rfl, rfl⟩ := leftRun tail
      exact iff_of_true ⟨rfl, rfl, rfl⟩ trivial

/-! ### A kill that the backend does not hear of -/

/-- Backend 0 is told to die while nothing listens on its port. -/
def unheard : List Input :=
  [.gate none, .body (.dict [(ascii "kill_backend", .int 0)]), .untold false (.network (ascii "refused"))]

theorem unheardRun : Run (Does (request fun _ => none)) (AdminKill.two.site, .arrived) unheard
    (AdminKill.two.site.putHealth 0 false, .replied 400) :=
  .cons rfl (.cons rfl (.cons rfl (.nil _)))

theorem unheardKills : ¬ ∀ (s t : Site ℚ) (inputs : List Input) (status : Nat),
    Run (Does (request fun _ => none)) (s, .arrived) inputs (t, .replied status) → status ≠ 200 → Intact s t := by
  intro promised
  have intact := promised _ _ _ _ unheardRun (by decide)
  have flag : false = true := congrFun intact.health 0
  contradiction

/-- Killed by its index from the end and revived, and heard of neither in the end. -/
def unheardAgain : List Input :=
  [.gate none, .body (.dict [(ascii "kill_backend", .int (-2)), (ascii "revive_backend", .int 0)]), .told,
    .untold true (.network (ascii "reset"))]

theorem unheardAgainIntact : ∃ t, Run (Does (request fun _ => none)) (AdminKill.two.site, .arrived) unheardAgain
    (t, .replied 400) ∧ Intact AdminKill.two.site t := by
  have run : Run (Does (request fun _ => none)) (AdminKill.two.site, .arrived) unheardAgain (_, .replied 400) :=
    .cons rfl (.cons rfl (.cons rfl (.cons rfl (.nil _))))
  refine ⟨_, run, (errorIntact run (by decide)).mpr ⟨fun k order last => ?_, fun opened => ?_⟩⟩
  · have orders : (plan (fun _ => none) 2 (.dict [(ascii "kill_backend", .int (-2)), (ascii "revive_backend", .int 0)])
        [.kill, .revive]).orders.take 2 = [(.kill, 0), (.revive, 0)] := rfl
    have given : lastOn k [(.kill, 0), (.revive, 0)] = some order := orders ▸ last
    by_cases zero : k = 0
    · subst zero
      cases given
      exact ⟨rfl, rfl⟩
    · simp [lastOn, zero] at given
  · exact absurd (opened.told _ (List.mem_cons_of_mem _ List.mem_cons_self)) nofun

end OmegaLb.AdminErrors
