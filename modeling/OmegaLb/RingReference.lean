import OmegaLb.Clockwise
import OmegaLb.RingRoute
import OmegaLb.RingWrites

/-! Route against its reference: the first admissible vnode clockwise of the hashed key, and
the least loaded eligible backend when no vnode is admissible. -/
namespace OmegaLb.RingReference
open RingManager RingInvariant RingRoute RingWrites
open GoMap (Related)
open Clockwise (CutAt fromPoint)
open RingHash (murmur3Finalise)

variable {F : Type}

def placeOf (vn : Vnode) : Nat := vn.pos.toNat

def clockwise (ring : List Vnode) (pos : UInt32) : List Vnode := fromPoint placeOf pos.toNat ring

/-! ### The binary search -/

structure Bracketed (ring : List Vnode) (pos : UInt32) (lo hi : Nat) : Prop where
  below : ∀ i vn, ring[i]? = some vn → i < lo → vn.pos ≤ pos
  above : ∀ i vn, ring[i]? = some vn → hi ≤ i → pos < vn.pos

theorem bracketedCut {ring : List Vnode} {pos : UInt32} {k : Nat}
    (bracketed : Bracketed ring pos k k) : CutAt placeOf pos.toNat ring k where
  before := by
    intro vn inside
    obtain ⟨i, found⟩ := List.mem_iff_getElem?.mp inside
    rw [List.getElem?_take] at found
    split at found
    · exact UInt32.le_iff_toNat_le.mp (bracketed.below i vn found ‹_›)
    · contradiction
  after := by
    intro vn inside
    obtain ⟨i, found⟩ := List.mem_iff_getElem?.mp inside
    rw [List.getElem?_drop] at found
    exact UInt32.lt_iff_toNat_lt.mp (bracketed.above _ vn found (Nat.le_add_right k i))

theorem sortedGet {ring : List Vnode} (sorted : ring.Pairwise fun a b => a.pos ≤ b.pos) {i j : Nat}
    {a b : Vnode} (first : ring[i]? = some a) (second : ring[j]? = some b) (le : i ≤ j) :
    a.pos ≤ b.pos := by
  obtain ⟨boundI, valueI⟩ := List.getElem?_eq_some_iff.mp first
  obtain ⟨boundJ, valueJ⟩ := List.getElem?_eq_some_iff.mp second
  rcases Nat.lt_or_eq_of_le le with lt | same
  · rw [← valueI, ← valueJ]
    exact List.pairwise_iff_getElem.mp sorted i j boundI boundJ lt
  · subst same
    rw [← valueI, ← valueJ]
    exact UInt32.le_refl _

theorem goIndexRead {α : Type} {xs : List α} {i : Nat} {x : α} (read : goIndex xs i = .ok x) :
    xs[i]? = some x := by
  cases found : xs[i]? with
  | none => simp [goIndex, found] at read
  | some y =>
    rw [goIndexFound found] at read
    cases read
    rfl

theorem bisectLoopBrackets {ring : List Vnode} (sorted : ring.Pairwise fun a b => a.pos ≤ b.pos)
    {pos : UInt32} {lo hi k : Nat} (le : lo ≤ hi) (start : Bracketed ring pos lo hi)
    (found : bisectLoop ring pos lo hi = .ok k) : Bracketed ring pos k k := by
  fun_induction bisectLoop ring pos lo hi with
  | case1 lo hi lt mid p failed => contradiction
  | case2 lo hi lt mid vn read upTo ih =>
    refine ih (by omega) ⟨fun i x inside below => ?_, start.above⟩ found
    exact UInt32.le_trans (sortedGet sorted inside (goIndexRead read) (by omega)) upTo
  | case3 lo hi lt mid vn read beyond ih =>
    refine ih (by omega) ⟨start.below, fun i x inside above => ?_⟩ found
    exact UInt32.lt_of_lt_of_le (UInt32.not_le.mp beyond)
      (sortedGet sorted (goIndexRead read) inside above)
  | case4 lo hi done =>
    have same : lo = k := Except.ok.inj found
    rwa [show hi = lo by omega, same] at start

theorem bisectRightBrackets {m : Manager F} (sorted : m.ring.Pairwise fun a b => a.pos ≤ b.pos) (pos : UInt32) :
    ∃ k, m.bisectRight pos = .ok (if k ≥ m.ring.length then 0 else k) ∧ k ≤ m.ring.length ∧
      Bracketed m.ring pos k k := by
  obtain ⟨k, ok, _, high⟩ := bisectLoopOk m.ring pos 0 m.ring.length (Nat.zero_le _) (Nat.le_refl _)
  have start : Bracketed m.ring pos 0 m.ring.length := by
    refine ⟨fun i vn _ below => absurd below (Nat.not_lt_zero i), fun i vn found above => ?_⟩
    rw [List.getElem?_eq_none above] at found
    contradiction
  refine ⟨k, ?_, high, bisectLoopBrackets sorted (Nat.zero_le _) start ok⟩
  simp [Manager.bisectRight, ok, bind, Except.bind, pure, Except.pure]

theorem bisectRightRotates {m : Manager F} (sound : Sound m) (nonempty : m.ring.length ≠ 0)
    (pos : UInt32) : ∃ idx, m.bisectRight pos = .ok idx ∧ idx < m.ring.length ∧
      clockwise m.ring pos = m.ring.rotate idx := by
  obtain ⟨k, ok, high, bracketed⟩ := bisectRightBrackets sound.sorted pos
  have rotated : clockwise m.ring pos = m.ring.rotate k := Clockwise.cutRotates (bracketedCut bracketed) high
  refine ⟨if k ≥ m.ring.length then 0 else k, ok, ?_, ?_⟩
  · split <;> omega
  · -- past the last entry the search wraps to the first
    split
    · rw [rotated, show k = m.ring.length by omega, List.rotate_length, List.rotate_zero]
    · exact rotated

/-! ### The least loaded backend -/

theorem leastLoadedLeast (rt : Runtime) {m : Manager F} {least : Backend}
    (found : m.leastLoaded rt = some least) : least ∈ GoMap.values m.backends ∧
      least.eligible = true ∧
      ∀ b ∈ GoMap.values m.backends, b.eligible = true → least.activeReqs ≤ b.activeReqs := by
  have members : ∀ b, b ∈ (rt.order (GoMap.values m.backends)).filter Backend.eligible ↔
      b ∈ GoMap.values m.backends ∧ b.eligible = true := by
    intro b
    rw [List.mem_filter, (rt.orderPerm _).mem_iff]
  rw [Manager.leastLoaded, coolerKeeps] at found
  obtain ⟨origin, below, _⟩ := FirstLeast.keptLeast _ none found
  have inside := (members least).mp (origin.resolve_right (by simp))
  exact ⟨inside.1, inside.2, fun b registered eligible => below b ((members b).mpr ⟨registered, eligible⟩)⟩

/-! ### The reference -/

variable [GoFloat F]

/-- beta * (total of ActiveReqs / number of registered backends), the total as an int64 -/
def loadBound (m : Manager F) : F :=
  m.cfg.boundedLoadBeta * (GoFloat.ofInt m.totalActiveReqs / GoFloat.ofInt (GoMap.size m.backends))

def withinBound (m : Manager F) (b : Backend) : Bool :=
  !GoFloat.gt (GoFloat.ofInt b.activeReqs) (loadBound m)

def admits (m : Manager F) (vn : Vnode) : Bool :=
  match m.backends.lookup vn.backend with
  | some b => withinBound m b
  | none => false

theorem admitsBackend {m : Manager F} {vn : Vnode} {b : Backend}
    (registered : m.backends.lookup vn.backend = some b) : admits m vn = withinBound m b := by
  unfold admits
  rw [registered]

structure LeastLoaded (m : Manager F) (b : Backend) : Prop where
  registered : b ∈ GoMap.values m.backends
  eligible : b.health = true ∧ b.draining = false
  least : ∀ c ∈ GoMap.values m.backends, c.health = true → c.draining = false →
    b.activeReqs ≤ c.activeReqs

/-- What Route has to return for `key` on a non-empty ring. -/
def Chooses (m : Manager F) (key id : UInt32) : Prop :=
  match (clockwise m.ring (murmur3Finalise key)).find? (admits m) with
  | some vn => id = vn.backend
  | none => ∃ b, b.id = id ∧ LeastLoaded m b

theorem boundMean {m : Manager F} (someone : GoMap.values m.backends ≠ []) :
    m.cfg.boundedLoadBeta * m.mean = loadBound m := by
  have positive : 0 < (GoMap.values m.backends).length := List.length_pos_of_ne_nil someone
  have count : max64 (GoMap.size m.backends) 1 = GoMap.size m.backends := by
    simp only [GoMap.values, List.length_map] at positive
    unfold max64 GoMap.size
    split <;> omega
  unfold loadBound Manager.mean
  rw [count]

theorem probeRingFinds {m : Manager F} (sound : Sound m) (idx remaining probe : Nat)
    (whole : probe + remaining = m.ring.length) :
    m.probeRing idx remaining probe =
      .ok ((((m.ring.rotate idx).drop probe).find? (admits m)).bind fun vn =>
        m.backends.lookup vn.backend) := by
  induction remaining generalizing probe with
  | zero =>
    rw [List.drop_eq_nil_of_le (by rw [List.length_rotate]; omega)]
    rfl
  | succ remaining ih =>
    have divisor : (m.ring.length : Int) ≠ 0 := by omega
    have turned : goRem ((idx : Int) + probe) m.ring.length =
        .ok ((probe + idx) % m.ring.length : Nat) := by
      rw [goRemOk divisor, Int.add_comm]
      rfl
    have within : probe < (m.ring.rotate idx).length := by rw [List.length_rotate]; omega
    obtain ⟨vn, here⟩ : ∃ vn, (m.ring.rotate idx)[probe]? = some vn :=
      ⟨_, List.getElem?_eq_getElem within⟩
    have read : m.ring[(probe + idx) % m.ring.length]? = some vn := by
      rwa [List.getElem?_rotate (by omega)] at here
    obtain ⟨b, registered, eligible⟩ := ringRegistered sound (List.mem_of_getElem? read)
    have healthy : b.health = true := (Bool.and_eq_true_iff.mp eligible).1
    have someone : GoMap.values m.backends ≠ [] :=
      List.ne_nil_of_mem (GoMap.memValues.mpr ⟨_, registered⟩)
    rw [List.drop_eq_getElem_cons within, (List.getElem?_eq_some_iff.mp here).2, List.find?_cons]
    simp only [Manager.probeRing, turned, goIndexFound read, registered, bind, Except.bind, healthy,
      Bool.not_true, boundMean someone, admitsBackend registered, withinBound]
    cases GoFloat.gt (GoFloat.ofInt b.activeReqs) (loadBound m) with
    | true => exact ih (probe + 1) (by omega)
    | false => simp [registered, pure, Except.pure]

/-! ### Route -/

def counted (m : Manager F) (id : UInt32) : Manager F :=
  { m with
    backends := GoMap.modify m.backends id Backend.countRequest
    reqCount := m.reqCount + 1 }

omit [GoFloat F] in
theorem countedSound {m : Manager F} (sound : Sound m) (id : UInt32) : Sound (counted m id) :=
  quietWriteSound sound id Backend.countRequest (fun _ => rfl) (fun _ => rfl) _

/-- The backend that Route settles on, where the order of the map decides between equals. -/
def routeTarget (rt : Runtime) (m : Manager F) (key : UInt32) : Option Backend :=
  (((clockwise m.ring (murmur3Finalise key)).find? (admits m)).bind fun vn =>
    m.backends.lookup vn.backend) <|> m.leastLoaded rt

theorem routeFollows (rt : Runtime) {m : Manager F} (sound : Sound m) (nonempty : m.ring.length ≠ 0)
    (key : UInt32) {b : Backend} (target : routeTarget rt m key = some b) :
    m.route rt key = (goRem (m.reqCount + 1) m.cfg.adjustEveryN).bind fun turn =>
      .ok (if turn = 0 then (counted m b.id).adjust rt else counted m b.id, .ok b.id) := by
  obtain ⟨idx, bisect, inside, rotated⟩ := bisectRightRotates sound nonempty (murmur3Finalise key)
  have probed := probeRingFinds sound idx m.ring.length 0 (Nat.zero_add _)
  rw [List.drop_zero, ← rotated] at probed
  unfold routeTarget at target
  unfold Manager.route
  rw [if_neg nonempty]
  simp only [bisect, probed, target, bind, Except.bind, pure, Except.pure]
  rfl

theorem routeTargets (rt : Runtime) {m : Manager F} (sound : Sound m) (nonempty : m.ring.length ≠ 0)
    (key : UInt32) : ∃ b, routeTarget rt m key = some b ∧ m.backends.lookup b.id = some b ∧
      b.eligible = true ∧ Chooses m key b.id := by
  cases found : (clockwise m.ring (murmur3Finalise key)).find? (admits m) with
  | some vn =>
    have onRing : vn ∈ m.ring :=
      (Clockwise.fromPointPerm _ _ _).mem_iff.mp (List.mem_of_find?_eq_some found)
    obtain ⟨b, registered, eligible⟩ := ringRegistered sound onRing
    have same : b.id = vn.backend := sound.keyed _ b registered
    refine ⟨b, by simp [routeTarget, found, registered], same ▸ registered, eligible, ?_⟩
    simp only [Chooses, found, same]
  | none =>
    obtain ⟨c, someone, admitted⟩ := someoneEligible sound nonempty
    obtain ⟨least, fallback⟩ := leastLoadedSome rt someone admitted
    obtain ⟨registered, eligible, below⟩ := leastLoadedLeast rt fallback
    obtain ⟨k, lookup⟩ := GoMap.memValues.mp registered
    have same : least.id = k := sound.keyed k least lookup
    refine ⟨least, by simp [routeTarget, found, fallback], same ▸ lookup, eligible, ?_⟩
    simp only [Chooses, found]
    refine ⟨least, rfl, registered, by simpa [Backend.eligible] using eligible, ?_⟩
    exact fun d inside healthy staying => below d inside (by simp [Backend.eligible, healthy, staying])

theorem routePicks (rt : Runtime) {m : Manager F} (sound : Sound m) (nonempty : m.ring.length ≠ 0)
    (key : UInt32) : ∃ b, m.backends.lookup b.id = some b ∧ routeTarget rt m key = some b ∧
      b.eligible = true ∧ Chooses m key b.id ∧
      m.route rt key = (goRem (m.reqCount + 1) m.cfg.adjustEveryN).bind fun turn =>
        .ok (if turn = 0 then (counted m b.id).adjust rt else counted m b.id, .ok b.id) := by
  obtain ⟨b, target, registered, eligible, chooses⟩ := routeTargets rt sound nonempty key
  exact ⟨b, registered, target, eligible, chooses, routeFollows rt sound nonempty key target⟩

/-- A call that returned either found the ring empty or chose a backend and counted the
request on it; an adjustment after that moves vnodes only. -/
theorem routeAnswers (rt : Runtime) {m : Manager F} (sound : Sound m) {key : UInt32}
    {out : Manager F × Except RouteError UInt32} (routed : m.route rt key = .ok out) :
    (m.ring.length = 0 ∧ out = (m, .error .noBackendsInRing)) ∨
      m.ring.length ≠ 0 ∧ ∃ b, m.backends.lookup b.id = some b ∧ routeTarget rt m key = some b ∧
        b.eligible = true ∧ Chooses m key b.id ∧ out.2 = .ok b.id ∧
        Related Recounted (counted m b.id).backends out.1.backends := by
  by_cases empty : m.ring.length = 0
  · left
    rw [Manager.route, if_pos empty] at routed
    exact ⟨empty, (Except.ok.inj routed).symm⟩
  · right
    obtain ⟨b, registered, target, eligible, chooses, route⟩ := routePicks rt sound empty key
    refine ⟨empty, b, registered, target, eligible, chooses, ?_⟩
    rw [route] at routed
    cases turn : goRem (m.reqCount + 1) m.cfg.adjustEveryN with
    | error p =>
      rw [turn] at routed
      contradiction
    | ok r =>
      rw [turn] at routed
      cases routed
      refine ⟨rfl, ?_⟩
      dsimp only
      split
      · exact adjustWrites rt (countedSound sound b.id)
      · exact GoMap.relatedRefl recountedRefl _

def OneMore (m next : Manager F) (id : UInt32) : Prop :=
  ∀ k, (next.backends.lookup k).map Backend.activeReqs =
    (m.backends.lookup k).map fun b => b.activeReqs + if k = id then 1 else 0

omit [GoFloat F] in
theorem recountedLoads {m next : Manager F} {id : UInt32}
    (related : Related Recounted (counted m id).backends next.backends) (k : UInt32) :
    (next.backends.lookup k).map Backend.activeReqs =
      (m.backends.lookup k).map fun b => if k = id then wrapInt (b.activeReqs + 1) else b.activeReqs := by
  have after : (counted m id).backends.lookup k =
      (m.backends.lookup k).map fun b => if k = id then b.countRequest else b := by
    unfold counted
    rw [GoMap.lookupModify]
    split
    · subst k
      rfl
    · simp
  cases found : m.backends.lookup k with
  | none =>
    rw [found, Option.map_none] at after
    cases next_ : next.backends.lookup k with
    | none => rfl
    | some c =>
      obtain ⟨b, held, _⟩ := GoMap.relatedBefore related next_
      rw [after] at held
      contradiction
  | some b =>
    rw [found, Option.map_some] at after
    obtain ⟨c, next_, recounted⟩ := GoMap.relatedAfter related after
    rw [next_, Option.map_some, Option.map_some, recountedLoad recounted]
    split <;> rfl

end OmegaLb.RingReference
