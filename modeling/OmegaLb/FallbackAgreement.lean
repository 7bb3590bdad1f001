import OmegaLb.KanMonotone
import OmegaLb.StateLayout

/-! symbolicFallback of kan_actor.go on the layout its comment gives, against _infer_symbolic of
kan_inference.py with the default coefficients. They part where the scores leave next to nothing:
normalize then divides by what there is, or among all backends whether they are up or not. -/
namespace OmegaLb.Rl
open KanInference (Backend KANInference defaults flag flagsNone flagsSome scoresNonneg)

/-- What the layout has for a server: the quantities the equation reads and those it does not. -/
structure ServerState where
  backend : Backend ℚ
  conns : ℚ
  queue : ℚ
  tx : ℚ
  rx : ℚ

structure GlobalState where
  totalRps : ℚ
  p99 : ℚ
  timeSin : ℚ
  timeCos : ℚ

def ServerState.row (s : ServerState) : List ℚ :=
  [s.backend.cpu, s.conns, s.queue, s.backend.latMs, s.tx, s.rx, flag s.backend, s.backend.err]

def GlobalState.row (g : GlobalState) : List ℚ := [g.totalRps, g.p99, g.timeSin, g.timeCos]

def layout (servers : List ServerState) (g : GlobalState) : List ℚ := servers.flatMap ServerState.row ++ g.row

/-- What cpu, latency and errors leave of a backend that is up. -/
def spare (b : Backend ℚ) : ℚ :=
  let left := 1 - 42 / 100 * b.cpu - 31 / 100 * b.latMs / 1000 - 10 * b.err
  if b.health = true ∧ 0 < left then left else 0

/-! ### The two equations -/

theorem rawSpare (b : Backend ℚ) : defaults.raw b = spare b := by
  simp only [KANInference.raw, defaults, KANInference.init, flag, spare]
  cases b.health with
  | false => simp
  | true =>
    simp only [if_true, mul_one, true_and]
    split
    · rename_i positive
      exact max_eq_right positive.le
    · rename_i none_
      exact max_eq_left (not_lt.mp none_)

theorem scoreSpare (b : Backend ℚ) : score b.cpu b.latMs (flag b) b.err = spare b := by
  have same : (1.0 : ℚ) - 0.42 * b.cpu - 0.31 * (b.latMs / 1000.0) - 10.0 * b.err =
      1 - 42 / 100 * b.cpu - 31 / 100 * b.latMs / 1000 - 10 * b.err := by
    norm_num
    ring
  simp only [score, ratGt, ratLit, decide_eq_true_eq, same, ← rawSpare]
  simp only [KANInference.raw, defaults, KANInference.init]
  split
  · rename_i negative
    rw [max_eq_left negative.le]
  · rename_i nonneg
    rw [max_eq_right (not_lt.mp nonneg)]

theorem layoutFallback {servers : List ServerState} (some_ : servers ≠ []) (g : GlobalState) :
    symbolicFallback (layout servers g) =
      .ok (normalize ((servers.map ServerState.backend).map spare)) := by
  have reads : RowReads ServerState.row (fun s => s.backend.cpu) (fun s => s.backend.latMs)
      (fun s => flag s.backend) fun s => s.backend.err :=
    ⟨fun _ => rfl, fun _ => rfl, fun _ => rfl, fun _ => rfl, fun _ => rfl⟩
  rw [layout, fallbackRows reads rfl some_, List.map_map]
  simp only [scoreSpare]
  rfl

/-! ### Below the threshold -/

theorem spareNonneg (b : Backend ℚ) : 0 ≤ spare b := rawSpare b ▸ KanInference.rawNonneg defaults b

theorem sparesNonneg (backends : List (Backend ℚ)) : ∀ x ∈ backends.map spare, 0 ≤ x := by
  intro x member
  obtain ⟨b, _, rfl⟩ := List.mem_map.mp member
  exact spareNonneg b

theorem spareUp {b : Backend ℚ} (positive : 0 < spare b) : b.health = true := by
  by_contra down
  rw [spare, if_neg fun both => down both.1] at positive
  exact lt_irrefl 0 positive

theorem spareDown {b : Backend ℚ} (down : b.health = false) : spare b = 0 := if_neg (by simp [down])

theorem sparesSome {backends : List (Backend ℚ)} (nonzero : (backends.map spare).sum ≠ 0) :
    ∃ b ∈ backends, 0 < spare b := by
  by_contra none_
  refine nonzero (List.sum_eq_zero fun x member => ?_)
  obtain ⟨b, inside, rfl⟩ := List.mem_map.mp member
  exact le_antisymm (not_lt.mp fun positive => none_ ⟨b, inside, positive⟩) (spareNonneg b)

theorem flagsAll {backends : List (Backend ℚ)} (up : ∀ b ∈ backends, b.health = true) :
    (backends.map flag).sum = (backends.length : ℚ) := by
  have ones : backends.map flag = List.replicate backends.length (1 : ℚ) :=
    List.map_eq_replicate_iff.mpr fun b inside => if_pos (up b inside)
  rw [ones, List.sum_replicate, nsmul_eq_mul, mul_one]

def AlikeUp (backends : List (Backend ℚ)) : Prop :=
  ∀ a ∈ backends, ∀ b ∈ backends, a.health = true → b.health = true → spare a = spare b

def PoliciesMeet (backends : List (Backend ℚ)) : Prop :=
  1 / 10 ^ 9 ≤ (backends.map spare).sum ∨ (∀ b ∈ backends, b.health = false) ∨
    AlikeUp backends ∧ ((∀ b ∈ backends, b.health = true) ∨ ∃ b ∈ backends, 0 < spare b)

theorem normalizeShares (backends : List (Backend ℚ)) (w : Backend ℚ → ℚ) :
    normalize (backends.map spare) = backends.map w ↔ ∀ b ∈ backends,
      (if (backends.map spare).sum = 0 then 1 / (backends.length : ℚ)
        else spare b / (backends.map spare).sum) = w b := by
  rw [normalizeRat, List.map_map, List.length_map]
  exact List.map_inj_left

theorem evenNothing {backends : List (Backend ℚ)}
    (nothing : (backends.map spare).sum = 0) :
    (∀ b ∈ backends, 1 / (backends.length : ℚ) = flag b / (backends.map flag).sum) ↔
      AlikeUp backends ∧ ((∀ b ∈ backends, b.health = true) ∨ ∃ b ∈ backends, 0 < spare b) := by
  have each : ∀ b ∈ backends, spare b = 0 := fun b inside =>
    List.all_zero_of_le_zero_le_of_sum_eq_zero (sparesNonneg backends) nothing (List.mem_map_of_mem inside)
  constructor
  · intro even
    refine ⟨fun a left b right _ _ => (each a left).trans (each b right).symm, .inl fun b inside => ?_⟩
    by_contra down
    have share := even b inside
    rw [KanInference.flagDown (Bool.eq_false_iff.mpr down), zero_div] at share
    have count : (0 : ℚ) < backends.length := by exact_mod_cast List.length_pos_of_mem inside
    exact (one_div_pos.mpr count).ne' share
  · rintro ⟨_, all | ⟨b, inside, positive⟩⟩ c member
    · rw [flagsAll all, flag, if_pos (all c member)]
    · exact absurd (each b inside) positive.ne'

theorem evenLittle {backends : List (Backend ℚ)} (little : (backends.map spare).sum ≠ 0) :
    (∀ b ∈ backends, spare b / (backends.map spare).sum = flag b / (backends.map flag).sum) ↔
      AlikeUp backends ∧ ((∀ b ∈ backends, b.health = true) ∨ ∃ b ∈ backends, 0 < spare b) := by
  obtain ⟨p, listed, positive⟩ := sparesSome little
  constructor
  · intro even
    refine ⟨fun a left b right first second => ?_, .inr ⟨p, listed, positive⟩⟩
    have shares : spare a / (backends.map spare).sum = spare b / (backends.map spare).sum := by
      rw [even a left, even b right, flag, flag, if_pos first, if_pos second]
    exact (div_left_inj' little).mp shares
  · rintro ⟨alike, _⟩ b inside
    have multiple : ∀ c ∈ backends, spare c = spare p * flag c := by
      intro c member
      cases health : c.health with
      | false => rw [spareDown health, KanInference.flagDown health, mul_zero]
      | true => rw [alike c member p listed health (spareUp positive), flag, if_pos health, mul_one]
    have total : (backends.map spare).sum = spare p * (backends.map flag).sum := by
      rw [List.map_congr_left multiple, List.sum_map_mul_left]
    rw [total, multiple b inside, mul_div_mul_left _ _ positive.ne']

/-- With nobody up both divide evenly among all. -/
theorem downAgrees {backends : List (Backend ℚ)} (down : ∀ b ∈ backends, b.health = false) :
    normalize (backends.map spare) = defaults.inferSymbolic backends := by
  have scores : backends.map defaults.raw = backends.map spare := List.map_congr_left fun b _ => rawSpare b
  have nothing : (backends.map spare).sum = 0 := by
    refine List.sum_eq_zero fun x member => ?_
    obtain ⟨b, inside, rfl⟩ := List.mem_map.mp member
    exact spareDown (down b inside)
  have nobody : ¬ ∃ b ∈ backends, b.health = true := by
    rintro ⟨b, inside, up⟩
    exact Bool.false_ne_true ((down b inside).symm.trans up)
  have little : (backends.map spare).sum < 1 / 10 ^ 9 := nothing ▸ by norm_num
  simp only [KANInference.inferSymbolic, scores, if_pos little, flagsNone nobody, lt_irrefl, if_false, List.length_map]
  rw [normalizeRat, List.eq_replicate_iff]
  refine ⟨by simp, fun x member => ?_⟩
  obtain ⟨y, _, rfl⟩ := List.mem_map.mp member
  rw [if_pos nothing, List.length_map]

/-! ### Agreement -/

theorem policiesAgree {servers : List ServerState} (some_ : servers ≠ []) (g : GlobalState) :
    symbolicFallback (layout servers g) = .ok (defaults.inferSymbolic (servers.map ServerState.backend)) ↔
      PoliciesMeet (servers.map ServerState.backend) := by
  rw [layoutFallback some_, Except.ok.injEq, PoliciesMeet]
  generalize servers.map ServerState.backend = backends
  have scores : backends.map defaults.raw = backends.map spare := List.map_congr_left fun b _ => rawSpare b
  by_cases enough : 1 / 10 ^ 9 ≤ (backends.map spare).sum
  · refine iff_of_true ?_ (.inl enough)
    rw [KanInference.symbolicShares (scores ▸ enough), scores, List.map_map, normalizeShares]
    intro b _
    have positive : 0 < (backends.map spare).sum := lt_of_lt_of_le (by norm_num) enough
    exact if_neg positive.ne'
  · rw [or_iff_right enough]
    by_cases up : ∃ b ∈ backends, b.health = true
    · have somebody : ¬ ∀ b ∈ backends, b.health = false := by
        obtain ⟨b, inside, health⟩ := up
        exact fun down => Bool.false_ne_true ((down b inside).symm.trans health)
      rw [KanInference.symbolicEven (scores ▸ not_le.mp enough) up, List.map_map, normalizeShares,
        or_iff_right somebody]
      by_cases nothing : (backends.map spare).sum = 0
      · simp only [if_pos nothing]
        exact evenNothing nothing
      · simp only [if_neg nothing]
        exact evenLittle nothing
    · have down : ∀ b ∈ backends, b.health = false := fun b inside =>
        Bool.eq_false_iff.mpr fun health => up ⟨b, inside, health⟩
      exact iff_of_true (downAgrees down) (.inl down)

def idle : Backend ℚ := ⟨1 / 5, 20, 0, true⟩

def failing : Backend ℚ := ⟨0, 0, 1 / 10, true⟩

def unreachable : Backend ℚ := ⟨0, 0, 0, false⟩

def server (b : Backend ℚ) : ServerState := ⟨b, 0, 0, 0, 0⟩

theorem policiesAgreeIdle : symbolicFallback (layout [server idle, server unreachable] ⟨0, 0, 0, 1⟩) =
    .ok (defaults.inferSymbolic [idle, unreachable]) := by
  exact (policiesAgree (by decide) ⟨0, 0, 0, 1⟩).mpr (.inl (by decide +kernel))

/-- One answer in ten fails on the backend that is up: half of the requests go to the one that is down. -/
theorem saturatedDisagrees : ¬ ∀ (servers : List ServerState) (g : GlobalState), servers ≠ [] →
    symbolicFallback (layout servers g) =
      .ok (defaults.inferSymbolic (servers.map ServerState.backend)) := by
  intro agree
  have same := agree [server failing, server unreachable] ⟨0, 0, 0, 1⟩ (by simp)
  have left : symbolicFallback (layout [server failing, server unreachable] ⟨0, 0, 0, 1⟩) =
      .ok [1 / 2, 1 / 2] := by decide +kernel
  have right : defaults.inferSymbolic [failing, unreachable] = [1, 0] := by decide +kernel
  rw [left] at same
  have halves : [1 / 2, 1 / 2] = [(1 : ℚ), 0] := (Except.ok.inj same).trans right
  norm_num at halves

end OmegaLb.Rl
