import OmegaLb.RingInvariant

/-! The ring as a multiset: in every run its entries are the vnodes the registered, healthy
and non-draining backends are entitled to, each as often as it has indices hashing there. -/
namespace OmegaLb.RingRepresentation
open RingManager RingInvariant
open StepRun (Run)
open Config (RingConfig load)
open RingHash (murmur3_32 vnodeKey)

variable {F : Type}

/-- How often a ring entry is due: once for every index below the vnode count of its backend
whose key hashes to its position. -/
def due (m : Manager F) (vn : Vnode) : Nat :=
  match m.backends.lookup vn.backend with
  | none => 0
  | some b =>
    if b.health ∧ ¬ b.draining then
      (List.range b.vnodeCount.toNat).countP fun i =>
        decide (murmur3_32 (vnodeKey vn.backend i) = vn.pos)
    else 0

theorem countPlaced (place : Nat → UInt32) (is : List Nat) (pos id : UInt32) :
    (is.map fun i => (⟨place i, id⟩ : Vnode)).count ⟨pos, id⟩ =
      is.countP fun i => decide (place i = pos) := by
  rw [List.count, List.countP_map]
  apply List.countP_congr
  intro i _
  simp

theorem countVnodes {b : Backend} {id : UInt32} (same : b.id = id) (pos : UInt32) :
    b.vnodes.count ⟨pos, id⟩ = if b.health ∧ ¬ b.draining then
      (List.range b.vnodeCount.toNat).countP fun i => decide (murmur3_32 (vnodeKey id i) = pos)
    else 0 := by
  subst same
  have admitted : b.eligible = true ↔ b.health ∧ ¬ b.draining := by simp [Backend.eligible]
  unfold Backend.vnodes
  split
  · rename_i eligible
    rw [if_pos (admitted.mp eligible)]
    exact countPlaced (fun i => murmur3_32 (vnodeKey b.id i)) _ pos b.id
  · rename_i excluded
    rw [if_neg fun ok => excluded (admitted.mpr ok), List.count_nil]

theorem countElsewhere {b : Backend} {vn : Vnode} (other : b.id ≠ vn.backend) :
    b.vnodes.count vn = 0 := by
  apply List.count_eq_zero.mpr
  intro inside
  exact other (memVnodes inside).1.symm

theorem soundDue {m : Manager F} (sound : Sound m) (vn : Vnode) : m.ring.count vn = due m vn := by
  have elsewhere : ∀ k b, m.backends.lookup k = some b → k ≠ vn.backend → b.vnodes.count vn = 0 := by
    intro k b found other
    apply countElsewhere
    rwa [sound.keyed k b found]
  rw [sound.vnodes.count_eq, List.count_flatMap]
  refine (GoMap.sumValuesAt m.backends (fun b => b.vnodes.count vn) vn.backend elsewhere).trans ?_
  unfold due
  cases found : m.backends.lookup vn.backend with
  | none => rfl
  | some b => exact countVnodes (sound.keyed _ b found) vn.pos

variable [GoFloat F]

theorem ringRepresents {cfg : RingConfig F} {ops m} (run : Run Step (newManager cfg) ops m) :
    m.ring.Pairwise (fun a b => a.pos ≤ b.pos) ∧ ∀ vn, m.ring.count vn = due m vn :=
  have sound := runSound run
  ⟨sound.sorted, soundDue sound⟩

def drainOne : List (Runtime × Op F) :=
  [(.plain, .addBackend { id := 1, health := true }), (.plain, .addBackend { id := 2, health := true }),
    (.plain, .setVnodeCount 1 2), (.plain, .setDraining 2 true)]

theorem drainedRingRepresents : ∃ m : Manager ℚ, Run Step (newManager (load {})) drainOne m ∧
    m.ring.Pairwise (fun a b => a.pos ≤ b.pos) ∧ ∀ vn, m.ring.count vn = due m vn :=
  have run : Run Step (newManager (load {}) : Manager ℚ) drainOne _ :=
    .cons rfl (.cons rfl (.cons rfl (.cons rfl (.nil _))))
  ⟨_, run, ringRepresents run⟩

end OmegaLb.RingRepresentation
