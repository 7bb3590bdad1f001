import OmegaLb.GoRounding
import OmegaLb.RingReference
import Mathlib.Algebra.Order.BigOperators.Group.List

/-! Route meets its reference in every run, as long as the loads add up inside an int64. When every
backend is on the ring and beta is at least one, some load is within the mean, so the fallback is
never taken. -/
namespace OmegaLb.BoundedLoad
open RingManager RingInvariant RingRoute RingReference
open StepRun (Run)
open Config (RingConfig load)
open RingHash (murmur3Finalise)

variable {F : Type}

/-- Every registered backend is healthy, not draining and has a vnode. -/
def AllServing (m : Manager F) : Prop :=
  ∀ b ∈ GoMap.values m.backends, b.health = true ∧ b.draining = false ∧ 1 ≤ b.vnodeCount

def totalLoad (m : Manager F) : Int := ((GoMap.values m.backends).map Backend.activeReqs).sum

section Reference
variable [GoFloat F]

/-- beta * (total of ActiveReqs / number of registered backends) -/
def meanBound (m : Manager F) : F :=
  m.cfg.boundedLoadBeta * (GoFloat.ofInt (totalLoad m) / GoFloat.ofInt (GoMap.size m.backends))

def qualifies (m : Manager F) (vn : Vnode) : Bool :=
  match m.backends.lookup vn.backend with
  | some b => !GoFloat.gt (GoFloat.ofInt b.activeReqs) (meanBound m)
  | none => false

/-- What Route has to return for `key` on a non-empty ring. -/
def Answers (m : Manager F) (key id : UInt32) : Prop :=
  match (clockwise m.ring (murmur3Finalise key)).find? (qualifies m) with
  | some vn => id = vn.backend
  | none => ∃ b, b.id = id ∧ LeastLoaded m b

end Reference

variable [GoRounding F]

/-- The counts up to a total have exact float64 values, as those below 2^53 have. -/
def ExactUpTo (F : Type) [GoRounding F] (total : Int) : Prop :=
  ∀ n : Int, 0 ≤ n → n ≤ total → GoRounding.rounded F n = n

theorem exactBelow {total : Int} (small : total ≤ 2 ^ 53) : ExactUpTo F total := by
  intro n nonneg below
  apply GoRounding.roundedInt
  rw [abs_of_nonneg nonneg]
  omega

structure Meets (m : Manager F) (key : UInt32) (next : Manager F)
    (answer : Except RouteError UInt32) : Prop where
  fails : (∃ e, answer = .error e) ↔ m.ring = []
  unchanged : m.ring = [] → next = m
  chooses : ∀ id, answer = .ok id → Answers m key id ∧ OneMore m next id
  bounded : AllServing m → 1 ≤ GoRounding.value m.cfg.boundedLoadBeta →
    ExactUpTo F (totalLoad m) → ∀ id, answer = .ok id →
      ((clockwise m.ring (murmur3Finalise key)).find? (qualifies m)).isSome = true ∧
      ∃ b, next.backendInfo id = some b ∧
        (b.activeReqs : ℚ) ≤ GoRounding.value (meanBound m) + 1

def single : RingConfig ℚ := load { vnodesPerServer := some 1 }

/-- A runtime whose sort the kernel can evaluate. -/
def inserting : Runtime :=
  { Runtime.plain with
    sort := List.insertionSort fun a b => a.pos ≤ b.pos
    sortPerm := fun vs => List.perm_insertionSort _ vs
    sorted := fun vs =>
      have : Std.Total fun a b : Vnode => a.pos ≤ b.pos := ⟨fun a b => UInt32.le_total a.pos b.pos⟩
      have : IsTrans Vnode fun a b => a.pos ≤ b.pos := ⟨fun _ _ _ => UInt32.le_trans⟩
      List.pairwise_insertionSort _ vs }

end OmegaLb.BoundedLoad
