import OmegaLb.LbPolicy
import Mathlib.Tactic.IntervalCases

/-! Which backend lb_policy selects, against the first admissible vnode clockwise of the hash on
a ring of `size` entries, and against the Maglev table. -/
namespace OmegaLb.RingSelection
open KernelMaps LbPolicy CircularProbe
open Reconcile (BackendEntry)

/-- A ring as the control plane writes it. The array beyond `size` may hold anything. -/
structure RingWritten (k : Kernel) : Prop where
  nonempty : 1 ≤ k.ringMeta.size.toNat
  fits : k.ringMeta.size.toNat ≤ 65536
  sorted : ∀ i j, i ≤ j → j < k.ringMeta.size.toNat → k.ringMeta.key i ≤ k.ringMeta.key j
  mapped : ∀ i, i < k.ringMeta.size.toNat → (k.haRing.lookup (k.ringMeta.key i)).isSome

def upperBound (ring : RingMeta) (pos : UInt32) : Nat :=
  (List.range ring.size.toNat).countP fun i => decide (ring.key i ≤ pos)

def start (ring : RingMeta) (pos : UInt32) : Nat := upperBound ring pos % ring.size.toNat

/-- The vnodes clockwise from the hash of a flow, as far as lb_policy may route to them. -/
def clockwise (k : Kernel) (flow : Flow) (i : Nat) : Option (UInt32 × BackendEntry) :=
  admitted k (k.ringMeta.key ((start k.ringMeta (ringPos flow) + i) % k.ringMeta.size.toNat))

structure Plain (k : Kernel) (id : UInt32) : Prop where
  healthy : ∃ be, k.instanceRegistry.lookup id = some be ∧ be.health ≠ 0
  closed : k.circuitState.lookup id = none ∨ k.circuitState.lookup id = some circuitClosed

def Someone (k : Kernel) (flow : Flow) : Prop :=
  ∃ i, i < min k.ringMeta.size.toNat 64 ∧ ∃ id, k.haRing.lookup (k.ringMeta.key
    ((start k.ringMeta (ringPos flow) + i) % k.ringMeta.size.toNat)) = some id ∧ Plain k id

def SelectsFirst (k : Kernel) (cpu : Nat) (flow : Flow) : Prop :=
  ∃ i id be, First (clockwise k flow) (min k.ringMeta.size.toNat 64) i (id, be) ∧
    Picked k (lbPolicy k cpu flow).1 cpu id be

/-- The first admissible vnode lies before the end of the ring, or the ring fills its array, or
the entries past the end lead to the same instance. -/
def ReachesFirst (k : Kernel) (flow : Flow) (i : Nat) (id : UInt32) : Prop :=
  start k.ringMeta (ringPos flow) + i < k.ringMeta.size.toNat ∨ k.ringMeta.size.toNat = 65536 ∨
    ∃ j be, First (pastEnd k.ringMeta.size.toNat (start k.ringMeta (ringPos flow)) fun j =>
      admitted k (k.ringMeta.key (start k.ringMeta (ringPos flow) + j))) 64 j (id, be)

theorem bisectRightCut {ring : RingMeta} (fits : ring.size.toNat ≤ 65536)
    (sorted : ∀ i j, i ≤ j → j < ring.size.toNat → ring.key i ≤ ring.key j) (pos : UInt32) :
    Cut (fun i => decide (ring.key i ≤ pos)) ring.size.toNat (bisectRight ring pos) := by
  have falling : ∀ i j, i ≤ j → j < ring.size.toNat →
      decide (ring.key j ≤ pos) = true → decide (ring.key i ≤ pos) = true := by
    intro i j le inside low
    exact decide_eq_true (UInt32.le_trans (sorted i j le inside) (of_decide_eq_true low))
  have steps : ring.size.toNat - 0 < 2 ^ 17 := by omega
  exact bisectCut falling (Nat.zero_le _) (Nat.le_refl _) steps
    (fun i below => absurd below (Nat.not_lt_zero i)) fun i above inside => absurd inside (Nat.not_lt.mpr above)

theorem startIndexExact {ring : RingMeta} (fits : ring.size.toNat ≤ 65536)
    (sorted : ∀ i j, i ≤ j → j < ring.size.toNat → ring.key i ≤ ring.key j) (pos : UInt32) :
    startIndex ring pos = start ring pos := by
  have cut := bisectRightCut fits sorted pos
  have counted : upperBound ring pos = bisectRight ring pos := cutCount cut
  have bound := cut.bound
  unfold startIndex start
  dsimp only
  rw [counted]
  split
  · rw [show bisectRight ring pos = ring.size.toNat by omega, Nat.mod_self]
  · exact (Nat.mod_eq_of_lt (by omega)).symm

theorem startIndexStart {k : Kernel} (ring : RingWritten k) (pos : UInt32) :
    startIndex k.ringMeta pos = start k.ringMeta pos := startIndexExact ring.fits ring.sorted pos

theorem plainAdmitted {k : Kernel} {key id : UInt32} (owner : k.haRing.lookup key = some id)
    (plain : Plain k id) : (admitted k key).isSome := by
  obtain ⟨be, registered, healthy⟩ := plain.healthy
  have admits : k.circuitState.lookup id ≠ some circuitOpen := by
    intro opened
    rcases plain.closed with absent | closed
    · cases absent.symm.trans opened
    · exact absurd (Option.some.inj (closed.symm.trans opened)) (by decide)
  rw [admittedIff.mpr ⟨owner, registered, healthy, admits⟩]
  rfl

theorem sizeNonzero {k : Kernel} (ring : RingWritten k) : k.ringMeta.size ≠ 0 := by
  intro zero
  have nonempty := ring.nonempty
  rw [zero] at nonempty
  contradiction

theorem walkArray {k : Kernel} (ring : RingWritten k) (flow : Flow) (i : Nat) :
    walk k flow i = admitted k (k.ringMeta.key (start k.ringMeta (ringPos flow) + i)) := by
  rw [walk, startIndexStart ring]

theorem walkInside {k : Kernel} (ring : RingWritten k) {flow : Flow} {i : Nat}
    (inside : start k.ringMeta (ringPos flow) + i < k.ringMeta.size.toNat) :
    walk k flow i = clockwise k flow i := by
  rw [walkArray ring, clockwise, Nat.mod_eq_of_lt inside]

theorem keyMasked (ring : RingMeta) (i : Nat) : ring.key (i % 65536) = ring.key i := by
  unfold RingMeta.key
  congr 1
  apply Fin.ext
  simp only [Fin.ofNat]
  exact Nat.mod_mod i 65536

theorem walkFull {k : Kernel} (ring : RingWritten k) (full : k.ringMeta.size.toNat = 65536)
    (flow : Flow) : walk k flow = clockwise k flow := by
  funext i
  rw [walkArray ring, clockwise, full, keyMasked]

theorem firstReached {k : Kernel} (ring : RingWritten k) {flow : Flow} {i : Nat} {id : UInt32}
    {be : BackendEntry}
    (first : First (clockwise k flow) (min k.ringMeta.size.toNat 64) i (id, be)) :
    (∃ j, First (walk k flow) 64 j (id, be)) ↔ ReachesFirst k flow i id := by
  have within : i < 64 := by have := first.inside; omega
  by_cases inside : start k.ringMeta (ringPos flow) + i < k.ringMeta.size.toNat
  · refine iff_of_true ⟨i, firstOf first within fun j le => ?_⟩ (.inl inside)
    exact walkInside ring (by omega)
  · by_cases full : k.ringMeta.size.toNat = 65536
    · refine iff_of_true ⟨i, firstOf first within fun j _ => ?_⟩ (.inr (.inl full))
      rw [walkFull ring full]
    · -- every entry before the end has been met, and is not admitted
      have missed : ∀ j, start k.ringMeta (ringPos flow) + j < k.ringMeta.size.toNat →
          walk k flow j = none := by
        intro j before
        rw [walkInside ring before]
        exact first.missed j (by omega)
      have array : (fun j => admitted k (k.ringMeta.key (start k.ringMeta (ringPos flow) + j))) =
          walk k flow := funext fun j => (walkArray ring flow j).symm
      unfold ReachesFirst
      rw [or_iff_right inside, or_iff_right full, array]
      constructor
      · intro ⟨j, met⟩
        exact ⟨j, be, (firstPastEnd missed).mpr met⟩
      · intro ⟨j, be', met⟩
        have met := (firstPastEnd missed).mp met
        have one := (admittedIff.mp first.hit).registered
        have other := (admittedIff.mp met.hit).registered
        cases one.symm.trans other
        exact ⟨j, met⟩

theorem selectionExact {k : Kernel} {cpu : Nat} {flow : Flow} (ring : RingWritten k)
    (someone : Someone k flow) : SelectsFirst k cpu flow ↔
      k.tailDepth cpu < tailCallDepthMax ∧ ∀ i id be,
        First (clockwise k flow) (min k.ringMeta.size.toNat 64) i (id, be) → ReachesFirst k flow i id := by
  constructor
  · intro ⟨i, id, be, first, picked⟩
    have picks := pickedExact.mp picked
    refine ⟨picks.shallow, fun j id' be' other => ?_⟩
    obtain ⟨same, both⟩ := firstUnique first other
    cases both
    subst same
    exact (firstReached ring first).mp picks.first
  · intro ⟨shallow, reaches⟩
    obtain ⟨i, inside, id, owner, plain⟩ := someone
    have hit : ∃ i, i < min k.ringMeta.size.toNat 64 ∧ (clockwise k flow i).isSome :=
      ⟨i, inside, plainAdmitted owner plain⟩
    obtain ⟨j, ⟨id', be⟩, first⟩ := firstExists hit
    refine ⟨j, id', be, first, pickedExact.mpr ⟨shallow, sizeNonzero ring, ?_⟩⟩
    exact (firstReached ring first).mpr (reaches j id' be first)

/-- Two vnodes, around the hash of the client: that of instance 1 below it, that of instance 2,
which may be down, above it. -/
def pair (up : Bool) : Kernel :=
  loaded [(10, 1), (0xffffffff, 2)] [(1, backendOf 1), (2, backendOf (if up then 1 else 0))]

theorem pairWritten (up : Bool) : RingWritten (pair up) where
  nonempty := by cases up <;> decide
  fits := by cases up <;> decide
  sorted := by
    intro i j le inside
    have below : j < 2 := by cases up <;> exact inside
    interval_cases j <;> interval_cases i <;> cases up <;> decide
  mapped := by
    intro i inside
    have below : i < 2 := by cases up <;> exact inside
    interval_cases i <;> cases up <;> decide +kernel

theorem pairSomeone (up : Bool) : Someone (pair up) client := by
  refine ⟨1, by cases up <;> decide, 1, by cases up <;> decide +kernel, ?_, .inl rfl⟩
  exact ⟨backendOf 1, by cases up <;> decide +kernel, by decide⟩

theorem pairSelects : SelectsFirst (pair true) 0 client := by
  refine (selectionExact (pairWritten true) (pairSomeone true)).mpr
    ⟨by decide, fun i id be first => .inl ?_⟩
  have here : (clockwise (pair true) client 0).isSome = true := by decide +kernel
  obtain ⟨found, hit⟩ := Option.isSome_iff_exists.mp here
  have second : i = 0 := by
    by_contra later
    cases hit.symm.trans (first.missed 0 (by omega))
  subst second
  decide +kernel

/-- With instance 2 down the next vnode clockwise is that of instance 1, but the walk goes on
through the unused array. -/
theorem pairOverrun : RingWritten (pair false) ∧ Someone (pair false) client ∧
    ¬ SelectsFirst (pair false) 0 client := by
  refine ⟨pairWritten false, pairSomeone false, fun ⟨_, id, be, _, picked⟩ => ?_⟩
  obtain ⟨i, met⟩ := (pickedExact.mp picked).first
  have nothing : ∀ i, i < 64 → walk (pair false) client i = none := by decide +kernel
  cases (nothing i met.inside).symm.trans met.hit

/-! ### The Maglev slot -/

/-- A plain backend in the slot of the flow, which is what Lookup returns on the table, is the
one that lb_policy selects. -/
def FastPathDecides (k : Kernel) (cpu : Nat) (flow : Flow) : Prop :=
  ∀ id, Maglev.lookup k.maglevTable (ringPos flow) = id → id ≠ 0 → Plain k id →
    ∃ be, Picked k (lbPolicy k cpu flow).1 cpu id be

def WalkMeets (k : Kernel) (flow : Flow) (id : UInt32) : Prop :=
  k.ringMeta.size ≠ 0 ∧ ∃ i be, First (walk k flow) 64 i (id, be)

theorem tableIgnored (k : Kernel) (table : Maglev.MaglevTable) {cpu : Nat} {flow : Flow} {id : UInt32}
    {be : BackendEntry} :
    Picks { k with maglevTable := table } cpu flow id be ↔ Picks k cpu flow id be :=
  ⟨fun picks => ⟨picks.shallow, picks.ring, picks.first⟩,
    fun picks => ⟨picks.shallow, picks.ring, picks.first⟩⟩

theorem fastPathExact {k : Kernel} {cpu : Nat} {flow : Flow} : FastPathDecides k cpu flow ↔
    (Maglev.lookup k.maglevTable (ringPos flow) ≠ 0 →
      Plain k (Maglev.lookup k.maglevTable (ringPos flow)) →
        k.tailDepth cpu < tailCallDepthMax ∧
          WalkMeets k flow (Maglev.lookup k.maglevTable (ringPos flow))) := by
  constructor
  · intro decides nonzero plain
    obtain ⟨be, picked⟩ := decides _ rfl nonzero plain
    have picks := pickedExact.mp picked
    obtain ⟨i, first⟩ := picks.first
    exact ⟨picks.shallow, picks.ring, i, be, first⟩
  · intro meets id slot nonzero plain
    subst slot
    obtain ⟨shallow, ring, i, be, first⟩ := meets nonzero plain
    exact ⟨be, pickedExact.mpr ⟨shallow, ring, i, first⟩⟩

/-- Every slot of the table holds instance 1, and the ring leads to instance 2. -/
def split : Kernel := { pair true with maglevTable := Vector.replicate _ 1 }

theorem splitWalks : Maglev.lookup split.maglevTable (ringPos client) = 1 ∧ Plain split 1 ∧
    (∃ be, Picked split (lbPolicy split 0 client).1 0 2 be) ∧ ¬ FastPathDecides split 0 client := by
  have slot : Maglev.lookup split.maglevTable (ringPos client) = 1 := by
    exact Vector.getElem_replicate ..
  have plain : Plain split 1 := ⟨⟨backendOf 1, by decide +kernel, by decide⟩, .inl rfl⟩
  have here : walk (pair true) client 0 = some (2, backendOf 1) := by decide +kernel
  have second : Picks split 0 client 2 (backendOf 1) :=
    (tableIgnored (pair true) _).mpr ⟨by decide, by decide, 0, by decide, here, nofun⟩
  refine ⟨slot, plain, ⟨_, pickedExact.mpr second⟩, fun decides => ?_⟩
  obtain ⟨be, picked⟩ := decides 1 slot (by decide) plain
  exact absurd (picksUnique (pickedExact.mp picked) second).1 (by decide)

end OmegaLb.RingSelection
