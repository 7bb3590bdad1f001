import Mathlib.Data.List.AList
import Mathlib.Data.List.Induction
import Mathlib.Data.Rat.Floor

/-! What the modelled Go code takes from the language: panics, the float64
operations, integers of 64 bits, maps. A float64 is only ever reached through
`GoFloat`, so a result stated over every `GoFloat` holds whatever the rounding. -/
namespace OmegaLb

inductive Panic where
  | divideByZero
  | indexOutOfRange
  | nilDereference
  deriving DecidableEq, Repr

abbrev Go := Except Panic

def goRem (a b : Int) : Go Int :=
  if b = 0 then .error .divideByZero else .ok (a.tmod b)

def goIndex {α : Type} (xs : List α) (i : Int) : Go α :=
  match xs[i.toNat]? with
  | some x => if 0 ≤ i then .ok x else .error .indexOutOfRange
  | none => .error .indexOutOfRange

/-- `xs[low:high]` -/
def goSlice {α : Type} (xs : List α) (low high : Nat) : Go (List α) :=
  if low ≤ high ∧ high ≤ xs.length then .ok ((xs.take high).drop low) else .error .indexOutOfRange

theorem goReturned {α : Type} {x : Go α} {a : α} (returned : x.toOption = some a) : x = .ok a := by
  cases x with
  | error p => contradiction
  | ok b => exact congrArg _ (Option.some.inj returned)

theorem goMapM {α β : Type} {f : α → Go β} {g : α → β} {xs : List α}
    (returns : ∀ x ∈ xs, f x = .ok (g x)) : xs.mapM f = .ok (xs.map g) := by
  induction xs with
  | nil => rfl
  | cons x rest ih =>
    obtain ⟨first, later⟩ := List.forall_mem_cons.mp returns
    rw [List.mapM_cons, first, ih later]
    rfl

theorem goRemOk {a b : Int} (nonzero : b ≠ 0) : goRem a b = .ok (a.tmod b) := if_neg nonzero

theorem goIndexOk {α : Type} {xs : List α} {i : Int} (low : 0 ≤ i) (high : i < xs.length) :
    ∃ x ∈ xs, goIndex xs i = .ok x := by
  have bound : i.toNat < xs.length := by omega
  refine ⟨xs[i.toNat], List.getElem_mem bound, ?_⟩
  simp [goIndex, List.getElem?_eq_getElem bound, low]

theorem goIndexFound {α : Type} {xs : List α} {i : Nat} {x : α} (found : xs[i]? = some x) :
    goIndex xs i = .ok x := by
  simp [goIndex, found]

def wrapInt (x : Int) : Int := x.bmod (2 ^ 64)

def FitsInt (x : Int) : Prop := -(2 ^ 63) ≤ x ∧ x < 2 ^ 63

instance (x : Int) : Decidable (FitsInt x) := by unfold FitsInt; infer_instance

theorem wrapIntFits {x : Int} (fits : FitsInt x) : wrapInt x = x := by
  obtain ⟨low, high⟩ := fits
  exact Int.bmod_eq_of_le (by omega) (by omega)

theorem wrapIntLow (x : Int) : -(2 ^ 63) ≤ wrapInt x := Int.le_bmod (by decide)

theorem wrapIntLe {x : Int} (low : -(2 ^ 63) ≤ x) : wrapInt x ≤ x := by
  by_cases high : x < 2 ^ 63
  · exact (wrapIntFits ⟨low, high⟩).le
  · have bound : wrapInt x < 2 ^ 63 := Int.bmod_lt (by decide)
    omega

theorem wrapIntPast {x : Int} (low : 2 ^ 63 ≤ x) (high : x < 2 ^ 64) : wrapInt x = x - 2 ^ 64 := by
  have turned : wrapInt (x - 2 ^ 64) = wrapInt x := Int.sub_bmod_right x (2 ^ 64)
  rw [← turned]
  exact wrapIntFits ⟨by omega, by omega⟩

theorem wrapIntSame {x : Int} : wrapInt x = x ↔ FitsInt x := by
  refine ⟨fun same => ?_, wrapIntFits⟩
  have high : wrapInt x < 2 ^ 63 := Int.bmod_lt (by decide)
  exact ⟨same ▸ wrapIntLow x, same ▸ high⟩

theorem wrapIntAdd (x y : Int) : wrapInt (wrapInt x + y) = wrapInt (x + y) := by
  simp [wrapInt]

/-- The float64 operations used. `ceil` is the conversion int(math.Ceil(x)),
`gt` the comparison (false on a NaN), `lit` a literal of the source. -/
class GoFloat (F : Type) extends Add F, Sub F, Mul F, Div F where
  ofInt : Int → F
  lit : ℚ → F
  gt : F → F → Bool
  isZero : F → Bool
  ceil : F → Int

instance : GoFloat ℚ where
  toAdd := inferInstance
  toSub := inferInstance
  toMul := inferInstance
  toDiv := inferInstance
  ofInt := fun n => n
  lit := fun q => q
  gt := fun a b => decide (b < a)
  isZero := fun a => decide (a = 0)
  ceil := fun a => ⌈a⌉

/-- A Go map. The list order of its entries means nothing: what iterates over a
map receives its entries in an order of the runtime's choice. -/
abbrev GoMap (K V : Type) := AList (fun _ : K => V)

namespace GoMap

variable {K V : Type} [DecidableEq K]

def values (m : GoMap K V) : List V := m.entries.map Sigma.snd

def size (m : GoMap K V) : Int := m.entries.length

theorem memValues {m : GoMap K V} {v : V} : v ∈ values m ↔ ∃ k, m.lookup k = some v := by
  constructor
  · intro member
    obtain ⟨⟨k, w⟩, inside, same⟩ := List.mem_map.mp member
    cases same
    exact ⟨k, AList.mem_lookup_iff.mpr inside⟩
  · rintro ⟨k, found⟩
    exact List.mem_map.mpr ⟨⟨k, v⟩, AList.mem_lookup_iff.mp found, rfl⟩

def mapValues (m : GoMap K V) (f : K → V → V) : GoMap K V :=
  ⟨m.entries.map fun e => ⟨e.1, f e.1 e.2⟩, by
    have keys := m.nodupKeys
    unfold List.NodupKeys List.keys at *
    simpa [List.map_map, Function.comp_def] using keys⟩

def modify (m : GoMap K V) (k : K) (f : V → V) : GoMap K V :=
  mapValues m fun j v => if j = k then f v else v

omit [DecidableEq K] in
@[simp] theorem keysMapValues (m : GoMap K V) (f : K → V → V) : (mapValues m f).keys = m.keys := by
  simp [mapValues, AList.keys, List.keys, Function.comp_def]

@[simp] theorem lookupMapValues (m : GoMap K V) (f : K → V → V) (k : K) :
    (mapValues m f).lookup k = (m.lookup k).map (f k) := by
  cases found : m.lookup k with
  | none =>
    have absent : k ∉ m := AList.lookup_eq_none.mp found
    apply AList.lookup_eq_none.mpr
    rwa [AList.mem_keys, keysMapValues, ← AList.mem_keys]
  | some v =>
    have inside := AList.mem_lookup_iff.mp found
    exact AList.mem_lookup_iff.mpr (List.mem_map.mpr ⟨_, inside, rfl⟩)

theorem lookupModify (m : GoMap K V) (k j : K) (f : V → V) :
    (modify m k f).lookup j = if j = k then (m.lookup k).map f else m.lookup j := by
  unfold modify
  rw [lookupMapValues]
  by_cases same : j = k
  · subst same
    simp
  · cases m.lookup j <;> simp [same]

theorem filterMapKeys {W : Type} (m : GoMap K V) (f : V → W) :
    (m.keys.filterMap fun k => (m.lookup k).map f) = (values m).map f := by
  have found : ∀ e ∈ m.entries, (m.lookup e.1).map f = some (f e.2) := by
    intro e inside
    rw [Option.mem_def.mp (AList.mem_lookup_iff.mpr inside), Option.map_some]
  simp only [AList.keys, List.keys, values, List.filterMap_map, List.map_map]
  exact (List.filterMap_congr found).trans (congrFun List.filterMap_eq_map' m.entries)

theorem filterMapCovered {W : Type} (m : GoMap K V) (f : V → W) {ks : List K} (distinct : ks.Nodup)
    (covered : ∀ k ∈ m, k ∈ ks) :
    (ks.filterMap fun k => (m.lookup k).map f).Perm ((values m).map f) := by
  have present : (ks.filter fun k => decide (k ∈ m)).Perm m.keys := by
    refine (List.perm_ext_iff_of_nodup (distinct.filter _) m.keys_nodup).mpr fun k => ?_
    rw [List.mem_filter, decide_eq_true_eq, ← AList.mem_keys]
    exact ⟨And.right, fun inside => ⟨covered k inside, inside⟩⟩
  have skipped : (ks.filterMap fun k => (m.lookup k).map f) =
      (ks.filter fun k => decide (k ∈ m)).filterMap fun k => (m.lookup k).map f := by
    rw [List.filterMap_filter]
    apply List.filterMap_congr
    intro k _
    by_cases inside : k ∈ m
    · simp [inside]
    · simp [inside, AList.lookup_eq_none.mpr inside]
  rw [skipped, ← filterMapKeys m f]
  exact present.filterMap _

theorem entriesPerm {m n : GoMap K V} (same : ∀ k, n.lookup k = m.lookup k) :
    n.entries.Perm m.entries := by
  refine List.lookup_ext n.nodupKeys m.nodupKeys fun k b => ?_
  exact iff_of_eq (congrArg (b ∈ ·) (same k))

theorem sumValuesAt (m : GoMap K V) (f : V → Nat) (k : K)
    (elsewhere : ∀ j v, m.lookup j = some v → j ≠ k → f v = 0) :
    ((values m).map f).sum = ((m.lookup k).map f).getD 0 := by
  have sole : ∀ es : List ((_ : K) × V), es.NodupKeys → (∀ e ∈ es, e.1 ≠ k → f e.2 = 0) →
      (es.map fun e => f e.2).sum = ((es.dlookup k).map f).getD 0 := by
    intro es nodup zero
    induction es with
    | nil => rfl
    | cons e rest ih =>
      obtain ⟨fresh, nodup⟩ := List.nodupKeys_cons.mp nodup
      have tail := ih nodup fun x inside => zero x (List.mem_cons_of_mem _ inside)
      rw [List.map_cons, List.sum_cons, tail]
      by_cases same : e.1 = k
      · subst same
        rw [List.dlookup_cons_eq, List.dlookup_eq_none.mpr fresh]
        simp
      · rw [zero e List.mem_cons_self same, List.dlookup_cons_ne _ _ (Ne.symm same)]
        simp
  have total := sole m.entries m.nodupKeys fun e inside other =>
    elsewhere e.1 e.2 (Option.mem_def.mp (AList.mem_lookup_iff.mpr inside)) other
  simpa [values, Function.comp_def, AList.lookup] using total

/-- A write to a present key moves a sum by what it changes there. -/
theorem sumModify (m : GoMap K V) {k : K} {v : V} (found : m.lookup k = some v) (f : V → V) (g : V → Int) :
    ((values (modify m k f)).map g).sum = ((values m).map g).sum + (g (f v) - g v) := by
  have one : ∀ es : List ((_ : K) × V), es.NodupKeys → es.dlookup k = some v →
      (es.map fun e => g (if e.1 = k then f e.2 else e.2)).sum = (es.map fun e => g e.2).sum + (g (f v) - g v) := by
    intro es nodup held
    induction es with
    | nil => contradiction
    | cons e rest ih =>
      obtain ⟨fresh, nodup⟩ := List.nodupKeys_cons.mp nodup
      rw [List.map_cons, List.sum_cons, List.map_cons, List.sum_cons]
      by_cases same : e.1 = k
      · subst same
        rw [List.dlookup_cons_eq] at held
        have elsewhere : ∀ x ∈ rest, g (if x.1 = e.1 then f x.2 else x.2) = g x.2 := by
          intro x inside
          have other : x.1 ≠ e.1 := fun same => fresh (same ▸ List.mem_map_of_mem inside)
          rw [if_neg other]
        rw [if_pos rfl, List.map_congr_left elsewhere, Option.some.inj held]
        omega
      · rw [List.dlookup_cons_ne _ _ (Ne.symm same)] at held
        rw [if_neg same, ih nodup held]
        omega
  have total := one m.entries m.nodupKeys found
  simpa [values, modify, mapValues, Function.comp_def] using total

omit [DecidableEq K] in
theorem flatMapMapValues {W : Type} (m : GoMap K V) (f : K → V → V) (g : V → List W)
    (unseen : ∀ k v, g (f k v) = g v) :
    (values (mapValues m f)).flatMap g = (values m).flatMap g := by
  simp [values, mapValues, List.flatMap_map, unseen]

omit [DecidableEq K] in
theorem mapMapValues {W : Type} (m : GoMap K V) (f : K → V → V) (g : V → W)
    (unseen : ∀ k v, g (f k v) = g v) : (values (mapValues m f)).map g = (values m).map g := by
  simp [values, mapValues, unseen, Function.comp_def]

theorem flatMapModify {W : Type} (m : GoMap K V) (k : K) (f : V → V) (g : V → List W)
    (unseen : ∀ v, g (f v) = g v) :
    (values (modify m k f)).flatMap g = (values m).flatMap g := by
  apply flatMapMapValues
  intro j v
  split
  · exact unseen v
  · rfl

/-! Two maps of the same keys, each value of the second related to the one it replaces. -/

def Related (r : V → V → Prop) (m n : GoMap K V) : Prop := ∀ k, Option.Rel r (m.lookup k) (n.lookup k)

theorem relatedRefl {r : V → V → Prop} (refl : ∀ v, r v v) (m : GoMap K V) : Related r m m := by
  intro k
  cases m.lookup k with
  | none => exact .none
  | some v => exact .some (refl v)

theorem relatedTrans {r : V → V → Prop} (trans : ∀ u v w, r u v → r v w → r u w)
    {m n o : GoMap K V} (first : Related r m n) (second : Related r n o) : Related r m o := by
  intro k
  have left := first k
  have right := second k
  generalize m.lookup k = u at left
  generalize n.lookup k = v at left right
  generalize o.lookup k = w at right
  cases left with
  | none => exact right
  | some held => cases right with | some next => exact .some (trans _ _ _ held next)

theorem relatedModify {r : V → V → Prop} (refl : ∀ v, r v v) (m : GoMap K V) {k : K} {f : V → V}
    (written : ∀ v, m.lookup k = some v → r v (f v)) : Related r m (modify m k f) := by
  intro j
  rw [lookupModify]
  by_cases same : j = k
  · subst same
    rw [if_pos rfl]
    cases found : m.lookup j with
    | none => exact .none
    | some v => exact .some (written v found)
  · rw [if_neg same]
    exact relatedRefl refl m j

theorem relatedAfter {r : V → V → Prop} {m n : GoMap K V} (related : Related r m n) {k : K} {v : V}
    (found : m.lookup k = some v) : ∃ w, n.lookup k = some w ∧ r v w := by
  have pair := related k
  rw [found] at pair
  generalize n.lookup k = after at pair
  cases pair with | some held => exact ⟨_, rfl, held⟩

theorem relatedBefore {r : V → V → Prop} {m n : GoMap K V} (related : Related r m n) {k : K} {w : V}
    (found : n.lookup k = some w) : ∃ v, m.lookup k = some v ∧ r v w := by
  have pair := related k
  rw [found] at pair
  generalize m.lookup k = before at pair
  cases pair with | some held => exact ⟨_, rfl, held⟩

/-! Maps filled one write at a time: the last write to a key stays. -/

def writeAll (es : List (K × V)) : GoMap K V := es.foldl (fun m e => m.insert e.1 e.2) ∅

theorem kerasePrecise {a : K} {l : List ((_ : K) × V)} (distinct : l.NodupKeys) :
    l.kerase a = l.filter fun x => decide (x.1 ≠ a) := by
  induction l with
  | nil => rfl
  | cons x rest ih =>
    obtain ⟨fresh, distinct⟩ := List.nodupKeys_cons.mp distinct
    by_cases same : a = x.1
    · have kept : ∀ y ∈ rest, decide (y.1 ≠ a) = true := by
        intro y inside
        refine decide_eq_true fun again => fresh ?_
        exact List.mem_map.mpr ⟨y, inside, again.trans same⟩
      rw [List.kerase_cons_eq same, List.filter_cons_of_neg (by simp [same]),
        List.filter_eq_self.mpr kept]
    · rw [List.kerase_cons_ne same, ih distinct, List.filter_cons_of_pos (by simp [Ne.symm same])]

/-- The writes that no later one replaced, in some order. -/
theorem survivors (es : List (K × V)) : ∃ kept : List (K × V), kept.Sublist es ∧
    (kept.map Prod.fst).Nodup ∧ (∀ k ∈ es.map Prod.fst, k ∈ kept.map Prod.fst) ∧
    (writeAll es).entries.Perm (kept.map fun e => ⟨e.1, e.2⟩) := by
  induction es using List.reverseRecOn with
  | nil => exact ⟨[], .slnil, .nil, by simp, .rfl⟩
  | append_singleton es e ih =>
    obtain ⟨kept, sublist, distinct, covered, stored⟩ := ih
    refine ⟨kept.filter (fun x => decide (x.1 ≠ e.1)) ++ [e], ?_, ?_, ?_, ?_⟩
    · exact (List.filter_sublist.trans sublist).append (.refl _)
    · have rest : ((kept.filter fun x => decide (x.1 ≠ e.1)).map Prod.fst).Nodup :=
        distinct.sublist (List.filter_sublist.map _)
      rw [List.map_append, List.map_singleton]
      refine List.Nodup.append rest (List.nodup_singleton _) ?_
      intro k inside last
      obtain ⟨x, survived, same⟩ := List.mem_map.mp inside
      have apart : x.1 ≠ e.1 := of_decide_eq_true (List.mem_filter.mp survived).2
      exact apart (same.trans (List.mem_singleton.mp last))
    · intro k written
      by_cases last : k = e.1
      · simp [last]
      · simp only [List.map_append, List.mem_append, List.map_singleton, List.mem_singleton] at written ⊢
        left
        obtain ⟨x, survived, same⟩ := List.mem_map.mp (covered k (written.resolve_right last))
        exact List.mem_map.mpr ⟨x, List.mem_filter.mpr ⟨survived, by simp [same, last]⟩, same⟩
    · have step : writeAll (es ++ [e]) = (writeAll es).insert e.1 e.2 := by simp [writeAll]
      rw [step, AList.entries_insert, List.map_append, List.map_singleton]
      refine List.Perm.trans ?_ (List.perm_append_singleton _ _).symm
      refine List.Perm.cons _ ?_
      rw [kerasePrecise (writeAll es).nodupKeys]
      have rest := stored.filter fun x => decide (x.1 ≠ e.1)
      rwa [List.filter_map] at rest

theorem writeAllMem {es : List (K × V)} {k : K} {v : V} (found : (writeAll es).lookup k = some v) :
    (k, v) ∈ es := by
  obtain ⟨kept, sublist, _, _, stored⟩ := survivors es
  have inside := stored.mem_iff.mp (AList.mem_lookup_iff.mp (Option.mem_def.mpr found))
  obtain ⟨⟨j, w⟩, survived, same⟩ := List.mem_map.mp inside
  cases same
  exact sublist.subset survived

theorem writeAllKeys {es : List (K × V)} {e : K × V} (written : e ∈ es) :
    ∃ v, (writeAll es).lookup e.1 = some v := by
  obtain ⟨kept, _, _, covered, stored⟩ := survivors es
  obtain ⟨⟨j, w⟩, survived, same⟩ := List.mem_map.mp (covered e.1 (List.mem_map_of_mem written))
  refine ⟨w, AList.mem_lookup_iff.mpr (stored.mem_iff.mpr ?_)⟩
  exact List.mem_map.mpr ⟨(j, w), survived, by rw [← same]⟩

theorem lookupWriteAll {W : Type} (m : GoMap K V) (f : V → W) (k : K) :
    (writeAll (m.entries.map fun e => (e.1, f e.2))).lookup k = (m.lookup k).map f := by
  cases found : m.lookup k with
  | none =>
    refine Option.eq_none_iff_forall_ne_some.mpr fun w written => ?_
    obtain ⟨⟨j, v⟩, inside, same⟩ := List.mem_map.mp (writeAllMem written)
    cases same
    exact Option.some_ne_none v ((AList.mem_lookup_iff.mpr inside).symm.trans found)
  | some v =>
    have inside : (k, f v) ∈ m.entries.map fun e => (e.1, f e.2) :=
      List.mem_map.mpr ⟨⟨k, v⟩, AList.mem_lookup_iff.mp found, rfl⟩
    obtain ⟨w, written⟩ := writeAllKeys inside
    obtain ⟨⟨j, other⟩, also, same⟩ := List.mem_map.mp (writeAllMem written)
    cases same
    have present := AList.mem_lookup_iff.mpr also
    rw [written, Option.map_some, Option.some.inj (found.symm.trans present)]

def tally (ks : List K) : GoMap K Int := ks.foldl (fun m k => m.insert k ((m.lookup k).getD 0 + 1)) ∅

theorem tallyLookup (ks : List K) (k : K) :
    (tally ks).lookup k = if k ∈ ks then some (ks.count k : Int) else none := by
  induction ks using List.reverseRecOn with
  | nil => simp [tally]
  | append_singleton ks j ih =>
    have step : tally (ks ++ [j]) = (tally ks).insert j (((tally ks).lookup j).getD 0 + 1) := by
      simp [tally]
    rw [step]
    by_cases same : k = j
    · subst same
      rw [AList.lookup_insert, ih]
      by_cases inside : k ∈ ks
      · simp [inside]
      · simp [inside, List.count_eq_zero.mpr inside]
    · rw [AList.lookup_insert_ne same, ih]
      simp [same, List.count_append, Ne.symm same]

end GoMap
end OmegaLb
