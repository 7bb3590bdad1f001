import Mathlib.Data.List.Basic
import Mathlib.Data.List.Nodup
import Mathlib.Data.List.TakeDrop

/-! Go slices over their backing array: what append does to it, and the idiom that filters
a slice in place by appending to its own empty prefix. -/
namespace OmegaLb.GoSlice

variable {α : Type}

/-- The elements up to `len` of a backing array as long as its capacity. -/
structure Slice (α : Type) where
  array : List α
  len : Nat

def Slice.nil : Slice α := ⟨[], 0⟩

def Slice.elems (s : Slice α) : List α := s.array.take s.len

def Slice.Fits (s : Slice α) : Prop := s.len ≤ s.array.length

/-- A full slice moves to a new array, with spare room of the runtime's choice. -/
def Slice.append (s : Slice α) (x : α) (spare : List α) : Slice α :=
  if s.len < s.array.length then ⟨s.array.set s.len x, s.len + 1⟩
  else ⟨s.elems ++ x :: spare, s.len + 1⟩

def filterLoop (keep : α → Bool) : Nat → Nat → Nat → List α → List α × Nat
  | 0, _, kept, array => (array, kept)
  | n + 1, i, kept, array =>
    match array[i]? with
    | none => (array, kept)
    | some x =>
      if keep x then filterLoop keep n (i + 1) (kept + 1) (array.set kept x)
      else filterLoop keep n (i + 1) kept array

/-- `updated := s[:0]; for _, x := range s { if keep(x) { updated = append(updated, x) } }` -/
def Slice.filterInPlace (keep : α → Bool) (s : Slice α) : Slice α :=
  let (array, kept) := filterLoop keep s.len 0 0 s.array
  ⟨array, kept⟩

theorem elemsNil : (Slice.nil : Slice α).elems = [] := rfl

theorem elemsLength {s : Slice α} (fits : s.Fits) : s.elems.length = s.len := by
  simp [Slice.elems, Nat.min_eq_left fits]

theorem elemsGet {s : Slice α} {i : Nat} (inside : i < s.len) : s.elems[i]? = s.array[i]? := by
  simp [Slice.elems, inside]

theorem elemsAppend {s : Slice α} (fits : s.Fits) (x : α) (spare : List α) :
    (s.append x spare).elems = s.elems ++ [x] := by
  unfold Slice.append
  split
  · rename_i room
    simp only [Slice.elems]
    rw [List.take_succ_eq_append_getElem (by simpa using room), List.take_set_of_le (Nat.le_refl _)]
    simp
  · have length := elemsLength fits
    simp only [Slice.elems] at length ⊢
    rw [List.take_append, length]
    simp [List.take_take]

theorem fitsAppend (s : Slice α) (x : α) (spare : List α) (fits : s.Fits) :
    (s.append x spare).Fits := by
  have length := elemsLength fits
  unfold Slice.append Slice.Fits at *
  split
  · simpa using ‹_›
  · simp only [List.length_append, List.length_cons, length]
    omega

/-- What is still to be read lies past every write: the read position never falls behind. -/
theorem filterLoopElems (keep : α → Bool) (n i kept : Nat) (array : List α) (behind : kept ≤ i)
    (fits : i + n ≤ array.length) :
    (filterLoop keep n i kept array).1.take (filterLoop keep n i kept array).2 =
        array.take kept ++ ((array.drop i).take n).filter keep ∧
      (filterLoop keep n i kept array).2 ≤ (filterLoop keep n i kept array).1.length := by
  induction n generalizing i kept array with
  | zero => simpa [filterLoop] using by omega
  | succ n ih =>
    have inside : i < array.length := by omega
    have next : (array.drop i).take (n + 1) = array[i] :: (array.drop (i + 1)).take n := by
      rw [List.drop_eq_getElem_cons inside, List.take_succ_cons]
    simp only [filterLoop, List.getElem?_eq_getElem inside]
    split
    · rename_i keeps
      obtain ⟨elems, bound⟩ := ih (i + 1) (kept + 1) (array.set kept array[i]) (by omega)
        (by rw [List.length_set]; omega)
      refine ⟨?_, bound⟩
      rw [elems, next, List.filter_cons_of_pos keeps, List.drop_set_of_lt (by omega),
        List.take_succ_eq_append_getElem (by rw [List.length_set]; omega),
        List.take_set_of_le (Nat.le_refl _)]
      simp
    · rename_i drops
      obtain ⟨elems, bound⟩ := ih (i + 1) kept array (by omega) (by omega)
      refine ⟨?_, bound⟩
      rw [elems, next, List.filter_cons_of_neg drops]

theorem elemsFilterInPlace (keep : α → Bool) {s : Slice α} (fits : s.Fits) :
    (s.filterInPlace keep).elems = s.elems.filter keep := by
  have bound : 0 + s.len ≤ s.array.length := by rw [Nat.zero_add]; exact fits
  have loop := (filterLoopElems keep s.len 0 0 s.array (Nat.le_refl 0) bound).1
  simpa [Slice.filterInPlace, Slice.elems] using loop

theorem fitsFilterInPlace (keep : α → Bool) {s : Slice α} (fits : s.Fits) :
    (s.filterInPlace keep).Fits := by
  have bound : 0 + s.len ≤ s.array.length := by rw [Nat.zero_add]; exact fits
  exact (filterLoopElems keep s.len 0 0 s.array (Nat.le_refl 0) bound).2

end OmegaLb.GoSlice
