import Mathlib.Data.List.Induction

/-! The first distinct entries of a sequence, up to a cap. Nothing here names a system. -/
namespace OmegaLb.Admission

variable {α : Type} [DecidableEq α] {cap : Nat}

def admitNext (cap : Nat) (kept : List α) (x : α) : List α :=
  if x ∈ kept ∨ cap ≤ kept.length then kept else kept ++ [x]

def admitted (cap : Nat) (xs : List α) : List α := xs.foldl (admitNext cap) []

theorem admittedSnoc (cap : Nat) (xs : List α) (x : α) :
    admitted cap (xs ++ [x]) = admitNext cap (admitted cap xs) x := by
  rw [admitted, List.foldl_append]
  rfl

theorem memAdmit (kept : List α) (x : α) : x ∈ admitNext cap kept x ↔ ¬ (x ∉ kept ∧ cap ≤ kept.length) := by
  unfold admitNext
  split
  · rename_i old
    refine ⟨fun inside both => both.1 inside, fun room => by_contra fun fresh => ?_⟩
    exact room ⟨fresh, old.resolve_left fresh⟩
  · rename_i new
    exact iff_of_true (List.mem_append_right kept List.mem_cons_self) fun both => new (.inr both.2)

theorem admitPrefix (kept : List α) (x : α) : kept <+: admitNext cap kept x := by
  unfold admitNext
  split
  · exact List.prefix_rfl
  · exact List.prefix_append kept [x]

theorem admittedPrefix (xs ys : List α) : admitted cap xs <+: admitted cap (xs ++ ys) := by
  induction ys using List.reverseRecOn with
  | nil => exact (List.append_nil xs).symm ▸ List.prefix_rfl
  | append_singleton ys y ih =>
    rw [← List.append_assoc, admittedSnoc]
    exact ih.trans (admitPrefix _ y)

theorem admittedLength (xs : List α) : (admitted cap xs).length ≤ cap := by
  induction xs using List.reverseRecOn with
  | nil => exact Nat.zero_le cap
  | append_singleton xs x ih =>
    rw [admittedSnoc, admitNext]
    split
    · exact ih
    · rename_i fresh
      rw [List.length_append, List.length_singleton]
      omega

/-- What has been turned away was turned away for want of room. -/
theorem admittedFull {xs : List α} {x : α} (seen : x ∈ xs) (refused : x ∉ admitted cap xs) :
    cap ≤ (admitted cap xs).length := by
  induction xs using List.reverseRecOn with
  | nil => contradiction
  | append_singleton xs y ih =>
    rw [admittedSnoc, admitNext] at refused ⊢
    split at refused
    · rename_i old
      rw [if_pos old]
      rcases List.mem_append.mp seen with earlier | now
      · exact ih earlier refused
      · rw [List.mem_singleton.mp now] at refused
        exact old.resolve_left refused
    · rename_i fresh
      rw [if_neg fresh]
      rcases List.mem_append.mp seen with earlier | now
      · have kept := ih earlier fun inside => refused (List.mem_append_left _ inside)
        exact absurd (.inr kept) fresh
      · exact absurd (List.mem_append_right _ now) refused

/-- Once met, an entry is in for good or out for good. -/
theorem admittedSettled {xs : List α} {x : α} (seen : x ∈ xs) (ys : List α) :
    x ∈ admitted cap (xs ++ ys) ↔ x ∈ admitted cap xs := by
  refine ⟨fun later => ?_, fun now => (admittedPrefix xs ys).subset now⟩
  by_contra refused
  have full := admittedFull seen refused
  have same := (admittedPrefix xs ys).eq_of_length_le (Nat.le_trans (admittedLength (xs ++ ys)) full)
  exact refused (same ▸ later)

end OmegaLb.Admission
