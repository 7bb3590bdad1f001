import Mathlib.Data.List.Basic
import Mathlib.Order.Basic

/-! One pass that keeps the first element of least rank. -/
namespace OmegaLb.FirstLeast

variable {α : Type} {rank : α → Int}

def keepLeast (rank : α → Int) (best : Option α) (a : α) : Option α :=
  match best with
  | none => some a
  | some b => if rank a < rank b then some a else some b

theorem keepStep (best : Option α) (a : α) :
    ∃ c, keepLeast rank best a = some c ∧ (c = a ∨ best = some c) ∧ rank c ≤ rank a ∧
      ∀ b, best = some b → rank c ≤ rank b := by
  cases best with
  | none => exact ⟨a, rfl, .inl rfl, Int.le_refl _, by simp⟩
  | some c =>
    unfold keepLeast
    by_cases less : rank a < rank c
    · refine ⟨a, if_pos less, .inl rfl, Int.le_refl _, fun b held => ?_⟩
      cases held
      omega
    · refine ⟨c, if_neg less, .inr rfl, by omega, fun b held => ?_⟩
      cases held
      exact Int.le_refl _

theorem keptLeast (as : List α) (best : Option α) {least : α}
    (found : as.foldl (keepLeast rank) best = some least) :
    (least ∈ as ∨ best = some least) ∧ (∀ a ∈ as, rank least ≤ rank a) ∧
      ∀ b, best = some b → rank least ≤ rank b := by
  induction as generalizing best with
  | nil =>
    refine ⟨.inr found, by simp, fun b held => ?_⟩
    cases held.symm.trans found
    exact Int.le_refl _
  | cons a rest ih =>
    obtain ⟨c, step, chosen, belowHead, belowBest⟩ := @keepStep _ rank best a
    rw [List.foldl_cons, step] at found
    obtain ⟨origin, below, start⟩ := ih (some c) found
    have first := start c rfl
    refine ⟨?_, List.forall_mem_cons.mpr ⟨Int.le_trans first belowHead, below⟩,
      fun b held => Int.le_trans first (belowBest b held)⟩
    rcases origin with inside | same
    · exact .inl (List.mem_cons_of_mem a inside)
    · cases same
      rcases chosen with same | held
      · exact .inl (same ▸ List.mem_cons_self)
      · exact .inr held

theorem keptSome {as : List α} (nonempty : as ≠ []) : ∃ least, as.foldl (keepLeast rank) none = some least := by
  have stays : ∀ (as : List α) (b : α), ∃ least, as.foldl (keepLeast rank) (some b) = some least := by
    intro as
    induction as with
    | nil => exact fun b => ⟨b, rfl⟩
    | cons a rest ih =>
      intro b
      obtain ⟨c, step, _⟩ := @keepStep _ rank (some b) a
      rw [List.foldl_cons, step]
      exact ih c
  obtain ⟨a, rest, rfl⟩ := List.exists_cons_of_ne_nil nonempty
  exact stays rest a

/-- Between equals the first one stays. -/
theorem keptFirst {a : α} {rest : List α} (level : ∀ b ∈ rest, rank b = rank a) :
    (a :: rest).foldl (keepLeast rank) none = some a := by
  have stays : ∀ (bs : List α), (∀ b ∈ bs, rank b = rank a) → bs.foldl (keepLeast rank) (some a) = some a := by
    intro bs
    induction bs with
    | nil => exact fun _ => rfl
    | cons b bs ih =>
      intro level
      obtain ⟨head, tail⟩ := List.forall_mem_cons.mp level
      rw [List.foldl_cons, keepLeast, if_neg (by omega)]
      exact ih tail
  exact stays rest level

end OmegaLb.FirstLeast
