import Mathlib.Order.Lattice
import Mathlib.Data.List.Basic

/-! A log of which a window keeps what may still be asked for. Entries need not come in the order of
their times, and nothing here names a system. -/
namespace OmegaLb.PrunedWindow

variable {α T : Type} [LinearOrder T] {time : α → T} {c limit later : T} {kept log : List α}

def since (time : α → T) (c : T) (xs : List α) : List α := xs.filter fun x => c < time x

/-- The window answers for every time from `limit` on. -/
def Keeps (time : α → T) (limit : T) (kept log : List α) : Prop :=
  ∀ c, limit ≤ c → since time c kept = since time c log

theorem sinceSince (below : limit ≤ c) (xs : List α) : since time c (since time limit xs) = since time c xs := by
  unfold since
  rw [List.filter_filter]
  apply List.filter_congr
  intro x _
  by_cases after : c < time x
  · simp [after, lt_of_le_of_lt below after]
  · simp [after]

theorem keepsAll (log : List α) : Keeps time limit log log := fun _ _ => rfl

theorem keepsPush (keeps : Keeps time limit kept log) (x : α) : Keeps time limit (kept ++ [x]) (log ++ [x]) := by
  intro c below
  have before := keeps c below
  unfold since at *
  rw [List.filter_append, List.filter_append, before]

theorem keepsLater (keeps : Keeps time limit kept log) (below : limit ≤ later) : Keeps time later kept log :=
  fun c above => keeps c (le_trans below above)

/-- Pruning at a time no earlier than the last leaves just what the log has from then on. -/
theorem keepsPrune (keeps : Keeps time limit kept log) (below : limit ≤ later) :
    since time later kept = since time later log ∧ Keeps time later (since time later kept) log := by
  refine ⟨keeps later below, fun c above => ?_⟩
  rw [sinceSince above]
  exact keeps c (le_trans below above)

theorem sinceMap {β : Type} (f : β → α) (c : T) (xs : List β) :
    since time c (xs.map f) = (since (fun x => time (f x)) c xs).map f := List.filter_map

end OmegaLb.PrunedWindow
