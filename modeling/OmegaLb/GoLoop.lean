import OmegaLb.GoRuntime
import Mathlib.Tactic.Ring

/-! A Go loop as what one round of its body does. The number of rounds is part of a run, so that
a loop that never leaves its body has no run at all. -/
namespace OmegaLb.GoLoop

variable {σ α : Type} {round : σ → Go (α ⊕ σ)}

inductive Rounds (round : σ → Go (α ⊕ σ)) : σ → Nat → Go α → Prop where
  | leaves {s : σ} {a : α} (here : round s = .ok (.inl a)) : Rounds round s 1 (.ok a)
  | panics {s : σ} {p : Panic} (here : round s = .error p) : Rounds round s 1 (.error p)
  | again {s next : σ} {n : Nat} {out : Go α} (here : round s = .ok (.inr next))
      (rest : Rounds round next n out) : Rounds round s (n + 1) out

/-- `f` is what the loop is worth: one round, and `f` again from where the round leads. -/
def Unfolds (round : σ → Go (α ⊕ σ)) (f : σ → Go α) : Prop :=
  ∀ s, f s = round s >>= Sum.elim .ok f

theorem roundsEnd (left : σ → Nat) {pace : Nat} (paced : 0 < pace)
    (down : ∀ s next, round s = .ok (.inr next) → left next + pace ≤ left s) (s : σ) :
    ∃ n out, pace * n ≤ left s + pace ∧ Rounds round s n out := by
  induction h : left s using Nat.strong_induction_on generalizing s with
  | _ m ih =>
    cases here : round s with
    | error p => exact ⟨1, _, by omega, .panics here⟩
    | ok taken =>
      cases taken with
      | inl a => exact ⟨1, _, by omega, .leaves here⟩
      | inr next =>
        have lower := down s next here
        obtain ⟨n, out, few, rest⟩ := ih (left next) (by omega) next rfl
        refine ⟨n + 1, out, ?_, .again here rest⟩
        rw [Nat.mul_add, Nat.mul_one]
        omega

theorem roundsComputes {f : σ → Go α} (unfolds : Unfolds round f) {s : σ} {n : Nat} {out : Go α}
    (run : Rounds round s n out) : f s = out := by
  induction run with
  | leaves here =>
    rw [unfolds, here]
    rfl
  | panics here =>
    rw [unfolds, here]
    rfl
  | again here rest ih =>
    rw [unfolds, here]
    exact ih

theorem loopRuns {f : σ → Go α} (unfolds : Unfolds round f) (left : σ → Nat) {pace : Nat} (paced : 0 < pace)
    (down : ∀ s next, round s = .ok (.inr next) → left next + pace ≤ left s) (s : σ) :
    ∃ n, pace * n ≤ left s + pace ∧ Rounds round s n (f s) := by
  obtain ⟨n, out, few, run⟩ := roundsEnd left paced down s
  rw [roundsComputes unfolds run]
  exact ⟨n, few, run⟩

end OmegaLb.GoLoop
