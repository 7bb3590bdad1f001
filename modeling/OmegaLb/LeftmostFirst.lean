import Mathlib.Data.List.Basic

/-! Regular expressions matched leftmost-first: of two alternatives the left one is tried first, and
a repetition takes as many entries as it can. A match is told by what is left behind it, and the
first of these is the one a search takes. Nothing here names a system. -/
namespace OmegaLb.LeftmostFirst

variable {β : Type}

inductive Re (β : Type) where
  | one (p : β → Bool)
  | seq (r t : Re β)
  | alt (r t : Re β)
  | plus (p : β → Bool)

/-- What is left behind each run of `p`, the longest first. -/
def runs (p : β → Bool) : List β → List (List β)
  | [] => []
  | b :: bs => if p b then runs p bs ++ [bs] else []

def Re.rests : Re β → List β → List (List β)
  | .one _, [] => []
  | .one p, b :: bs => if p b then [bs] else []
  | .seq r t, s => (r.rests s).flatMap t.rests
  | .alt r t, s => r.rests s ++ t.rests s
  | .plus p, s => runs p s

def Re.first (r : Re β) (s : List β) : Option (List β) := (r.rests s).head?

/-- One class after the other. -/
def Re.word (p : β → Bool) : List (β → Bool) → Re β
  | [] => .one p
  | q :: qs => .seq (.one p) (.word q qs)

/-- Matches are replaced from the left, and the search goes on behind each; `skip` entries are still
part of the last one. The expression matches no empty list. -/
def replaceFrom (r : Re β) (new : List β) : Nat → List β → List β
  | _, [] => []
  | skip + 1, _ :: bs => replaceFrom r new skip bs
  | 0, b :: bs =>
    match r.first (b :: bs) with
    | some rest => new ++ replaceFrom r new (bs.length - rest.length) bs
    | none => b :: replaceFrom r new 0 bs

def replaceAll (r : Re β) (new s : List β) : List β := replaceFrom r new 0 s

/-! ### First matches -/

theorem firstOne (p : β → Bool) (b : β) (bs : List β) :
    (Re.one p).first (b :: bs) = if p b then some bs else none := by
  simp only [Re.first, Re.rests]
  split <;> rfl

theorem firstAlt (r t : Re β) (s : List β) : (Re.alt r t).first s = (r.first s).or (t.first s) := by
  simp [Re.first, Re.rests, List.head?_append]

theorem firstAfter (p : β → Bool) (t : Re β) (b : β) (bs : List β) :
    (Re.seq (.one p) t).first (b :: bs) = if p b then t.first bs else none := by
  simp only [Re.first, Re.rests]
  split
  · rw [List.flatMap_singleton]
  · rfl

theorem firstPlus (p : β → Bool) (s : List β) :
    (Re.plus p).first s = if s.head?.any p then some (s.dropWhile p) else none := by
  simp only [Re.first, Re.rests]
  induction s with
  | nil => rfl
  | cons b bs ih =>
    rw [runs, List.head?_cons, Option.any_some]
    by_cases holds : p b
    · rw [if_pos holds, if_pos holds, List.head?_append, ih, List.dropWhile_cons_of_pos holds]
      cases bs with
      | nil => rfl
      | cons c cs =>
        rw [List.head?_cons, Option.any_some]
        by_cases more : p c
        · rw [if_pos more, Option.some_or]
        · rw [if_neg more, Option.none_or, List.dropWhile_cons_of_neg more]
          rfl
    · rw [if_neg holds, if_neg holds]
      rfl

def fits : List (β → Bool) → List β → Bool
  | [], _ => true
  | _ :: _, [] => false
  | p :: ps, b :: bs => p b && fits ps bs

theorem fitsLength {ps : List (β → Bool)} {s : List β} (fit : fits ps s = true) : ps.length ≤ s.length := by
  induction ps generalizing s with
  | nil => exact Nat.zero_le _
  | cons p ps ih =>
    cases s with
    | nil => contradiction
    | cons b bs =>
      rw [fits, Bool.and_eq_true] at fit
      exact Nat.succ_le_succ (ih fit.2)

theorem fitsAt {ps : List (β → Bool)} {s : List β} (fit : fits ps s = true) {i : Nat} {p : β → Bool}
    (listed : ps[i]? = some p) : ∃ b, s[i]? = some b ∧ p b = true := by
  induction ps generalizing s i with
  | nil => simp at listed
  | cons q ps ih =>
    cases s with
    | nil => contradiction
    | cons b bs =>
      rw [fits, Bool.and_eq_true] at fit
      cases i with
      | zero =>
        cases listed
        exact ⟨b, rfl, fit.1⟩
      | succ i => exact ih fit.2 listed

theorem firstWord (p : β → Bool) (ps : List (β → Bool)) (s : List β) :
    (Re.word p ps).first s = if fits (p :: ps) s then some (s.drop (ps.length + 1)) else none := by
  induction ps generalizing p s with
  | nil =>
    cases s with
    | nil => rfl
    | cons b bs => simp [Re.word, firstOne, fits]
  | cons q qs ih =>
    cases s with
    | nil => rfl
    | cons b bs =>
      rw [Re.word, firstAfter, ih, fits]
      cases p b <;> simp

/-- A word that takes nothing of what follows is decided by what stands before. -/
theorem fitsAppend {ps : List (β → Bool)} {s v : List β} (stops : ∀ b, v.head? = some b → ∀ p ∈ ps, p b = false) :
    fits ps (s ++ v) = fits ps s := by
  induction ps generalizing s with
  | nil => rfl
  | cons p ps ih =>
    cases s with
    | nil =>
      cases v with
      | nil => rfl
      | cons b bs =>
        rw [List.nil_append, fits, fits, stops b rfl p List.mem_cons_self, Bool.false_and]
    | cons b bs =>
      rw [List.cons_append, fits, fits, ih fun c head q member => stops c head q (List.mem_cons_of_mem p member)]

/-! ### Replacing -/

variable {r : Re β} {new : List β}

theorem replaceSkips (skip : Nat) (s : List β) : replaceFrom r new skip s = replaceAll r new (s.drop skip) := by
  induction skip generalizing s with
  | zero => rfl
  | succ skip ih =>
    cases s with
    | nil => rfl
    | cons b bs => exact ih bs

theorem replaceMissed {b : β} {bs : List β} (missed : r.first (b :: bs) = none) :
    replaceAll r new (b :: bs) = b :: replaceAll r new bs := by
  rw [replaceAll, replaceFrom, missed]
  rfl

theorem replaceFound {b : β} {bs rest : List β} (found : r.first (b :: bs) = some rest) (behind : rest <:+ bs) :
    replaceAll r new (b :: bs) = new ++ replaceAll r new rest := by
  obtain ⟨taken, rfl⟩ := behind
  rw [replaceAll, replaceFrom, found]
  simp only [replaceSkips, List.length_append, Nat.add_sub_cancel, List.drop_left]

/-- Entries that no match begins with are passed over. -/
theorem replacePasses {u v : List β} (passes : ∀ b ∈ u, ∀ s, r.first (b :: s) = none) :
    replaceAll r new (u ++ v) = u ++ replaceAll r new v := by
  induction u with
  | nil => rfl
  | cons b bs ih =>
    obtain ⟨first, later⟩ := List.forall_mem_cons.mp passes
    rw [List.cons_append, replaceMissed (first _), ih later, List.cons_append]

end OmegaLb.LeftmostFirst
