import Mathlib.Data.List.Infix

namespace SystemProgramming.Replay

/-!
# Deterministic processes

A deterministic process is a function `next : σ → Option σ`; it ends in a state without a
successor.  `after next s k` is its state after `k` moves, or its last state.  What the process has
put `out` only grows, so the outputs along it are prefixes of each other, and the output of its
last state is all of it.
-/

variable {σ β : Type*} {next : σ → Option σ} {s : σ} {k l : ℕ}

/-- The state after so many moves; a process that has ended stays where it is. -/
def after (next : σ → Option σ) (s : σ) : ℕ → σ
  | 0 => s
  | k + 1 => (next (after next s k)).getD (after next s k)

theorem after_succ_of_some {t : σ} (h : next (after next s k) = some t) :
    after next s (k + 1) = t := by
  rw [after, h, Option.getD_some]

theorem after_succ_of_none (h : next (after next s k) = none) :
    after next s (k + 1) = after next s k := by
  rw [after, h, Option.getD_none]

/-- What every move keeps holds all along. -/
theorem after_invariant {I : σ → Prop} (hnext : ∀ s t, I s → next s = some t → I t) (hs : I s)
    (k : ℕ) : I (after next s k) := by
  induction k with
  | zero => exact hs
  | succ k ih =>
    cases h : next (after next s k) with
    | none =>
      rw [after_succ_of_none h]
      exact ih
    | some t =>
      rw [after_succ_of_some h]
      exact hnext _ t ih h

theorem after_eq_of_ended (h : next (after next s k) = none) (hkl : k ≤ l) :
    after next s l = after next s k := by
  induction l, hkl using Nat.le_induction with
  | base => rfl
  | succ l _ ih => rw [after_succ_of_none (by rw [ih]; exact h), ih]

section Output

variable {out : σ → List β}

theorem out_grows (hout : ∀ s t, next s = some t → out s <+: out t) (hkl : k ≤ l) :
    out (after next s k) <+: out (after next s l) := by
  induction l, hkl using Nat.le_induction with
  | base => exact List.prefix_rfl
  | succ l _ ih =>
    cases h : next (after next s l) with
    | none =>
      rw [after_succ_of_none h]
      exact ih
    | some t =>
      rw [after_succ_of_some h]
      exact ih.trans (hout _ t h)

/-- A process that has ended has put out everything. -/
theorem out_complete_of_ended (hout : ∀ s t, next s = some t → out s <+: out t)
    (h : next (after next s k) = none) (l : ℕ) :
    out (after next s l) <+: out (after next s k) := by
  rcases Nat.le_total l k with hlk | hkl
  · exact out_grows hout hlk
  · rw [after_eq_of_ended h hkl]

end Output

end SystemProgramming.Replay
