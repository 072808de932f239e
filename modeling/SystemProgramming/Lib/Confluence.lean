import SystemProgramming.Lib.Transition

namespace SystemProgramming.Transition

/-!
# Systems whose events commute

If two different events that are possible in the same state can be executed in either order, then
one run to a state in which nothing is possible speaks for all runs.

* `CommuteAt step s` — the diamond at `s`, with the same two events on its sides;
* `run_to_end` — every run from the start is the beginning of a run to the end, of one length;
* `Halted.eq_end` / `progress` — there is one end only, and no run is stuck before it.

The diamond is asked for only in states from which the end can be reached, so that the end itself
can be used to exclude conflicts.
-/

variable {σ ε : Type*} {step : σ → ε → Option σ}

/-- No event is possible. -/
def Halted (step : σ → ε → Option σ) (s : σ) : Prop := ∀ e, step s e = none

/-- Different events that are possible in `s` can be executed in either order. -/
def CommuteAt (step : σ → ε → Option σ) (s : σ) : Prop :=
  ∀ e e' a b, e ≠ e' → step s e = some a → step s e' = some b →
    ∃ c, step a e' = some c ∧ step b e = some c

variable {I : σ → Prop} {start s t : σ} {es path : List ε}

/-- After any step the rest of the run to the end is one event shorter. -/
theorem step_to_end [DecidableEq ε] (hI : ∀ s e s', I s → step s e = some s' → I s')
    (ht : Halted step t) (hcomm : ∀ s, I s → Reachable step s t → CommuteAt step s)
    {a : σ} {e : ε} (hs : I s) (hpath : runFrom step s path = some t) (he : step s e = some a) :
    ∃ rest, rest.length + 1 = path.length ∧ runFrom step a rest = some t := by
  induction path generalizing s e a with
  | nil =>
    cases hpath
    rw [ht e] at he
    cases he
  | cons e' path ih =>
    obtain ⟨b, he', hrest⟩ := runFrom_cons_eq_some.mp hpath
    by_cases heq : e = e'
    · subst heq
      obtain rfl : a = b := Option.some.inj (he.symm.trans he')
      exact ⟨path, rfl, hrest⟩
    · -- the event `e` is moved behind `e'`, and then further along the path
      obtain ⟨c, hac, hbc⟩ := hcomm s hs ⟨e' :: path, hpath⟩ e e' a b heq he he'
      obtain ⟨rest, hlen, hend⟩ := ih (hI s e' b hs he') hrest hbc
      refine ⟨e' :: rest, by rw [List.length_cons, hlen, List.length_cons], ?_⟩
      rw [runFrom_cons, hac]
      exact hend

/-- **Every run leads to the end**, and all runs to the end have the same length. -/
theorem run_to_end [DecidableEq ε] (hI : ∀ s e s', I s → step s e = some s' → I s')
    (ht : Halted step t) (hcomm : ∀ s, I s → Reachable step s t → CommuteAt step s)
    (hstart : I start) (hpath : runFrom step start path = some t)
    (hrun : runFrom step start es = some s) :
    ∃ rest, rest.length + es.length = path.length ∧ runFrom step s rest = some t := by
  induction es generalizing start path with
  | nil =>
    cases hrun
    exact ⟨path, rfl, hpath⟩
  | cons e es ih =>
    obtain ⟨a, he, hes⟩ := runFrom_cons_eq_some.mp hrun
    obtain ⟨rest, hlen, hrest⟩ := step_to_end hI ht hcomm hstart hpath he
    obtain ⟨rest', hlen', hend⟩ := ih (hI start e a hstart he) hrest hes
    exact ⟨rest', by rw [List.length_cons, ← hlen, ← hlen', Nat.add_assoc], hend⟩

/-- From a halted state only itself is reached. -/
theorem Halted.eq_of_reachable (hs : Halted step s) (h : Reachable step s t) : s = t := by
  obtain ⟨es, hes⟩ := h
  cases es with
  | nil => exact Option.some.inj hes
  | cons e es =>
    rw [runFrom_cons, hs e] at hes
    cases hes

/-- A state that reaches another one is not stuck. -/
theorem progress (h : Reachable step s t) (hne : s ≠ t) : ∃ e a, step s e = some a := by
  obtain ⟨es, hes⟩ := h
  cases es with
  | nil => exact absurd (Option.some.inj hes) hne
  | cons e es =>
    obtain ⟨a, he, -⟩ := runFrom_cons_eq_some.mp hes
    exact ⟨e, a, he⟩

end SystemProgramming.Transition
