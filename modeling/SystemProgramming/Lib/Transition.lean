import Mathlib.Data.List.Basic

namespace SystemProgramming.Transition

/-!
# Labelled transition systems

A system is a partial step function `step : σ → ε → Option σ`: the event `e` is possible
in `s` iff `step s e` is `some`.  A run is a list of events.

* `runFrom` / `Reachable` — execution of a list of events, and the states it reaches;
* `runFrom_invariant` — the induction every safety proof uses: an invariant of one step is
  an invariant of every run;
* `runFrom_refines` — a system whose steps are runs of another one;
* `EveryState` / `EveryStep` — a property of all states (of all steps) along one run, and
  `everyState_iff_everyStep`, which turns "one step keeps `P` exactly when `ok`" into the
  same statement about whole runs.
-/

variable {σ ε : Type*} {step : σ → ε → Option σ}

/-- Execute a list of events; `none` if one of them is impossible where it stands. -/
def runFrom (step : σ → ε → Option σ) : σ → List ε → Option σ
  | s, [] => some s
  | s, e :: es => (step s e).bind fun s' => runFrom step s' es

/-- Without events, nothing happens. -/
@[simp] theorem runFrom_nil (s : σ) : runFrom step s [] = some s := rfl

/-- The first event, and the others where it leads. -/
theorem runFrom_cons (s : σ) (e : ε) (es : List ε) :
    runFrom step s (e :: es) = (step s e).bind fun s' => runFrom step s' es := rfl

/-- **Inversion** of a run from its first event. -/
theorem runFrom_cons_eq_some {s t : σ} {e : ε} {es : List ε} :
    runFrom step s (e :: es) = some t ↔ ∃ s', step s e = some s' ∧ runFrom step s' es = some t := by
  rw [runFrom_cons, Option.bind_eq_some_iff]

/-- A run of `es ++ es'` is a run of `es` followed by a run of `es'`. -/
theorem runFrom_append (s : σ) (es es' : List ε) :
    runFrom step s (es ++ es') = (runFrom step s es).bind fun t => runFrom step t es' := by
  induction es generalizing s with
  | nil => rfl
  | cons e es ih =>
    rw [List.cons_append, runFrom_cons, runFrom_cons, Option.bind_assoc]
    congr 1
    ext s' : 1
    exact ih s'

/-- And from its last one. -/
theorem runFrom_concat_eq_some {s u : σ} {e : ε} {es : List ε} :
    runFrom step s (es ++ [e]) = some u ↔ ∃ t, runFrom step s es = some t ∧ step t e = some u := by
  rw [runFrom_append, Option.bind_eq_some_iff]
  simp only [runFrom_cons, runFrom_nil, Option.bind_fun_some]

/-- The state a run ends in (its start if it cannot be executed). -/
def endOf (step : σ → ε → Option σ) (s : σ) (es : List ε) : σ := (runFrom step s es).getD s

/-- A run that is possible ends in its end. -/
theorem runFrom_endOf {s : σ} {es : List ε} (h : (runFrom step s es).isSome = true) :
    runFrom step s es = some (endOf step s es) := by
  obtain ⟨t, ht⟩ := Option.isSome_iff_exists.mp h
  rw [endOf, ht]
  rfl

/-- `t` is reached from `s` by some run. -/
def Reachable (step : σ → ε → Option σ) (s t : σ) : Prop := ∃ es, runFrom step s es = some t

/-- Every state is reached from itself. -/
theorem Reachable.refl (s : σ) : Reachable step s s := ⟨[], rfl⟩

/-- One step further. -/
theorem Reachable.tail {s t u : σ} {e : ε} (h : Reachable step s t) (he : step t e = some u) :
    Reachable step s u := by
  obtain ⟨es, hes⟩ := h
  refine ⟨es ++ [e], ?_⟩
  rw [runFrom_append, hes, Option.bind_some, runFrom_cons, he]
  rfl

/-- One run after another. -/
theorem Reachable.trans {s t u : σ} (h : Reachable step s t) (h' : Reachable step t u) :
    Reachable step s u := by
  obtain ⟨es, hes⟩ := h
  obtain ⟨es', hes'⟩ := h'
  refine ⟨es ++ es', ?_⟩
  rw [runFrom_append, hes]
  exact hes'

/-- The events one after the other; one that is impossible where it comes changes nothing. -/
def attempts (step : σ → ε → Option σ) (s : σ) (es : List ε) : σ :=
  es.foldl (fun s e => (step s e).getD s) s

/-- The attempts that succeed are a run. -/
theorem reachable_attempts (s : σ) (es : List ε) : Reachable step s (attempts step s es) := by
  induction es generalizing s with
  | nil => exact .refl s
  | cons e es ih =>
    rw [attempts, List.foldl_cons]
    cases he : step s e with
    | none => exact ih s
    | some t =>
      have hfirst : Reachable step s t := (Reachable.refl s).tail he
      exact hfirst.trans (ih t)

/-! ### Invariants -/

/-- **The invariant rule.**  What one step keeps, a run keeps. -/
theorem runFrom_invariant {I : σ → Prop} (hstep : ∀ s e s', I s → step s e = some s' → I s')
    {s t : σ} {es : List ε} (hs : I s) (hrun : runFrom step s es = some t) : I t := by
  induction es generalizing s with
  | nil => cases hrun; exact hs
  | cons e es ih =>
    obtain ⟨s', he, hrest⟩ := runFrom_cons_eq_some.mp hrun
    exact ih (hstep s e s' hs he) hrest

/-- What every step with an event of the run keeps, the run keeps. -/
theorem runFrom_invariant_of_mem {I : σ → Prop} {s t : σ} {es : List ε}
    (hstep : ∀ s, ∀ e ∈ es, ∀ s', I s → step s e = some s' → I s') (hs : I s)
    (hrun : runFrom step s es = some t) : I t := by
  induction es generalizing s with
  | nil => cases hrun; exact hs
  | cons e es ih =>
    obtain ⟨s', he, hrest⟩ := runFrom_cons_eq_some.mp hrun
    exact ih (fun s e' he' => hstep s e' (List.mem_cons_of_mem e he'))
      (hstep s e List.mem_cons_self s' hs he) hrest

/-- What one step keeps, every reachable state has. -/
theorem Reachable.invariant {I : σ → Prop} (hstep : ∀ s e s', I s → step s e = some s' → I s')
    {s t : σ} (hs : I s) (h : Reachable step s t) : I t := by
  obtain ⟨es, hes⟩ := h
  exact runFrom_invariant hstep hs hes

/-- `P` holds in every state of the run of `es` from `s`, its two ends included. -/
def EveryState (step : σ → ε → Option σ) (P : σ → Prop) : σ → List ε → Prop
  | s, [] => P s
  | s, e :: es => P s ∧ ∀ s', step s e = some s' → EveryState step P s' es

/-- `ok` holds of every step of the run of `es` from `s`, in the state before the step. -/
def EveryStep (step : σ → ε → Option σ) (ok : σ → ε → Prop) : σ → List ε → Prop
  | _, [] => True
  | s, e :: es => ∀ s', step s e = some s' → ok s e ∧ EveryStep step ok s' es

/-- The last state of a run has what every state of the run has. -/
theorem EveryState.last {P : σ → Prop} {s t : σ} {es : List ε} (h : EveryState step P s es)
    (hrun : runFrom step s es = some t) : P t := by
  induction es generalizing s with
  | nil => cases hrun; exact h
  | cons e es ih =>
    obtain ⟨s', he, hrest⟩ := runFrom_cons_eq_some.mp hrun
    exact ih (h.2 s' he) hrest

/-- What every `ok` step keeps, a run of `ok` steps keeps. -/
theorem EveryStep.invariant {I : σ → Prop} {ok : σ → ε → Prop}
    (hstep : ∀ s e s', I s → ok s e → step s e = some s' → I s') {s t : σ} {es : List ε}
    (hs : I s) (h : EveryStep step ok s es) (hrun : runFrom step s es = some t) : I t := by
  induction es generalizing s with
  | nil => cases hrun; exact hs
  | cons e es ih =>
    obtain ⟨s', he, hrest⟩ := runFrom_cons_eq_some.mp hrun
    obtain ⟨hok, htail⟩ := h s' he
    exact ih (hstep s e s' hs hok he) htail hrest

/-- **The exact condition of a run.**  Let `J` be an invariant of the system.  If, from a
    state with `J` and `P`, a step leads to `P` exactly when it is `ok`, then `P` holds all
    along a run exactly when every step of it is `ok`. -/
theorem everyState_iff_everyStep {J P : σ → Prop} {ok : σ → ε → Prop}
    (hJ : ∀ s e s', J s → step s e = some s' → J s')
    (hP : ∀ s e s', J s → P s → step s e = some s' → (P s' ↔ ok s e))
    {s : σ} (hs : J s) (hPs : P s) (es : List ε) :
    EveryState step P s es ↔ EveryStep step ok s es := by
  -- the conditions on the steps are those on the states one place later
  induction es generalizing s with
  | nil => exact ⟨fun _ => trivial, fun _ => hPs⟩
  | cons e es ih =>
    constructor
    · intro h s' he
      have hrest : EveryState step P s' es := h.2 s' he
      -- the next state is the head of what is left of the run
      have hPs' : P s' := by
        cases es with
        | nil => exact hrest
        | cons e' es' => exact hrest.1
      exact ⟨(hP s e s' hs hPs he).mp hPs', (ih (hJ s e s' hs he) hPs').mp hrest⟩
    · intro h
      refine ⟨hPs, fun s' he => ?_⟩
      obtain ⟨hok, hrest⟩ := h s' he
      have hPs' : P s' := (hP s e s' hs hPs he).mpr hok
      exact (ih (hJ s e s' hs he) hPs').mpr hrest

/-! ### Refinement -/

/-- The labels of a run below the run of `es` from `s`, where `image s e` are those of one step. -/
def labelsOf {δ : Type*} (step : σ → ε → Option σ) (image : σ → ε → List δ) : σ → List ε → List δ
  | _, [] => []
  | s, e :: es => image s e ++ (step s e).elim [] fun s' => labelsOf step image s' es

/-- The labels of a run with one more event. -/
theorem labelsOf_concat {δ : Type*} {image : σ → ε → List δ} {s t : σ} {es : List ε}
    (hrun : runFrom step s es = some t) (e : ε) :
    labelsOf step image s (es ++ [e]) = labelsOf step image s es ++ image t e := by
  induction es generalizing s with
  | nil =>
    cases hrun
    have hnone : ((step t e).elim [] fun _ => []) = ([] : List δ) := by
      cases step t e <;> rfl
    simp only [List.nil_append, labelsOf, hnone, List.append_nil]
  | cons e' es ih =>
    obtain ⟨s', he, hrest⟩ := runFrom_cons_eq_some.mp hrun
    rw [List.cons_append, labelsOf, labelsOf, he]
    simp only [Option.elim_some, List.append_assoc]
    rw [ih hrest]

/-- **The refinement rule.**  If every step, from a state with the invariant, is a run of the system
    below, then so is every run. -/
theorem runFrom_refines {τ δ : Type*} {below : τ → δ → Option τ} {abs : σ → τ}
    {image : σ → ε → List δ} {I : σ → Prop}
    (hstep : ∀ s e s', I s → step s e = some s' →
      I s' ∧ runFrom below (abs s) (image s e) = some (abs s'))
    {s t : σ} {es : List ε} (hs : I s) (hrun : runFrom step s es = some t) :
    I t ∧ runFrom below (abs s) (labelsOf step image s es) = some (abs t) := by
  induction es generalizing s with
  | nil =>
    cases hrun
    exact ⟨hs, rfl⟩
  | cons e es ih =>
    obtain ⟨s', he, hrest⟩ := runFrom_cons_eq_some.mp hrun
    obtain ⟨hs', hbelow⟩ := hstep s e s' hs he
    obtain ⟨ht, hlabels⟩ := ih hs' hrest
    refine ⟨ht, ?_⟩
    rw [labelsOf, he, Option.elim_some, runFrom_append, hbelow]
    exact hlabels

/-! ### Runs that end -/

/-- If no run along `inputs` has more than `n` events, the run along them gets stuck. -/
theorem exists_stuck {n : ℕ} {s : σ} {inputs : ℕ → ε}
    (hbound : ∀ k t, runFrom step s ((List.range k).map inputs) = some t → k ≤ n) :
    ∃ k ≤ n, ∃ t, runFrom step s ((List.range k).map inputs) = some t ∧
      step t (inputs k) = none := by
  -- if none of the first `n + 1` inputs failed, the run would be longer than the bound allows
  by_contra hnone
  have hgo (k : ℕ) : ∃ t, runFrom step s ((List.range k).map inputs) = some t := by
    induction k with
    | zero => exact ⟨s, rfl⟩
    | succ k ih =>
      obtain ⟨t, ht⟩ := ih
      cases hstep : step t (inputs k) with
      | none => exact absurd ⟨k, hbound k t ht, t, ht, hstep⟩ hnone
      | some u =>
        refine ⟨u, ?_⟩
        rw [List.range_succ, List.map_append, List.map_singleton, runFrom_concat_eq_some]
        exact ⟨t, ht, hstep⟩
  obtain ⟨t, ht⟩ := hgo (n + 1)
  have hle := hbound (n + 1) t ht
  omega

end SystemProgramming.Transition
