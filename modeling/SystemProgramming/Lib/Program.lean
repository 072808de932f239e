import Mathlib.Data.Finset.Dedup
import Mathlib.Data.Finset.Lattice.Lemmas
import Mathlib.Data.List.Range

namespace SystemProgramming.Program

/-! # Programs that may stop

A program that may stop before its end is a value of `Except ε σ`.

* `forRange` — the counted loop, with `forRange_eq` for a loop whose state at the head is known
  exactly, `forRange_inv` for one with an invariant, and `forRange_sim` for one that simulates
  another one;
* `foldlM_anyOrder` / `foldlM_execAt` — tasks that do not interfere, in any order, and components
  that do not interact, in any interleaving;
* `Ends allowed x Q` — if `x` ends, its result satisfies `Q`, and if it stops, it stops for one of
  the `allowed` reasons; `Ends.bind` composes such specifications along a program, and
  `Ends.foldlM` and `Ends.forRange` are the invariant rules of its loops. -/

variable {σ τ ε : Type*}

/-- A program that ends has ended its first part. -/
theorem bind_eq_ok {x : Except ε σ} {f : σ → Except ε τ} {t : τ} (h : x.bind f = .ok t) :
    ∃ s, x = .ok s ∧ f s = .ok t := by
  cases x with
  | error e => cases h
  | ok s => exact ⟨s, rfl, h⟩

/-! ### Counted loops -/

section Loop

variable {f : σ → ℕ → Except ε σ} {n : ℕ} {s : σ}

/-- The loop over `i = 0, …, n - 1` with body `f`. -/
def forRange (n : ℕ) (f : σ → ℕ → Except ε σ) (s : σ) : Except ε σ :=
  (List.range n).foldlM f s

@[simp] theorem forRange_zero : forRange 0 f s = .ok s := rfl

theorem forRange_succ : forRange (n + 1) f s = (forRange n f s).bind fun t => f t n := by
  unfold forRange
  rw [List.range_succ, List.foldlM_append]
  show Except.bind _ _ = Except.bind _ _
  congr 1
  ext t : 1
  show (f t n).bind Except.ok = f t n
  cases f t n <;> rfl

/-- A loop whose state before iteration `i` is `g i`, for every `i`, ends in `g n`. -/
theorem forRange_eq (g : ℕ → σ) (h0 : g 0 = s) (hstep : ∀ i < n, f (g i) i = .ok (g (i + 1))) :
    forRange n f s = .ok (g n) := by
  induction n with
  | zero => rw [forRange_zero, h0]
  | succ n ih =>
    rw [forRange_succ, ih fun i hi => hstep i (by omega)]
    exact hstep n (by omega)

/-- **Invariant rule.**  An invariant of one iteration, which the body also uses to go through,
    holds at the end. -/
theorem forRange_inv (I : ℕ → σ → Prop) (h0 : I 0 s)
    (hstep : ∀ i < n, ∀ t, I i t → ∃ t', f t i = .ok t' ∧ I (i + 1) t') :
    ∃ t, forRange n f s = .ok t ∧ I n t := by
  induction n with
  | zero => exact ⟨s, rfl, h0⟩
  | succ n ih =>
    obtain ⟨t, ht, hI⟩ := ih fun i hi => hstep i (by omega)
    rw [forRange_succ, ht]
    exact hstep n (by omega) t hI

/-- What every iteration carries on holds at the end of a loop that ends. -/
theorem forRange_preserves {I : ℕ → σ → Prop} {s' : σ} (hloop : forRange n f s = .ok s')
    (h0 : I 0 s) (hstep : ∀ i < n, ∀ u u', I i u → f u i = .ok u' → I (i + 1) u') : I n s' := by
  induction n generalizing s' with
  | zero =>
    cases hloop
    exact h0
  | succ n ih =>
    rw [forRange_succ] at hloop
    obtain ⟨u, hu, hlast⟩ := bind_eq_ok hloop
    exact hstep n (by omega) u s' (ih hu fun i hi => hstep i (by omega)) hlast

/-- **Simulation rule.**  A loop whose body simulates that of a loop that ends. -/
theorem forRange_sim {g : τ → ℕ → Except ε τ} (R : ℕ → σ → τ → Prop) {s' : σ} {t : τ}
    (hloop : forRange n f s = .ok s') (h0 : R 0 s t)
    (hstep : ∀ i < n, ∀ u u' v, R i u v → f u i = .ok u' → ∃ v', g v i = .ok v' ∧ R (i + 1) u' v') :
    ∃ t', forRange n g t = .ok t' ∧ R n s' t' := by
  induction n generalizing s' with
  | zero =>
    cases hloop
    exact ⟨t, rfl, h0⟩
  | succ n ih =>
    rw [forRange_succ] at hloop
    obtain ⟨u, hu, hlast⟩ := bind_eq_ok hloop
    obtain ⟨v, hv, hR⟩ := ih hu fun i hi => hstep i (by omega)
    rw [forRange_succ, hv]
    exact hstep n (by omega) u s' v hR hlast

end Loop

/-! ### Tasks in any order -/

section Tasks

variable {κ : Type*}

/-- **Independent tasks.**  If the state depends only on which tasks are done (`st done`), then
    executing tasks that differ from each other ends in the same state in whatever order. -/
theorem foldlM_anyOrder [DecidableEq τ] (exec : σ → τ → Except ε σ) {tasks order : List τ}
    (st : Finset τ → σ)
    (hexec : ∀ (done : Finset τ), ∀ t ∈ tasks, t ∉ done →
      exec (st done) t = .ok (st (insert t done)))
    (hnodup : tasks.Nodup) (horder : order.Perm tasks) :
    order.foldlM exec (st ∅) = .ok (st tasks.toFinset) := by
  -- by induction on the tasks that are left, with the set of those that are done
  have key : ∀ (rest : List τ) (done : Finset τ), (∀ t ∈ rest, t ∈ tasks) → rest.Nodup →
      (∀ t ∈ rest, t ∉ done) →
      rest.foldlM exec (st done) = .ok (st (done ∪ rest.toFinset)) := by
    intro rest
    induction rest with
    | nil =>
      intro done _ _ _
      rw [List.toFinset_nil, Finset.union_empty]
      rfl
    | cons t rest ih =>
      intro done hmem hnodup hnew
      obtain ⟨ht, hrest⟩ := List.nodup_cons.mp hnodup
      rw [List.foldlM_cons, hexec done t (hmem t (by simp)) (hnew t (by simp))]
      show rest.foldlM exec (st (insert t done)) = _
      rw [ih (insert t done) (fun u hu => hmem u (by simp [hu])) hrest ?_]
      · rw [List.toFinset_cons, Finset.union_insert, Finset.insert_union]
      · intro u hu
        rw [Finset.mem_insert, not_or]
        exact ⟨fun h => ht (h ▸ hu), hnew u (by simp [hu])⟩
  rw [key order ∅ (fun t ht => horder.mem_iff.mp ht) (horder.nodup_iff.mpr hnodup) (by simp),
    Finset.empty_union, List.toFinset_eq_of_perm _ _ horder]

/-- What the interleaved `events` do at component `k`. -/
def eventsAt [DecidableEq κ] (k : κ) (events : List (κ × τ)) : List τ :=
  (events.filter fun e => e.1 = k).map Prod.snd

theorem eventsAt_cons_self [DecidableEq κ] (k : κ) (t : τ) (events : List (κ × τ)) :
    eventsAt k ((k, t) :: events) = t :: eventsAt k events := by
  simp [eventsAt]

theorem eventsAt_cons_of_ne [DecidableEq κ] {j k : κ} (h : j ≠ k) (t : τ) (events : List (κ × τ)) :
    eventsAt j ((k, t) :: events) = eventsAt j events := by
  simp [eventsAt, h.symm]

/-- One event, on the component it names. -/
def execAt [DecidableEq κ] (exec : κ → σ → τ → Except ε σ) (d : κ → σ) (e : κ × τ) :
    Except ε (κ → σ) :=
  (exec e.1 (d e.1) e.2).map (Function.update d e.1)

/-- **Independent components.**  However the events of several components are interleaved, each
    component goes through its own events. -/
theorem foldlM_execAt [DecidableEq κ] {exec : κ → σ → τ → Except ε σ} {d d' : κ → σ}
    {events : List (κ × τ)}
    (h : ∀ k, (eventsAt k events).foldlM (exec k) (d k) = .ok (d' k)) :
    events.foldlM (execAt exec) d = .ok d' := by
  induction events generalizing d with
  | nil =>
    have heq : d = d' := funext fun k => Except.ok.inj (h k)
    subst heq
    rfl
  | cons e events ih =>
    obtain ⟨k, t⟩ := e
    have hk := h k
    rw [eventsAt_cons_self, List.foldlM_cons] at hk
    obtain ⟨s, hx, hrest⟩ := bind_eq_ok hk
    rw [List.foldlM_cons, execAt, hx]
    apply ih
    intro j
    by_cases hj : j = k
    · subst hj
      rw [Function.update_self]
      exact hrest
    · -- the other components have not moved
      rw [Function.update_of_ne hj, ← h j, eventsAt_cons_of_ne hj]

/-- If an interleaving ends, then each component has gone through its own events. -/
theorem eventsAt_of_foldlM [DecidableEq κ] {exec : κ → σ → τ → Except ε σ} {d d' : κ → σ}
    {events : List (κ × τ)} (h : events.foldlM (execAt exec) d = .ok d') (k : κ) :
    (eventsAt k events).foldlM (exec k) (d k) = .ok (d' k) := by
  induction events generalizing d with
  | nil =>
    cases h
    rfl
  | cons e events ih =>
    obtain ⟨j, t⟩ := e
    rw [List.foldlM_cons] at h
    obtain ⟨d₁, hstep, h⟩ := bind_eq_ok h
    have hrest := ih h
    cases hx : exec j (d j) t with
    | error => rw [execAt, hx] at hstep; cases hstep
    | ok s =>
      rw [execAt, hx] at hstep
      obtain rfl := Except.ok.inj hstep
      -- an event of `k` is executed here, any other one leaves the value of `k` as it is
      by_cases hj : k = j
      · subst hj
        rw [eventsAt_cons_self, List.foldlM_cons, hx]
        rwa [Function.update_self] at hrest
      · rw [eventsAt_cons_of_ne hj]
        rwa [Function.update_of_ne hj] at hrest

/-- The results of `mapM`, one for each element. -/
theorem forall₂_of_mapM {f : τ → Except ε σ} {tasks : List τ} {results : List σ}
    (h : tasks.mapM f = .ok results) :
    List.Forall₂ (fun t x => f t = .ok x) tasks results := by
  induction tasks generalizing results with
  | nil =>
    cases h
    exact .nil
  | cons t tasks ih =>
    rw [List.mapM_cons] at h
    obtain ⟨x, hx, h⟩ := bind_eq_ok h
    obtain ⟨xs, hxs, h⟩ := bind_eq_ok h
    cases h
    exact .cons hx (ih hxs)

/-- Programs that all end, one after the other. -/
theorem mapM_eq {f : τ → Except ε σ} {g : τ → σ} {tasks : List τ}
    (h : ∀ t ∈ tasks, f t = .ok (g t)) : tasks.mapM f = .ok (tasks.map g) := by
  induction tasks with
  | nil => rfl
  | cons t tasks ih =>
    rw [List.mapM_cons, h t (by simp), ih fun u hu => h u (by simp [hu])]
    rfl

end Tasks

/-! ### Specifications -/

/-- The result of `x`, if it has one, satisfies `Q`; otherwise `x` stops for an allowed reason. -/
def Ends (allowed : ε → Prop) (x : Except ε σ) (Q : σ → Prop) : Prop :=
  match x with
  | .ok s => Q s
  | .error e => allowed e

variable {allowed : ε → Prop} {x : Except ε σ} {Q R : σ → Prop}

theorem Ends.mono (h : Ends allowed x Q) (himp : ∀ s, Q s → R s) : Ends allowed x R := by
  cases x with
  | ok s => exact himp s h
  | error e => exact h

/-- Sequential composition. -/
theorem Ends.bind {f : σ → Except ε τ} {T : τ → Prop} (h : Ends allowed x Q)
    (hf : ∀ s, Q s → Ends allowed (f s) T) : Ends allowed (x.bind f) T := by
  cases x with
  | ok s => exact hf s h
  | error e => exact h

theorem Ends.of_ok {s : σ} (h : Ends allowed x Q) (hx : x = .ok s) : Q s := by
  subst hx
  exact h

theorem Ends.of_error {e : ε} (h : Ends allowed x Q) (hx : x = .error e) : allowed e := by
  subst hx
  exact h

/-- An invariant of every task, whose tasks stop for allowed reasons only. -/
theorem Ends.foldlM {I : σ → Prop} {f : σ → τ → Except ε σ} {tasks : List τ} {s : σ} (h0 : I s)
    (hstep : ∀ t ∈ tasks, ∀ s, I s → Ends allowed (f s t) I) :
    Ends allowed (tasks.foldlM f s) I := by
  induction tasks generalizing s with
  | nil => exact h0
  | cons t tasks ih =>
    rw [List.foldlM_cons]
    exact (hstep t (by simp) s h0).bind fun s' hs' => ih hs' fun u hu => hstep u (by simp [hu])

theorem Ends.forRange {I : σ → Prop} {f : σ → ℕ → Except ε σ} {n : ℕ} {s : σ} (h0 : I s)
    (hstep : ∀ i < n, ∀ s, I s → Ends allowed (f s i) I) :
    Ends allowed (forRange n f s) I :=
  Ends.foldlM h0 fun i hi => hstep i (List.mem_range.mp hi)

/-- An invariant of each component is kept by an event of one of them. -/
theorem Ends.execAt {κ : Type*} [DecidableEq κ] {I : κ → σ → Prop} {exec : κ → σ → τ → Except ε σ}
    {d : κ → σ} {e : κ × τ} (hd : ∀ k, I k (d k))
    (h : Ends allowed (exec e.1 (d e.1) e.2) (I e.1)) :
    Ends allowed (execAt exec d e) fun d' => ∀ k, I k (d' k) := by
  unfold Program.execAt
  cases hx : exec e.1 (d e.1) e.2 with
  | error => exact h.of_error hx
  | ok s =>
    intro k
    by_cases hk : k = e.1
    · subst hk
      rw [Function.update_self]
      exact h.of_ok hx
    · rw [Function.update_of_ne hk]
      exact hd k

end SystemProgramming.Program
