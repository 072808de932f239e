import SystemProgramming.Lib.ForkJoin
import SystemProgramming.Lib.Program

namespace SystemProgramming.ForkJoin

/-!
# The code of a thread, and the starting of threads

* `Code` — straight code that reads and writes cells, a monad; `Alone F t m b m'` says that it
  returns `b` and leaves `m'`, staying in the footprint `F`, when no other thread moves;
* `Tracks R F t s b s'` — the same for a memory that represents `s`, and then `s'`;
* `Alone.forRange`, `tracks_forRange` — a counted loop that follows the loop of another program;
* `Forks A start m m'` — `start next` starts threads, with the footprint `A`, that turn `m` into
  `m'`, and goes on with `next` while they run; `Forks.foldlM` and `Forks.each` are the rules for a
  loop that starts threads for every element of a list.
-/

variable {κ ε : Type} {V : κ → Type} {β γ σ τ : Type}

/-- The code of a thread up to a value. -/
inductive Code (V : κ → Type) (ε β : Type)
  | done (b : β)
  | stop (e : ε)
  | read (k : κ) (next : V k → Code V ε β)
  | write (k : κ) (v : V k) (next : Code V ε β)

namespace Code

/-- One part of the code after the other. -/
def bind : Code V ε β → (β → Code V ε γ) → Code V ε γ
  | done b, f => f b
  | stop e, _ => stop e
  | read k next, f => read k fun v => (next v).bind f
  | write k v next, f => write k v (next.bind f)

/-- Straight-line code, written with `do`. -/
instance : Monad (Code V ε) where
  pure := done
  bind := bind

/-- To give the result back is to do nothing more. -/
theorem bind_done (t : Code V ε β) : t.bind done = t := by
  induction t with
  | done | stop => rfl
  | read k next ih => exact congrArg (read k) (funext ih)
  | write k v next ih => exact congrArg (write k v) ih

/-- How three parts are bracketed makes no difference. -/
theorem bind_bind (t : Code V ε β) (f : β → Code V ε γ) (g : γ → Code V ε σ) :
    (t.bind f).bind g = t.bind fun b => (f b).bind g := by
  induction t with
  | done | stop => rfl
  | read k next ih => exact congrArg (read k) (funext ih)
  | write k v next ih => exact congrArg (write k v) ih

/-- Its laws. -/
instance : LawfulMonad (Code V ε) :=
  LawfulMonad.mk' (Code V ε) bind_done (fun _ _ => rfl) bind_bind

/-- The thread that goes on with `f` when the code is done. -/
def andThen : Code V ε β → (β → Proc V ε) → Proc V ε
  | done b, f => f b
  | stop e, _ => .stop e
  | read k next, f => .read k fun v => (next v).andThen f
  | write k v next, f => .write k v (next.andThen f)

/-- The thread that ends with the code. -/
def run (t : Code V ε Unit) : Proc V ε := t.andThen fun _ => .skip

/-- The loop over `i = 0, …, n - 1` with body `f`. -/
def forRange (n : ℕ) (f : β → ℕ → Code V ε β) (b : β) : Code V ε β := (List.range n).foldlM f b

end Code

open Footprint

variable [DecidableEq κ]

/-- Alone on the memory `m`, the code returns `b` and leaves the memory `m'`, staying in `F`. -/
inductive Alone (F : Footprint κ) : Code V ε β → Memory V → β → Memory V → Prop
  | done {b m} : Alone F (.done b) m b m
  | read {k next m b m'} : k ∈ F.uses → Alone F (next (m k)) m b m' →
      Alone F (.read k next) m b m'
  | write {k v next m b m'} : k ∈ F.sets → Alone F next (Function.update m k v) b m' →
      Alone F (.write k v next) m b m'

section Alone

variable {F F' : Footprint κ} {t : Code V ε β} {f : β → Code V ε γ} {m m' m₁ r : Memory V}
variable {b : β} {c : γ}

/-- Undisturbed, one part runs after the other. -/
theorem Alone.bind (h : Alone F t m b m₁) (hf : Alone F (f b) m₁ c m') :
    Alone F (t >>= f) m c m' := by
  induction h with
  | done => exact hf
  | read hk _ ih => exact .read hk (ih hf)
  | write hk _ ih => exact .write hk (ih hf)

/-- A run keeps to every larger footprint. -/
theorem Alone.mono (h : Alone F t m b m') (hF : F ≤ F') : Alone F' t m b m' := by
  induction h with
  | done => exact .done
  | read hk _ ih => exact .read (hF.1 hk) ih
  | write hk _ ih => exact .write (hF.2 hk) ih

/-- Undisturbed code changes nothing outside its footprint. -/
theorem Alone.off (h : Alone F t m b m') : ∀ k ∉ F.sets, m' k = m k := by
  induction h with
  | done => exact fun _ _ => rfl
  | read _ _ ih => exact ih
  | write hk _ ih =>
    exact fun k' hk' =>
      (ih k' hk').trans (Function.update_of_ne (ne_of_mem_of_not_mem hk hk').symm _ _)

/-- Code and what it goes on with, one of which may start tasks. -/
theorem Alone.andThen {f : β → Proc V ε} (h : Alone F t m b m₁) (hf : Settles F (f b) m₁ r) :
    Settles F (t.andThen f) m r := by
  induction h with
  | done => exact hf
  | read hk _ ih =>
    obtain ⟨n, hn⟩ := ih hf
    exact ⟨n + 1, .read hk hn⟩
  | write hk _ ih =>
    obtain ⟨n, hn⟩ := ih hf
    exact ⟨n + 1, .write hk hn⟩

/-- Nothing settles where it is. -/
theorem Settles.skip : Settles F (.skip : Proc V ε) m m := ⟨0, .skip⟩

/-- Undisturbed code settles. -/
theorem Alone.run {t : Code V ε Unit} (h : Alone F t m () m') : Settles F t.run m m' :=
  h.andThen .skip

/-- **Simulation rule.**  A loop whose body follows that of a loop that ends. -/
theorem Alone.forRange {ε' : Type} {f : σ → ℕ → Except ε' σ} {g : β → ℕ → Code V ε β} {n : ℕ}
    {s s' : σ} (R : ℕ → σ → β → Memory V → Prop) (hloop : Program.forRange n f s = .ok s')
    (h0 : R 0 s b m)
    (hstep : ∀ i < n, ∀ u u' c m, R i u c m → f u i = .ok u' →
      ∃ c' m', Alone F (g c i) m c' m' ∧ R (i + 1) u' c' m') :
    ∃ c m', Alone F (Code.forRange n g b) m c m' ∧ R n s' c m' := by
  -- the induction is on the rounds still to do, with the number of the next one
  have key : ∀ (todo : List ℕ) (i : ℕ), List.range' i todo.length = todo → i + todo.length ≤ n →
      ∀ (u : σ) (c : β) (m : Memory V), R i u c m → todo.foldlM f u = .ok s' →
      ∃ c' m', Alone F (todo.foldlM g c) m c' m' ∧ R (i + todo.length) s' c' m' := by
    intro todo
    induction todo with
    | nil =>
      intro i _ _ u c m hR hrun
      cases hrun
      exact ⟨c, m, .done, hR⟩
    | cons j todo ih =>
      intro i hrange hlen u c m hR hrun
      rw [List.length_cons, List.range'_succ] at hrange
      obtain ⟨rfl, htodo⟩ := List.cons.inj hrange
      rw [List.length_cons] at hlen
      rw [List.foldlM_cons] at hrun
      obtain ⟨u', hu, hrest⟩ := Program.bind_eq_ok hrun
      obtain ⟨c₁, m₁, hbody, hR'⟩ := hstep i (by omega) u u' c m hR hu
      obtain ⟨c', m', hrest', hend⟩ := ih (i + 1) htodo (by omega) u' c₁ m₁ hR' hrest
      refine ⟨c', m', ?_, ?_⟩
      · rw [List.foldlM_cons]
        exact hbody.bind hrest'
      · rw [List.length_cons]
        rwa [Nat.add_right_comm, Nat.add_assoc] at hend
  -- all of them are to do at the start
  have hall := key (List.range n) 0 (by rw [List.length_range, List.range_eq_range'])
    (by rw [List.length_range, Nat.zero_add]) s b m h0 hloop
  rwa [List.length_range, Nat.zero_add] at hall

end Alone

/-! ### Code that follows a state -/

/-- On a memory that represents `s`, the code returns `b` and leaves one that represents `s'`. -/
def Tracks (R : σ → Memory V → Prop) (F : Footprint κ) (t : Code V ε β) (s : σ) (b : β) (s' : σ) :
    Prop :=
  ∀ m, R s m → ∃ m', Alone F t m b m' ∧ R s' m'

section Tracks

variable {R : σ → Memory V → Prop} {F : Footprint κ} {t : Code V ε β} {f : β → Code V ε γ}
variable {s s₁ s' : σ} {b : β} {c : γ} {m : Memory V}

/-- **Two parts of the code, one after the other**, in the relation. -/
theorem Tracks.bind (h : Tracks R F t s b s₁) (hf : Tracks R F (f b) s₁ c s') :
    Tracks R F (t >>= f) s c s' := by
  intro m hm
  obtain ⟨m₁, hrun, hm₁⟩ := h m hm
  obtain ⟨m', hrun', hm'⟩ := hf m₁ hm₁
  exact ⟨m', hrun.bind hrun', hm'⟩

/-- Code that follows what leaves the memory as it is. -/
theorem Tracks.after (h : Alone F t m b m) (hf : Tracks R F (f b) s c s') (hm : R s m) :
    ∃ m', Alone F (t >>= f) m c m' ∧ R s' m' := by
  obtain ⟨m', hrun, hm'⟩ := hf m hm
  exact ⟨m', h.bind hrun, hm'⟩

/-- A result is given back in the relation. -/
theorem tracks_pure (b : β) : Tracks R F (pure b : Code V ε β) s b s := fun m hm => ⟨m, .done, hm⟩

/-- A counted loop whose body follows that of a loop on `u`, with the state `state u` in memory and
    the value `val u`. -/
theorem tracks_forRange {ε' υ : Type} {f : υ → ℕ → Except ε' υ} {g : β → ℕ → Code V ε β} {k : ℕ}
    {u u' : υ} (state : υ → σ) (val : υ → β) (I : ℕ → υ → Prop)
    (hloop : Program.forRange k f u = .ok u') (h0 : I 0 u)
    (hstep : ∀ i < k, ∀ u u', I i u → f u i = .ok u' →
      Tracks R F (g (val u) i) (state u) (val u') (state u') ∧ I (i + 1) u') :
    Tracks R F (Code.forRange k g (val u)) (state u) (val u') (state u') ∧ I k u' := by
  -- the relation carries the invariant and says that the code's value is that of the state
  have hsim (m : Memory V) (hm : R (state u) m) :=
    Alone.forRange (F := F) (g := g) (b := val u) (m := m)
      (fun i u c m => I i u ∧ c = val u ∧ R (state u) m) hloop ⟨h0, rfl, hm⟩ ?_
  · refine ⟨fun m hm => ?_, Program.forRange_preserves hloop h0 fun i hi u u' hu h =>
      (hstep i hi u u' hu h).2⟩
    obtain ⟨_, m', hrun, -, rfl, hm'⟩ := hsim m hm
    exact ⟨m', hrun, hm'⟩
  · rintro i hi u u' _ m ⟨hu, rfl, hm⟩ h
    obtain ⟨htracks, hu'⟩ := hstep i hi u u' hu h
    obtain ⟨m', hrun, hm'⟩ := htracks m hm
    exact ⟨val u', m', hrun, hu', rfl, hm'⟩

end Tracks

/-! ### Programs one after the other -/

section Settles

variable {F F' A K : Footprint κ} {p q : Proc V ε} {m m' m₁ r : Memory V}

/-- A process keeps to every larger footprint. -/
theorem Settles.mono (h : Settles F p m r) (hF : F ≤ F') : Settles F' p m r :=
  h.imp fun _ h => h.mono hF

/-- A process changes nothing outside its footprint. -/
theorem Settles.off (h : Settles F p m r) : ∀ k ∉ F.sets, r k = m k :=
  let ⟨_, h⟩ := h
  h.off

/-- One process after the other. -/
theorem Settles.seq (h : Settles F p m m₁) (h' : Settles F q m₁ r) : Settles F (.seq p q) m r :=
  let ⟨_, h⟩ := h
  let ⟨_, h'⟩ := h'
  ⟨_, .seq h h'⟩

/-! ### Starting threads -/

/-- `start next` starts threads, with the footprint `A`, that turn the memory `m` into `m'`, and goes
    on with `next`, whatever that is, while they run. -/
def Forks (A : Footprint κ) (start : Proc V ε → Proc V ε) (m m' : Memory V) : Prop :=
  ∀ K next r, Independent A K → Settles K next m' r → Settles (A ⊔ K) (start next) m r

variable {start start' : Proc V ε → Proc V ε} {B : Footprint κ}

/-- One thread. -/
theorem Forks.thread (h : Settles A p m m') : Forks A (fun next => .par p next) m m' := by
  intro K next r hK hnext
  obtain ⟨n, h⟩ := h
  obtain ⟨n', hnext⟩ := hnext
  exact ⟨_, .par le_sup_left le_sup_right hK h hnext⟩

/-- No thread. -/
theorem Forks.none : Forks A (fun next : Proc V ε => next) m m :=
  fun _ _ _ _ hnext => hnext.mono le_sup_right

/-- What the starting thread does itself before it starts the others. -/
theorem Forks.andThen {t : Code V ε β} {b : β} {start : β → Proc V ε → Proc V ε}
    (h : Alone A t m b m₁) (hstart : Forks A (start b) m₁ m') :
    Forks A (fun next => t.andThen fun b => start b next) m m' :=
  fun K next r hK hnext => (h.mono le_sup_left).andThen (hstart K next r hK hnext)

/-- Two starts, of independent tasks. -/
theorem Forks.comp (h : Forks A start m m₁) (h' : Forks B start' m₁ m') (hAB : Independent A B) :
    Forks (A ⊔ B) (fun next => start (start' next)) m m' := by
  intro K next r hK hnext
  rw [sup_assoc]
  exact h _ _ _ (hAB.sup_right (hK.mono le_sup_left le_rfl))
    (h' K next r (hK.mono le_sup_right le_rfl) hnext)

/-- The tasks keep to every larger footprint. -/
theorem Forks.mono (h : Forks A start m m') (hA : A ≤ B) : Forks B start m m' :=
  fun K next r hK hnext =>
    (h K next r (hK.mono hA le_rfl) hnext).mono (sup_le_sup_right hA K)

/-- The threads that have been started are joined. -/
theorem Forks.join (h : Forks A start m m') : Settles A (start .skip) m m' := by
  have hend := h ⊥ .skip m' independent_bot .skip
  rwa [sup_bot_eq] at hend

/-- The tasks change nothing outside their footprint. -/
theorem Forks.off (h : Forks A start m m') : ∀ k ∉ A.sets, m' k = m k := h.join.off

/-- The footprints of several threads. -/
def Footprint.all (A : τ → Footprint κ) : List τ → Footprint κ
  | [] => ⊥
  | t :: ts => A t ⊔ Footprint.all A ts

omit [DecidableEq κ] in
/-- The footprint of all tasks is the least that contains each of them. -/
theorem Footprint.all_le {A : τ → Footprint κ} {ts : List τ} (h : ∀ t ∈ ts, A t ≤ B) :
    Footprint.all A ts ≤ B := by
  induction ts with
  | nil => exact bot_le
  | cons t ts ih => exact sup_le (h t (by simp)) (ih fun u hu => h u (by simp [hu]))

omit [DecidableEq κ] in
/-- What is independent of each task is independent of all of them. -/
theorem Footprint.independent_all {A : τ → Footprint κ} {ts : List τ}
    (h : ∀ t ∈ ts, Independent B (A t)) : Independent B (Footprint.all A ts) := by
  induction ts with
  | nil => exact independent_bot
  | cons t ts ih => exact (h t (by simp)).sup_right (ih fun u hu => h u (by simp [hu]))

/-- The loop that starts threads for every element of a list. -/
def startAll (start : τ → Proc V ε → Proc V ε) (ts : List τ) (next : Proc V ε) : Proc V ε :=
  ts.foldr start next

omit [DecidableEq κ] in
/-- What none of several threads writes. -/
theorem Footprint.notMem_all {A : τ → Footprint κ} {ts : List τ} {k : κ}
    (h : ∀ t ∈ ts, k ∉ (A t).sets) : k ∉ (Footprint.all A ts).sets := by
  induction ts with
  | nil => exact fun hk => hk
  | cons t ts ih =>
    rintro (hk | hk)
    · exact h t (by simp) hk
    · exact ih (fun u hu => h u (by simp [hu])) hk

/-- **Threads that follow a program.**  A loop starts threads for the elements of `ts`.  If those for
    `t` follow `exec · t` and make `Q t` true, and the footprints are independent, then together they
    follow the program that executes the elements one after the other, and make all `Q t` true. -/
theorem Forks.foldlM {ε' : Type} (A : τ → Footprint κ) (start : τ → Proc V ε → Proc V ε)
    {exec : σ → τ → Except ε' σ} {ts : List τ} {s s' : σ} (R : σ → Memory V → Prop)
    (Q : τ → Memory V → Prop) (hQ : ∀ t m m', (∀ k ∈ (A t).uses, m' k = m k) → Q t m → Q t m')
    (hA : ts.Pairwise fun t u => Independent (A t) (A u)) (hR : R s m)
    (hexec : ∀ t ∈ ts, ∀ s s' m, R s m → exec s t = .ok s' →
      ∃ m', Forks (A t) (start t) m m' ∧ R s' m' ∧ Q t m')
    (hrun : ts.foldlM exec s = .ok s') :
    ∃ m', Forks (Footprint.all A ts) (startAll start ts) m m' ∧ R s' m' ∧ ∀ t ∈ ts, Q t m' := by
  -- the list is walked in order, and every task leaves the tasks behind it alone
  induction ts generalizing s m with
  | nil =>
    cases hrun
    exact ⟨m, .none, hR, by simp⟩
  | cons t ts ih =>
    obtain ⟨ht, hts⟩ := List.pairwise_cons.mp hA
    rw [List.foldlM_cons] at hrun
    obtain ⟨s₁, hs₁, hrest⟩ := Program.bind_eq_ok hrun
    obtain ⟨m₁, hfork, hR₁, hQ₁⟩ := hexec t (by simp) s s₁ m hR hs₁
    obtain ⟨m', hforks, hR', hQ'⟩ := ih hts hR₁ (fun u hu => hexec u (by simp [hu])) hrest
    refine ⟨m', hfork.comp hforks (Footprint.independent_all ht), hR', fun u hu => ?_⟩
    rcases List.mem_cons.mp hu with rfl | hu
    · -- the later tasks use other places, so what `t` has done stays
      refine hQ _ m₁ m' (fun k hk => hforks.off k (Footprint.notMem_all fun v hv hk' => ?_)) hQ₁
      exact (ht v hv).right k hk' hk
    · exact hQ' u hu

/-- **Threads on their own cells.**  A loop starts threads for the elements of `ts`, each of which owns
    the cells that they may use and on which `P t` and `Q t` depend. -/
theorem Forks.each (A : τ → Footprint κ) (start : τ → Proc V ε → Proc V ε) {ts : List τ}
    (own : τ → Set κ) (P Q : τ → Memory V → Prop)
    (hP : ∀ t m m', (∀ k ∈ own t, m' k = m k) → P t m → P t m')
    (hQ : ∀ t m m', (∀ k ∈ own t, m' k = m k) → Q t m → Q t m')
    (hA : ∀ t, (A t).uses ⊆ own t) (hown : ts.Pairwise fun t u => ∀ k ∈ own t, k ∉ own u)
    (hstart : ∀ t ∈ ts, ∀ m, P t m → ∃ m', Forks (A t) (start t) m m' ∧ Q t m')
    (hm : ∀ t ∈ ts, P t m) :
    ∃ m', Forks (Footprint.all A ts) (startAll start ts) m m' ∧ ∀ t ∈ ts, Q t m' := by
  induction ts generalizing m with
  | nil => exact ⟨m, .none, by simp⟩
  | cons t ts ih =>
    obtain ⟨ht, hts⟩ := List.pairwise_cons.mp hown
    have hindep (u : τ) (hu : u ∈ ts) : Independent (A t) (A u) :=
      ⟨fun k hk hk' => ht u hu k (hA t ((A t).sub hk)) (hA u hk'),
        fun k hk hk' => ht u hu k (hA t hk') (hA u ((A u).sub hk))⟩
    obtain ⟨m₁, hfork, hQ₁⟩ := hstart t (by simp) m (hm t (by simp))
    -- what `t` changes is its own, so the later tasks still find their preconditions
    obtain ⟨m', hforks, hQ'⟩ := ih hts (fun u hu => hstart u (by simp [hu])) fun u hu =>
      hP u m m₁ (fun k hk => hfork.off k fun hk' =>
        ht u hu k (hA t ((A t).sub hk')) hk) (hm u (by simp [hu]))
    refine ⟨m', hfork.comp hforks (Footprint.independent_all hindep), fun u hu => ?_⟩
    rcases List.mem_cons.mp hu with rfl | hu
    · refine hQ _ m₁ m' (fun k hk => hforks.off k (Footprint.notMem_all fun v hv hk' => ?_)) hQ₁
      exact ht v hv k hk (hA v ((A v).sub hk'))
    · exact hQ' u hu

end Settles

end SystemProgramming.ForkJoin
