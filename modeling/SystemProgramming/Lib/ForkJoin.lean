import Mathlib.Data.Set.Lattice
import SystemProgramming.Lib.Confluence

namespace SystemProgramming.ForkJoin

open Transition

/-!
# Threads that are started and joined, on one memory

A `Proc` is a program whose threads read and write the cells of a shared memory; one step is one
access of one thread.  Every thread may be the next one to move.

* `step`, `access`, `Race` — the interleaving semantics, the next access of each thread, and two
  threads about to access one cell, one of them to write it;
* `Runs F p m n r` — `p` ends in `r` after `n` steps when its threads run one after the other, and
  threads that run at the same time have footprints in `F` that are independent;
* `Runs.step` — **whichever thread moves**, the rest still runs to the same end, one step shorter;
* `Settles.every_run` — so all interleavings end in the same memory, and none has a race.
-/

variable {κ ε : Type*} {V : κ → Type*} {β γ : Type*}

/-- The contents of all cells. -/
abbrev Memory (V : κ → Type*) := (k : κ) → V k

/-- Threads: `seq` waits for its first part, `par` joins its two parts. -/
inductive Proc (V : κ → Type*) (ε : Type*)
  | skip
  | stop (e : ε)
  | read (k : κ) (next : V k → Proc V ε)
  | write (k : κ) (v : V k) (next : Proc V ε)
  | seq (p q : Proc V ε)
  | par (p q : Proc V ε)

/-- The branches of `par` on the way to a thread. -/
inductive Side
  | left
  | right
  deriving DecidableEq, Repr

/-- A thread of a program. -/
abbrev Path := List Side

namespace Proc

/-! ### Interleavings -/

section Step

variable [DecidableEq κ]

/-- One step of the thread at the given path. -/
def step : Proc V ε → Path → Memory V → Option (Proc V ε × Memory V)
  | read k next, [], m => some (next (m k), m)
  | write k v next, [], m => some (next, Function.update m k v)
  | seq skip q, [], m => some (q, m)
  | seq p q, path, m => (step p path m).map fun s => (seq s.1 q, s.2)
  | par skip skip, [], m => some (skip, m)
  | par p q, .left :: path, m => (step p path m).map fun s => (par s.1 q, s.2)
  | par p q, .right :: path, m => (step q path m).map fun s => (par p s.1, s.2)
  | _, _, _ => none

/-- A state of a running program moves when one of its threads does. -/
def next (s : Proc V ε × Memory V) (path : Path) : Option (Proc V ε × Memory V) :=
  step s.1 path s.2

end Step

/-- The cell that the thread at the given path is about to access, and whether it writes it. -/
def access : Proc V ε → Path → Option (κ × Bool)
  | read k _, [] => some (k, false)
  | write k _ _, [] => some (k, true)
  | seq p _, path => access p path
  | par p _, .left :: path => access p path
  | par _ q, .right :: path => access q path
  | _, _ => none

/-- Two threads are about to access the same cell, and one of them writes it. -/
def Race (p : Proc V ε) : Prop :=
  ∃ path path' k w w', path ≠ path' ∧ access p path = some (k, w) ∧
    access p path' = some (k, w') ∧ (w || w') = true

section Step

variable [DecidableEq κ] {p q : Proc V ε} {path : Path} {m : Memory V}
variable {s : Proc V ε × Memory V}

/-- Nothing makes no step. -/
@[simp] theorem step_skip : step (skip : Proc V ε) path m = none := by
  cases path <;> rfl

/-- A fault makes no step. -/
@[simp] theorem step_stop {e : ε} : step (stop e : Proc V ε) path m = none := by
  cases path <;> rfl

/-- A read goes on with what is in the cell. -/
theorem step_read {k : κ} {next : V k → Proc V ε} (h : step (read k next) path m = some s) :
    s = (next (m k), m) := by
  cases path with
  | nil => exact (Option.some.inj h).symm
  | cons => cases h

/-- A write goes on with the cell updated. -/
theorem step_write {k : κ} {v : V k} (h : step (write k v p) path m = some s) :
    s = (p, Function.update m k v) := by
  cases path with
  | nil => exact (Option.some.inj h).symm
  | cons => cases h

/-- A sequence goes on with its second part, or makes a step in its first one. -/
theorem step_seq (h : step (seq p q) path m = some s) :
    (p = skip ∧ s = (q, m)) ∨ ∃ p' m', step p path m = some (p', m') ∧ s = (seq p' q, m') := by
  have hinner : ((step p path m).map fun s => (seq s.1 q, s.2)) = some s →
      ∃ p' m', step p path m = some (p', m') ∧ s = (seq p' q, m') := by
    intro hmap
    obtain ⟨⟨p', m'⟩, hp, rfl⟩ := Option.map_eq_some_iff.mp hmap
    exact ⟨p', m', hp, rfl⟩
  cases p with
  | skip =>
    cases path with
    | nil => exact .inl ⟨rfl, (Option.some.inj h).symm⟩
    | cons => cases h
  | stop | read | write | seq | par => exact .inr (hinner h)

/-- A join of two ended parts, or a step of one of the parts. -/
theorem step_par (h : step (par p q) path m = some s) :
    (p = skip ∧ q = skip ∧ s = (skip, m)) ∨
    (∃ path' p' m', step p path' m = some (p', m') ∧ s = (par p' q, m')) ∨
    ∃ path' q' m', step q path' m = some (q', m') ∧ s = (par p q', m') := by
  -- the empty path joins, a longer one goes on in the branch that its head names
  cases path with
  | nil =>
    cases p with
    | skip =>
      cases q with
      | skip => exact .inl ⟨rfl, rfl, (Option.some.inj h).symm⟩
      | stop | read | write | seq | par => cases h
    | stop | read | write | seq | par => cases h
  | cons side path =>
    cases side with
    | left =>
      rw [step] at h
      obtain ⟨⟨p', m'⟩, hp, rfl⟩ := Option.map_eq_some_iff.mp h
      exact .inr (.inl ⟨path, p', m', hp, rfl⟩)
    | right =>
      rw [step] at h
      obtain ⟨⟨q', m'⟩, hq, rfl⟩ := Option.map_eq_some_iff.mp h
      exact .inr (.inr ⟨path, q', m', hq, rfl⟩)

/-- The first of two parts makes the steps. -/
theorem step_seq_left {s : Proc V ε × Memory V} (h : step p path m = some s) :
    step (seq p q) path m = some (seq s.1 q, s.2) := by
  cases p with
  | skip | stop => simp at h
  | read | write | seq | par => simp [step, h]

/-- The left side makes a step. -/
theorem step_par_left {s : Proc V ε × Memory V} (h : step p path m = some s) :
    step (par p q) (.left :: path) m = some (par s.1 q, s.2) := by
  rw [step, h]
  rfl

/-- The right side makes a step. -/
theorem step_par_right {s : Proc V ε × Memory V} (h : step q path m = some s) :
    step (par p q) (.right :: path) m = some (par p s.1, s.2) := by
  rw [step, h]
  rfl

end Step

end Proc

open Proc

/-! ### Footprints -/

/-- The cells that a part of a program may read, and those among them that it may write. -/
@[ext] structure Footprint (κ : Type*) where
  uses : Set κ
  sets : Set κ
  sub : sets ⊆ uses

namespace Footprint

/-- Footprints are ordered by inclusion. -/
instance : PartialOrder (Footprint κ) where
  le A B := A.uses ⊆ B.uses ∧ A.sets ⊆ B.sets
  le_refl _ := ⟨subset_rfl, subset_rfl⟩
  le_trans _ _ _ h h' := ⟨h.1.trans h'.1, h.2.trans h'.2⟩
  le_antisymm _ _ h h' := Footprint.ext (h.1.antisymm h'.1) (h.2.antisymm h'.2)

/-- The least footprint that contains two others. -/
instance : SemilatticeSup (Footprint κ) where
  sup A B := ⟨A.uses ∪ B.uses, A.sets ∪ B.sets, Set.union_subset_union A.sub B.sub⟩
  le_sup_left _ _ := ⟨Set.subset_union_left, Set.subset_union_left⟩
  le_sup_right _ _ := ⟨Set.subset_union_right, Set.subset_union_right⟩
  sup_le _ _ _ h h' := ⟨Set.union_subset h.1 h'.1, Set.union_subset h.2 h'.2⟩

/-- The footprint of no access. -/
instance : OrderBot (Footprint κ) where
  bot := ⟨∅, ∅, subset_rfl⟩
  bot_le _ := ⟨Set.empty_subset _, Set.empty_subset _⟩

/-- Neither writes what the other one uses. -/
structure Independent (A B : Footprint κ) : Prop where
  left : ∀ k ∈ A.sets, k ∉ B.uses
  right : ∀ k ∈ B.sets, k ∉ A.uses

variable {A A' B B' C : Footprint κ}

/-- Independence is symmetric. -/
theorem Independent.symm (h : Independent A B) : Independent B A := ⟨h.right, h.left⟩

/-- Smaller footprints are independent. -/
theorem Independent.mono (h : Independent A' B') (hA : A ≤ A') (hB : B ≤ B') : Independent A B :=
  ⟨fun k hk hk' => h.left k (hA.2 hk) (hB.1 hk'), fun k hk hk' => h.right k (hB.2 hk) (hA.1 hk')⟩

/-- Independent of two is independent of both together. -/
theorem Independent.sup_right (h : Independent A B) (h' : Independent A C) :
    Independent A (B ⊔ C) :=
  ⟨fun k hk hk' => hk'.elim (h.left k hk) (h'.left k hk),
    fun k hk => hk.elim (h.right k) (h'.right k)⟩

/-- Without accesses there is no conflict. -/
theorem independent_bot : Independent A ⊥ :=
  ⟨fun _ _ => id, fun _ hk => hk.elim⟩

end Footprint

open Footprint

/-! ### One thread after the other -/

variable [DecidableEq κ]

/-- `p` ends in the memory `r` after `n` steps when its threads run one after the other, and all of
    it stays in the footprint `F`. -/
inductive Runs : Footprint κ → Proc V ε → Memory V → ℕ → Memory V → Prop
  | skip {F m} : Runs F skip m 0 m
  | read {F k next m n r} : k ∈ F.uses → Runs F (next (m k)) m n r →
      Runs F (read k next) m (n + 1) r
  | write {F k v p m n r} : k ∈ F.sets → Runs F p (Function.update m k v) n r →
      Runs F (write k v p) m (n + 1) r
  | seq {F p q m m₁ n n' r} : Runs F p m n m₁ → Runs F q m₁ n' r → Runs F (seq p q) m (n + n' + 1) r
  | par {F A B p q m m₁ n n' r} : A ≤ F → B ≤ F → Independent A B → Runs A p m n m₁ →
      Runs B q m₁ n' r → Runs F (par p q) m (n + n' + 1) r

section Runs

variable {A B F F' : Footprint κ} {p p' q : Proc V ε} {m m' m₁ r : Memory V} {n : ℕ} {path : Path}

/-- What may not be written is unchanged. -/
theorem Runs.off (h : Runs F p m n r) : ∀ k ∉ F.sets, r k = m k := by
  induction h with
  | skip => exact fun _ _ => rfl
  | read _ _ ih => exact ih
  | write hk _ ih =>
    intro k' hk'
    rw [ih k' hk', Function.update_of_ne (ne_of_mem_of_not_mem hk hk').symm]
  | seq _ _ ih ih' => exact fun k hk => (ih' k hk).trans (ih k hk)
  | par hA hB _ _ _ ih ih' =>
    exact fun k hk => (ih' k fun h => hk (hB.2 h)).trans (ih k fun h => hk (hA.2 h))

/-- A run keeps to every larger footprint. -/
theorem Runs.mono (h : Runs F p m n r) (hF : F ≤ F') : Runs F' p m n r := by
  induction h generalizing F' with
  | skip => exact .skip
  | read hk _ ih => exact .read (hF.1 hk) (ih hF)
  | write hk _ ih => exact .write (hF.2 hk) (ih hF)
  | seq _ _ ih ih' => exact .seq (ih hF) (ih' hF)
  | par hA hB hAB h h' _ _ => exact .par (hA.trans hF) (hB.trans hF) hAB h h'

/-- **Frame rule.**  Only the cells that may be used matter: from a memory that agrees with the first
    one on them, the same run ends in a memory that agrees with the first end on them. -/
theorem Runs.frame (h : Runs F p m n r) (hm : ∀ k ∈ F.uses, m' k = m k) :
    ∃ r', Runs F p m' n r' ∧ ∀ k ∈ F.uses, r' k = r k := by
  induction h generalizing m' with
  | skip => exact ⟨m', .skip, hm⟩
  | read hk _ ih =>
    obtain ⟨r', hrun, hr'⟩ := ih hm
    exact ⟨r', .read hk (by rwa [hm _ hk]), hr'⟩
  | @write F k v p m n r hk _ ih =>
    have hm' : ∀ k' ∈ F.uses, Function.update m' k v k' = Function.update m k v k' := by
      intro k' hk'
      by_cases heq : k' = k
      · subst heq
        rw [Function.update_self, Function.update_self]
      · rw [Function.update_of_ne heq, Function.update_of_ne heq, hm k' hk']
    obtain ⟨r', hrun, hr'⟩ := ih hm'
    exact ⟨r', .write hk hrun, hr'⟩
  | seq _ _ ih ih' =>
    obtain ⟨m₁, hrun, hm₁⟩ := ih hm
    obtain ⟨r', hrun', hr'⟩ := ih' hm₁
    exact ⟨r', .seq hrun hrun', hr'⟩
  | @par F A B p q m m₁ n n' r hA hB hAB h h' ih ih' =>
    obtain ⟨m₁', hrun, hm₁⟩ := ih fun k hk => hm k (hA.1 hk)
    -- the second part finds what the first one has left, or what was there before
    have hB' : ∀ k ∈ B.uses, m₁' k = m₁ k := by
      intro k hk
      by_cases hkA : k ∈ A.uses
      · exact hm₁ k hkA
      · rw [hrun.off k fun h => hkA (A.sub h), h.off k fun h => hkA (A.sub h), hm k (hB.1 hk)]
    obtain ⟨r', hrun', hr'⟩ := ih' hB'
    refine ⟨r', .par hA hB hAB hrun hrun', fun k hk => ?_⟩
    by_cases hkB : k ∈ B.uses
    · exact hr' k hkB
    · rw [hrun'.off k fun h => hkB (B.sub h), h'.off k fun h => hkB (B.sub h)]
      by_cases hkA : k ∈ A.uses
      · exact hm₁ k hkA
      · rw [hrun.off k fun h => hkA (A.sub h), h.off k fun h => hkA (A.sub h), hm k hk]

/-- **Two independent runs change places**: a run from a memory in which the other one has already
    made a step. -/
theorem Runs.after (h : Runs A p m n m₁) (hAB : Independent A B) (hm : ∀ k ∉ B.sets, m' k = m k) :
    ∃ m₁', Runs A p m' n m₁' ∧ (∀ k ∈ A.sets, m₁' k = m₁ k) ∧ ∀ k ∉ A.sets, m₁' k = m' k := by
  have hagree : ∀ k ∈ A.uses, m' k = m k := fun k hk => hm k fun hB => hAB.right k hB hk
  obtain ⟨m₁', hrun, hm₁⟩ := h.frame hagree
  exact ⟨m₁', hrun, fun k hk => hm₁ k (A.sub hk), hrun.off⟩

/-- **Whichever thread moves**, the rest runs to the same end, one step shorter, and the step writes
    only what the program may write. -/
theorem Runs.step {s : Proc V ε × Memory V} (h : Runs F p m n r)
    (hstep : Proc.step p path m = some s) :
    (∃ n', n = n' + 1 ∧ Runs F s.1 s.2 n' r) ∧ ∀ k ∉ F.sets, s.2 k = m k := by
  induction p generalizing F path m n r s with
  | skip => simp at hstep
  | stop e => cases h
  | read k next =>
    obtain rfl := step_read hstep
    cases h with
    | read _ h => exact ⟨⟨_, rfl, h⟩, fun _ _ => rfl⟩
  | write k v p =>
    obtain rfl := step_write hstep
    cases h with
    | write hk h =>
      exact ⟨⟨_, rfl, h⟩, fun k' hk' => Function.update_of_ne (ne_of_mem_of_not_mem hk hk').symm _ _⟩
  | seq p q ihp =>
    cases h with
    | @seq _ _ _ _ m₁ n n' _ hp hq =>
      obtain ⟨rfl, rfl⟩ | ⟨p', m', hp', rfl⟩ := step_seq hstep
      · cases hp
        exact ⟨⟨n', by omega, hq⟩, fun _ _ => rfl⟩
      · obtain ⟨⟨n₁, rfl, hrun⟩, hoff⟩ := ihp hp hp'
        exact ⟨⟨_, by omega, .seq hrun hq⟩, hoff⟩
  | par p q ihp ihq =>
    cases h with
    | @par _ A B _ _ _ m₁ n n' _ hA hB hAB hp hq =>
      obtain ⟨rfl, rfl, rfl⟩ | ⟨_, p', m', hp', rfl⟩ | ⟨_, q', m', hq', rfl⟩ := step_par hstep
      · cases hp
        cases hq
        exact ⟨⟨0, rfl, .skip⟩, fun _ _ => rfl⟩
      · obtain ⟨⟨n₁, rfl, hrun⟩, hoff⟩ := ihp hp hp'
        exact ⟨⟨_, by omega, .par hA hB hAB hrun hq⟩, fun k hk => hoff k fun h => hk (hA.2 h)⟩
      · -- the second part runs from `m` as it runs after the first one, which then follows its step
        obtain ⟨r₂, hq₂, hr₂, -⟩ := hq.after hAB.symm fun k hk => (hp.off k hk).symm
        obtain ⟨⟨n₁, rfl, hrun⟩, hoff⟩ := ihq hq₂ hq'
        obtain ⟨m₂, hp₂, hin, hout⟩ := hp.after hAB hoff
        obtain ⟨r₃, hq₃, hr₃, hr₃'⟩ := hrun.after hAB.symm hout
        have hr : r₃ = r := by
          funext k
          by_cases hkB : k ∈ B.sets
          · rw [hr₃ k hkB, hr₂ k hkB]
          · rw [hr₃' k hkB, hq.off k hkB]
            by_cases hkA : k ∈ A.sets
            · exact hin k hkA
            · rw [hout k hkA, hoff k hkB, hp.off k hkA]
        subst hr
        exact ⟨⟨_, by omega, .par hA hB hAB hp₂ hq₃⟩, fun k hk => hoff k fun h => hk (hB.2 h)⟩

/-- A program that still runs can move. -/
theorem Runs.moves (h : Runs F p m n r) :
    (p = .skip ∧ m = r) ∨ ∃ path s, Proc.step p path m = some s := by
  -- a part that cannot move any more is `skip`, and then the part behind it or the join moves
  induction p generalizing F m n r with
  | skip =>
    cases h
    exact .inl ⟨rfl, rfl⟩
  | stop e => cases h
  | read k next => exact .inr ⟨[], _, rfl⟩
  | write k v p => exact .inr ⟨[], _, rfl⟩
  | seq p q ihp =>
    cases h with
    | seq hp hq =>
      obtain ⟨rfl, -⟩ | ⟨path, s, hs⟩ := ihp hp
      · exact .inr ⟨[], _, rfl⟩
      · exact .inr ⟨path, _, step_seq_left hs⟩
  | par p q ihp ihq =>
    cases h with
    | par hA hB hAB hp hq =>
      obtain ⟨rfl, rfl⟩ | ⟨path, s, hs⟩ := ihp hp
      · obtain ⟨rfl, -⟩ | ⟨path, s, hs⟩ := ihq hq
        · exact .inr ⟨[], _, rfl⟩
        · exact .inr ⟨.right :: path, _, step_par_right hs⟩
      · exact .inr ⟨.left :: path, _, step_par_left hs⟩

/-- What the threads of a program that runs are about to access. -/
theorem Runs.access (h : Runs F p m n r) {k : κ} {w : Bool} (hk : Proc.access p path = some (k, w)) :
    k ∈ F.uses ∧ (w = true → k ∈ F.sets) := by
  induction p generalizing F path m n r with
  | skip => cases path <;> cases hk
  | stop e => cases h
  | read k' next =>
    cases h with
    | read hk' _ =>
      cases path with
      | nil =>
        cases hk
        exact ⟨hk', by simp⟩
      | cons => cases hk
  | write k' v p =>
    cases h with
    | write hk' _ =>
      cases path with
      | nil =>
        cases hk
        exact ⟨F.sub hk', fun _ => hk'⟩
      | cons => cases hk
  | seq p q ihp =>
    cases h with
    | seq hp _ => exact ihp hp hk
  -- both branches stay inside their own footprints, which the fork only puts together
  | par p q ihp ihq =>
    cases h with
    | par hA hB hAB hp hq =>
      cases path with
      | nil => cases hk
      | cons side path =>
        cases side with
        | left => exact (ihp hp hk).imp (hA.1 ·) fun h hw => hA.2 (h hw)
        | right => exact (ihq hq hk).imp (hB.1 ·) fun h hw => hB.2 (h hw)

/-- **No race**: two threads of a program that runs are never about to access one cell, one of them
    to write it. -/
theorem Runs.not_race (h : Runs F p m n r) : ¬ Race p := by
  rintro ⟨path, path', k, w, w', hne, hk, hk', hw⟩
  induction p generalizing F path path' m n r with
  | skip => cases path <;> cases hk
  | stop e => cases h
  | read => cases path with
    | nil => cases path' with
      | nil => exact hne rfl
      | cons => cases hk'
    | cons => cases hk
  | write => cases path with
    | nil => cases path' with
      | nil => exact hne rfl
      | cons => cases hk'
    | cons => cases hk
  | seq p q ihp =>
    cases h with
    | seq hp _ => exact ihp hp path path' hne hk hk'
  | par p q ihp ihq =>
    cases h with
    | @par _ A B _ _ _ _ _ _ _ _ _ hAB hp hq =>
      -- two accesses in different branches: the footprints are independent there
      have hcross {path path' : Path} {w w' : Bool} (hp' : Proc.access p path = some (k, w))
          (hq' : Proc.access q path' = some (k, w')) (hw : (w || w') = true) : False := by
        have hA := hp.access hp'
        have hB := hq.access hq'
        rcases Bool.or_eq_true_iff.mp hw with hw | hw
        · exact hAB.left k (hA.2 hw) hB.1
        · exact hAB.right k (hB.2 hw) hA.1
      cases path with
      | nil => cases hk
      | cons side path =>
        cases path' with
        | nil => cases hk'
        | cons side' path' =>
          have hne' : side = side' → path ≠ path' := fun h h' => hne (by rw [h, h'])
          -- the same branch is an induction hypothesis, different ones cannot meet
          cases side <;> cases side'
          · exact ihp hp path path' (hne' rfl) hk hk'
          · exact hcross hk hk' hw
          · exact hcross hk' hk (by rwa [Bool.or_comm])
          · exact ihq hq path path' (hne' rfl) hk hk'

/-! ### All interleavings -/

/-- Run one thread after the other, `p` ends in the memory `r` and stays in the footprint `F`. -/
def Settles (F : Footprint κ) (p : Proc V ε) (m r : Memory V) : Prop := ∃ n, Runs F p m n r

/-- What is known of a program after the steps `paths`, if it ends in `r` after `n` steps: its
    threads stay in `F`, do not race and are never stuck, and its end is still the same. -/
structure OnCourse (F : Footprint κ) (r : Memory V) (n : ℕ) (paths : List Path)
    (s : Proc V ε × Memory V) : Prop where
  stays : ∀ path k w, Proc.access s.1 path = some (k, w) → k ∈ F.uses ∧ (w = true → k ∈ F.sets)
  noRace : ¬ Race s.1
  ends : ∃ rest, rest.length + paths.length = n ∧ runFrom Proc.next s rest = some (.skip, r)
  last : Halted Proc.next s → s = (.skip, r)

/-- **Along any interleaving**, what is left of the run ends in the same memory. -/
theorem Runs.runFrom {paths : List Path} {s t : Proc V ε × Memory V} (h : Runs F s.1 s.2 n r)
    (hrun : runFrom Proc.next s paths = some t) :
    ∃ n', n = n' + paths.length ∧ Runs F t.1 t.2 n' r := by
  induction paths generalizing s n with
  | nil =>
    cases hrun
    exact ⟨n, rfl, h⟩
  | cons path paths ih =>
    obtain ⟨s₁, hs₁, hrest⟩ := runFrom_cons_eq_some.mp hrun
    obtain ⟨⟨n₁, rfl, h₁⟩, -⟩ := h.step hs₁
    obtain ⟨n₂, rfl, h₂⟩ := ih h₁ hrest
    exact ⟨n₂, by rw [List.length_cons, Nat.add_assoc], h₂⟩

/-- Some run goes to the end, in as many steps as are left. -/
theorem Runs.toEnd {s : Proc V ε × Memory V} (h : Runs F s.1 s.2 n r) :
    ∃ rest, rest.length = n ∧ Transition.runFrom Proc.next s rest = some (.skip, r) := by
  induction n generalizing s with
  | zero =>
    obtain ⟨hp, hm⟩ | ⟨path, s₁, hs₁⟩ := h.moves
    · exact ⟨[], rfl, congrArg some (Prod.ext hp hm)⟩
    · obtain ⟨⟨n₁, hn₁, -⟩, -⟩ := h.step hs₁
      omega
  | succ n ih =>
    obtain ⟨hp, -⟩ | ⟨path, s₁, hs₁⟩ := h.moves
    · rw [hp] at h
      cases h
    · obtain ⟨⟨n₁, hn₁, h₁⟩, -⟩ := h.step hs₁
      obtain rfl := Nat.succ.inj hn₁
      obtain ⟨rest, rfl, hrest⟩ := ih h₁
      exact ⟨path :: rest, rfl, runFrom_cons_eq_some.mpr ⟨s₁, hs₁, hrest⟩⟩

/-- **All interleavings are alike.**  A program that settles when its threads run one after the
    other, with independent footprints for threads that may run at the same time, takes the same
    number of steps to the same memory in every interleaving, without a race, and is never stuck. -/
theorem Settles.every_run (h : Settles F p m r) :
    ∃ n, ∀ paths s, Transition.runFrom Proc.next (p, m) paths = some s → OnCourse F r n paths s := by
  obtain ⟨n, h⟩ := h
  refine ⟨n, fun paths s hrun => ?_⟩
  obtain ⟨n', rfl, hs⟩ := Runs.runFrom (s := (p, m)) h hrun
  obtain ⟨rest, rfl, hrest⟩ := hs.toEnd
  exact {
    stays := fun path k w hk => hs.access hk
    noRace := hs.not_race
    ends := ⟨rest, rfl, hrest⟩
    last := fun hlast => hlast.eq_of_reachable ⟨rest, hrest⟩ }

end Runs

end SystemProgramming.ForkJoin
