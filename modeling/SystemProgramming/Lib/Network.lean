import Mathlib.Logic.Function.Basic
import SystemProgramming.Lib.Confluence

namespace SystemProgramming.Network

open Transition

/-!
# Networks of deterministic processes

Processes that communicate over FIFO channels, wait for flags that are only ever raised, and append
to files.  What a process does next depends on its local state alone, and there is one thing only.

* `Action` / `Shared` / `State` — the possible actions, what the processes share, and the whole;
* `step program` — the labelled transition system whose events are the processes;
* `Stable` — a property of one local state that is never lost;
* `commuteAt` — **processes commute** unless they are about to send to the same channel, receive
  from the same channel, or write to the same file.
-/

/-- What a process does next, and the local state after it; a receiver gets the message. -/
inductive Action (C F G M E L : Type*)
  | send (c : C) (m : M) (l : L)
  | recv (c : C) (k : M → L)
  | raise (f : F) (l : L)
  | await (f : F) (l : L)
  | write (g : G) (e : E) (l : L)
  | halt

/-- What the processes share. -/
structure Shared (C F G M E : Type*) where
  chan : C → List M
  flag : F → Bool
  file : G → List E

/-- The local states of all processes, and what they share. -/
structure State (P C F G M E L : Type*) extends Shared C F G M E where
  loc : P → L

variable {P C F G M E L : Type*} [DecidableEq P] [DecidableEq C] [DecidableEq F] [DecidableEq G]

/-- The effect of an action, when it is possible. -/
def Action.effect (a : Action C F G M E L) (x : Shared C F G M E) :
    Option (Shared C F G M E × L) :=
  match a with
  | .send c m l => some ({ x with chan := Function.update x.chan c (x.chan c ++ [m]) }, l)
  | .recv c k =>
    match x.chan c with
    | [] => none
    | m :: ms => some ({ x with chan := Function.update x.chan c ms }, k m)
  | .raise f l => some ({ x with flag := Function.update x.flag f true }, l)
  | .await f l => if x.flag f then some (x, l) else none
  | .write g e l => some ({ x with file := Function.update x.file g (x.file g ++ [e]) }, l)
  | .halt => none

/-- One step of process `p`. -/
def step (program : P → L → Action C F G M E L) (s : State P C F G M E L) (p : P) :
    Option (State P C F G M E L) :=
  ((program p (s.loc p)).effect s.toShared).map fun r =>
    { toShared := r.1, loc := Function.update s.loc p r.2 }

/-- The local states that an action can leave behind. -/
def Action.LeadsTo (a : Action C F G M E L) (l : L) : Prop :=
  match a with
  | .send _ _ l' | .raise _ l' | .await _ l' | .write _ _ l' => l = l'
  | .recv _ k => ∃ m, l = k m
  | .halt => False

/-- The order of two actions matters. -/
def Action.Conflict : Action C F G M E L → Action C F G M E L → Prop
  | .send c _ _, .send c' _ _ => c = c'
  | .recv c _, .recv c' _ => c = c'
  | .write g _ _, .write g' _ _ => g = g'
  | _, _ => False

omit [DecidableEq C] [DecidableEq F] [DecidableEq G] in
/-- The three kinds of conflicts. -/
theorem Action.Conflict.cases {a b : Action C F G M E L} (h : a.Conflict b) :
    (∃ c m l m' l', a = .send c m l ∧ b = .send c m' l') ∨
    (∃ c k k', a = .recv c k ∧ b = .recv c k') ∨
    ∃ g e l e' l', a = .write g e l ∧ b = .write g e' l' := by
  -- the other pairs of actions use different parts of the shared state
  cases a with
  | send c m l =>
    cases b with
    | send c' m' l' =>
      obtain rfl : c = c' := h
      exact .inl ⟨_, _, _, _, _, rfl, rfl⟩
    | _ => exact h.elim
  | recv c k =>
    cases b with
    | recv c' k' =>
      obtain rfl : c = c' := h
      exact .inr (.inl ⟨_, _, _, rfl, rfl⟩)
    | _ => exact h.elim
  | write g e l =>
    cases b with
    | write g' e' l' =>
      obtain rfl : g = g' := h
      exact .inr (.inr ⟨_, _, _, _, _, rfl, rfl⟩)
    | _ => exact h.elim
  | _ => exact h.elim

section Effect

variable {x y : Shared C F G M E} {l : L}

/-- A message is sent at once. -/
@[simp] theorem effect_send {c : C} {m : M} {l : L} : (Action.send c m l).effect x =
    some ({ x with chan := Function.update x.chan c (x.chan c ++ [m]) }, l) := rfl

/-- A flag is raised at once. -/
@[simp] theorem effect_raise {f : F} {l : L} : (Action.raise f l).effect x =
    some ({ x with flag := Function.update x.flag f true }, l) := rfl

/-- A line is written at once. -/
@[simp] theorem effect_write {g : G} {e : E} {l : L} : (Action.write g e l).effect x =
    some ({ x with file := Function.update x.file g (x.file g ++ [e]) }, l) := rfl

/-- A message is received when there is one. -/
theorem effect_recv {c : C} {k : M → L} : (Action.recv c k).effect x = some (y, l) ↔
    ∃ m ms, x.chan c = m :: ms ∧ y = { x with chan := Function.update x.chan c ms } ∧ l = k m := by
  cases h : x.chan c with
  | nil => simp [Action.effect, h]
  | cons m ms =>
    simp only [Action.effect, h, Option.some.injEq, Prod.mk.injEq]
    constructor
    · rintro ⟨rfl, rfl⟩
      exact ⟨m, ms, rfl, rfl, rfl⟩
    · rintro ⟨m', ms', hcons, rfl, rfl⟩
      cases hcons
      exact ⟨rfl, rfl⟩

/-- A flag is waited for. -/
theorem effect_await {f : F} {l' : L} : (Action.await f l').effect x = some (y, l) ↔
    x.flag f = true ∧ y = x ∧ l = l' := by
  cases h : x.flag f with
  | false => simp [Action.effect, h]
  | true =>
    simp only [Action.effect, h, if_true, Option.some.injEq, Prod.mk.injEq, true_and]
    exact and_congr eq_comm eq_comm

/-- An action leaves one of its local states behind. -/
theorem Action.leadsTo_of_effect {a : Action C F G M E L} (h : a.effect x = some (y, l)) :
    a.LeadsTo l := by
  cases a with
  | send c m l' => cases h; rfl
  | recv c k =>
    obtain ⟨m, ms, -, -, rfl⟩ := effect_recv.mp h
    exact ⟨m, rfl⟩
  | raise f l' => cases h; rfl
  | await f l' =>
    obtain ⟨-, -, rfl⟩ := effect_await.mp h
    rfl
  | write g e l' => cases h; rfl
  | halt => cases h

/-- Files change by `write` alone. -/
theorem effect_file {a : Action C F G M E L} (h : a.effect x = some (y, l)) :
    y.file = x.file ∨ ∃ g e, a = .write g e l ∧
      y.file = Function.update x.file g (x.file g ++ [e]) := by
  cases a with
  -- `write` is the one action that touches a log file
  | write g e l' =>
    cases h
    exact .inr ⟨g, e, rfl, rfl⟩
  | send c m l' | raise f l' =>
    cases h
    exact .inl rfl
  | recv c k =>
    obtain ⟨m, ms, -, rfl, rfl⟩ := effect_recv.mp h
    exact .inl rfl
  | await f l' =>
    obtain ⟨-, rfl, rfl⟩ := effect_await.mp h
    exact .inl rfl
  | halt => cases h

/-- What an action appends to a file. -/
def Action.written (a : Action C F G M E L) (g : G) : List E :=
  match a with
  | .write g' e _ => if g' = g then [e] else []
  | _ => []

/-- A file grows by what the action writes to it. -/
theorem effect_written {a : Action C F G M E L} (h : a.effect x = some (y, l)) (g : G) :
    y.file g = x.file g ++ a.written g := by
  rcases effect_file h with heq | ⟨g', e, rfl, heq⟩
  · cases a with
    | write g' e l' =>
      cases h
      by_cases hg : g' = g
      · subst hg
        simp [Action.written]
      · simp [Action.written, hg, Function.update_of_ne (Ne.symm hg)]
    | _ => simp [heq, Action.written]
  · rw [heq]
    by_cases hg : g' = g
    · subst hg
      simp [Action.written]
    · simp [Action.written, hg, Function.update_of_ne (Ne.symm hg)]

end Effect

/-! ### Local properties -/

section Local

variable {program : P → L → Action C F G M E L} {s s' : State P C F G M E L} {p q : P}

/-- **Inversion** of a step. -/
theorem step_eq_some : step program s p = some s' ↔
    ∃ x l, (program p (s.loc p)).effect s.toShared = some (x, l) ∧
      s' = { toShared := x, loc := Function.update s.loc p l } := by
  rw [step, Option.map_eq_some_iff]
  constructor
  · rintro ⟨⟨x, l⟩, hx, rfl⟩
    exact ⟨x, l, hx, rfl⟩
  · rintro ⟨x, l, hx, rfl⟩
    exact ⟨⟨x, l⟩, hx, rfl⟩

/-- A property of the local state of `p` that no action of `p` destroys. -/
def Stable (program : P → L → Action C F G M E L) (p : P) (φ : L → Prop) : Prop :=
  ∀ l l', φ l → (program p l).LeadsTo l' → φ l'

/-- A stable property survives a step of any process: other processes do not change the local
    state. -/
theorem Stable.step {φ : L → Prop} (h : Stable program p φ)
    (hs : Network.step program s q = some s') (hφ : φ (s.loc p)) : φ (s'.loc p) := by
  obtain ⟨x, l, hx, rfl⟩ := step_eq_some.mp hs
  by_cases hpq : p = q
  · subst hpq
    simp only [Function.update_self]
    exact h _ _ hφ (Action.leadsTo_of_effect hx)
  · simp only [Function.update_of_ne hpq]
    exact hφ

/-- And so it survives a run. -/
theorem Stable.reachable {φ : L → Prop} (h : Stable program p φ)
    (hs : Reachable (Network.step program) s s') (hφ : φ (s.loc p)) : φ (s'.loc p) :=
  hs.invariant (I := fun s => φ (s.loc p)) (fun _ _ _ hφ hstep => h.step hstep hφ) hφ

end Local

/-- The two effects can be had in either order. -/
def Action.Commute (a b : Action C F G M E L) : Prop :=
  ∀ x y z l l', a.effect x = some (y, l) → b.effect x = some (z, l') →
    ∃ w, b.effect y = some (w, l') ∧ a.effect z = some (w, l)

/-- To commute is symmetric. -/
theorem Action.Commute.symm {a b : Action C F G M E L} (h : a.Commute b) : b.Commute a := by
  intro x y z l l' hb ha
  obtain ⟨w, hw, hw'⟩ := h x z y l' l ha hb
  exact ⟨w, hw', hw⟩

variable {a b : Action C F G M E L}

/-- A send commutes with what does not send to the same channel: a receiver takes from the other
    end. -/
theorem commute_send {c : C} {m : M} {l : L} (h : ¬ (Action.send c m l).Conflict b) :
    (Action.send c m l).Commute b := by
  intro x y z l₁ l₂ ha hb
  cases ha
  cases b with
  | halt => cases hb
  | send c' m' l' =>
    cases hb
    have hne : c ≠ c' := h
    refine ⟨_, rfl, ?_⟩
    simp [hne, hne.symm, Function.update_comm hne]
  | recv c' k =>
    obtain ⟨m', ms, hcons, rfl, rfl⟩ := effect_recv.mp hb
    by_cases hne : c = c'
    · -- the message is appended behind the one that is received
      subst hne
      refine ⟨{ x with chan := Function.update x.chan c (ms ++ [m]) }, ?_, ?_⟩
      · exact effect_recv.mpr ⟨m', ms ++ [m], by simp [hcons], by simp, rfl⟩
      · simp
    · refine ⟨{ x with
        chan := Function.update (Function.update x.chan c (x.chan c ++ [m])) c' ms }, ?_, ?_⟩
      · exact effect_recv.mpr ⟨m', ms, by simp [Ne.symm hne, hcons], rfl, rfl⟩
      · simp [hne, Function.update_comm (Ne.symm hne)]
  | raise f l' => cases hb; exact ⟨_, rfl, rfl⟩
  | await f l' =>
    obtain ⟨hf, rfl, rfl⟩ := effect_await.mp hb
    exact ⟨_, effect_await.mpr ⟨hf, rfl, rfl⟩, rfl⟩
  | write g e l' => cases hb; exact ⟨_, rfl, rfl⟩

/-- A receive commutes with what does not receive from the same channel. -/
theorem commute_recv {c : C} {k : M → L}
    (h : ¬ (Action.recv c k : Action C F G M E L).Conflict b) :
    (Action.recv c k).Commute b := by
  cases b with
  | send c' m l =>
    exact (commute_send (b := .recv c k) (by simp [Action.Conflict])).symm
  | halt =>
    intro x y z l₁ l₂ _ hb
    cases hb
  | recv c' k' =>
    intro x y z l₁ l₂ ha hb
    -- two reads of different channels
    have hne : c ≠ c' := h
    obtain ⟨m, ms, hcons, rfl, rfl⟩ := effect_recv.mp ha
    obtain ⟨m', ms', hcons', rfl, rfl⟩ := effect_recv.mp hb
    refine ⟨{ x with chan := Function.update (Function.update x.chan c ms) c' ms' },
      effect_recv.mpr ⟨m', ms', by simp [hne.symm, hcons'], rfl, rfl⟩,
      effect_recv.mpr ⟨m, ms, by simp [hne, hcons], ?_, rfl⟩⟩
    rw [Function.update_comm hne]
  | raise f l =>
    intro x y z l₁ l₂ ha hb
    obtain ⟨m, ms, hcons, rfl, rfl⟩ := effect_recv.mp ha
    cases hb
    exact ⟨_, rfl, effect_recv.mpr ⟨m, ms, hcons, rfl, rfl⟩⟩
  | await f l =>
    intro x y z l₁ l₂ ha hb
    obtain ⟨m, ms, hcons, rfl, rfl⟩ := effect_recv.mp ha
    obtain ⟨hf, rfl, rfl⟩ := effect_await.mp hb
    exact ⟨_, effect_await.mpr ⟨hf, rfl, rfl⟩, effect_recv.mpr ⟨m, ms, hcons, rfl, rfl⟩⟩
  | write g e l =>
    intro x y z l₁ l₂ ha hb
    obtain ⟨m, ms, hcons, rfl, rfl⟩ := effect_recv.mp ha
    cases hb
    exact ⟨_, rfl, effect_recv.mpr ⟨m, ms, hcons, rfl, rfl⟩⟩

/-- To raise a flag commutes with everything: nobody waits for a flag that is down to be so. -/
theorem commute_raise {f : F} {l : L} : (Action.raise f l : Action C F G M E L).Commute b := by
  cases b with
  | send c m l' => exact (commute_send (b := .raise f l) (by simp [Action.Conflict])).symm
  | recv c k => exact (commute_recv (b := .raise f l) (by simp [Action.Conflict])).symm
  | halt =>
    intro x y z l₁ l₂ _ hb
    cases hb
  | raise f' l' =>
    intro x y z l₁ l₂ ha hb
    cases ha
    cases hb
    refine ⟨_, rfl, ?_⟩
    -- raising a flag twice is raising it once
    by_cases hne : f = f'
    · subst hne
      rfl
    · simp [Function.update_comm hne]
  | await f' l' =>
    intro x y z l₁ l₂ ha hb
    cases ha
    obtain ⟨hf, rfl, rfl⟩ := effect_await.mp hb
    refine ⟨_, effect_await.mpr ⟨?_, rfl, rfl⟩, rfl⟩
    -- a flag that is up stays up
    by_cases hne : f' = f
    · subst hne
      simp
    · simp [hne, hf]
  | write g e l' =>
    intro x y z l₁ l₂ ha hb
    cases ha
    cases hb
    exact ⟨_, rfl, rfl⟩

/-- Actions without a conflict have their effects in either order. -/
theorem Action.commute_of_not_conflict (h : ¬ a.Conflict b) : a.Commute b := by
  cases a with
  | send c m l => exact commute_send h
  | recv c k => exact commute_recv h
  | raise f l => exact commute_raise
  | halt =>
    intro x y z l₁ l₂ ha _
    cases ha
  -- `await` writes nothing, so only the flag that it waits for matters
  | await f l =>
    cases b with
    | send c m l' => exact (commute_send (b := .await f l) (by simp [Action.Conflict])).symm
    | recv c k => exact (commute_recv (b := .await f l) (by simp [Action.Conflict])).symm
    | raise f' l' => exact commute_raise.symm
    | halt =>
      intro x y z l₁ l₂ _ hb
      cases hb
    | await f' l' =>
      intro x y z l₁ l₂ ha hb
      obtain ⟨hf, rfl, rfl⟩ := effect_await.mp ha
      obtain ⟨hf', rfl, rfl⟩ := effect_await.mp hb
      exact ⟨_, effect_await.mpr ⟨hf', rfl, rfl⟩, effect_await.mpr ⟨hf, rfl, rfl⟩⟩
    | write g e l' =>
      intro x y z l₁ l₂ ha hb
      obtain ⟨hf, rfl, rfl⟩ := effect_await.mp ha
      cases hb
      exact ⟨_, rfl, effect_await.mpr ⟨hf, rfl, rfl⟩⟩
  | write g e l =>
    cases b with
    | send c m l' => exact (commute_send (b := .write g e l) (by simp [Action.Conflict])).symm
    | recv c k => exact (commute_recv (b := .write g e l) (by simp [Action.Conflict])).symm
    | raise f' l' => exact commute_raise.symm
    | halt =>
      intro x y z l₁ l₂ _ hb
      cases hb
    | await f l' =>
      intro x y z l₁ l₂ ha hb
      cases ha
      obtain ⟨hf, rfl, rfl⟩ := effect_await.mp hb
      exact ⟨_, effect_await.mpr ⟨hf, rfl, rfl⟩, rfl⟩
    | write g' e' l' =>
      intro x y z l₁ l₂ ha hb
      cases ha
      cases hb
      -- two writes to different files commute, which is all that is left
      have hne : g ≠ g' := h
      refine ⟨_, rfl, ?_⟩
      simp [hne, hne.symm, Function.update_comm hne]

/-- **Processes commute** where no two of them have conflicting actions. -/
theorem commuteAt {program : P → L → Action C F G M E L} {s : State P C F G M E L}
    (h : ∀ p q, p ≠ q → ¬ (program p (s.loc p)).Conflict (program q (s.loc q))) :
    CommuteAt (step program) s := by
  intro p q s₁ s₂ hpq hp hq
  obtain ⟨y, l, hy, rfl⟩ := step_eq_some.mp hp
  obtain ⟨z, l', hz, rfl⟩ := step_eq_some.mp hq
  obtain ⟨w, hw, hw'⟩ := Action.commute_of_not_conflict (h p q hpq) _ y z l l' hy hz
  refine ⟨{ toShared := w, loc := Function.update (Function.update s.loc p l) q l' }, ?_, ?_⟩
  · simp [step, Function.update_of_ne hpq.symm, hw]
  · simp [step, Function.update_of_ne hpq, hw', Function.update_comm hpq]

end SystemProgramming.Network
