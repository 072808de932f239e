import SystemProgramming.Lib.Network

namespace SystemProgramming.Network

open Transition

/-!
# Runs of a network, put together action by action

Files never hold a process up.  A `Config` is a state without its files, and `Runs program v v'`
says that some run leads from every state with the configuration `v` to one with `v'`.

* `Runs.send`, `Runs.recv`, `Runs.raise`, `Runs.await`, `Runs.write` — a run from the back: one
  action of one process, and the rest;
* `Runs.stable` — what a process cannot lose is kept;
* `Runs.schedule` — tasks that are run in an order in which each of them is ready.
-/

variable {P C F G M E L : Type*} [DecidableEq P] [DecidableEq C] [DecidableEq F] [DecidableEq G]

/-- What decides how the processes can go on. -/
@[ext] structure Config (P C F M L : Type*) where
  chan : C → List M
  flag : F → Bool
  loc : P → L

/-- A state without its files. -/
def State.config (s : State P C F G M E L) : Config P C F M L := ⟨s.chan, s.flag, s.loc⟩

variable {program : P → L → Action C F G M E L} {v v' v'' : Config P C F M L}
variable {chan : C → List M} {flag : F → Bool} {loc : P → L}

/-- Some run leads from every state with the configuration `v` to one with `v'`. -/
def Runs (program : P → L → Action C F G M E L) (v v' : Config P C F M L) : Prop :=
  ∀ s, s.config = v → ∃ s', Reachable (step program) s s' ∧ s'.config = v'

theorem Runs.refl (v : Config P C F M L) : Runs program v v := fun s hs => ⟨s, .refl s, hs⟩

theorem Runs.trans (h : Runs program v v') (h' : Runs program v' v'') : Runs program v v'' := by
  intro s hs
  obtain ⟨s', hrun, hs'⟩ := h s hs
  obtain ⟨s'', hrun', hs''⟩ := h' s' hs'
  exact ⟨s'', hrun.trans hrun', hs''⟩

/-- The end of a chain of actions, up to a computation. -/
theorem Runs.done (h : v = v') : Runs program v v' := h ▸ .refl v

/-- One action of `p`, from its effect on what is shared. -/
theorem Runs.of_effect (p : P) {l : L}
    (h : ∀ s : State P C F G M E L, s.config = v →
      ∃ x, (program p (v.loc p)).effect s.toShared = some (x, l) ∧
        v' = ⟨x.chan, x.flag, Function.update v.loc p l⟩) : Runs program v v' := by
  intro s hs
  obtain ⟨x, hx, rfl⟩ := h s hs
  subst hs
  refine ⟨{ toShared := x, loc := Function.update s.loc p l },
    (Reachable.refl s).tail (e := p) ?_, rfl⟩
  rw [step, show program p (s.loc p) = program p (s.config.loc p) from rfl, hx]
  rfl

theorem Runs.send (p : P) {c : C} {m : M} {l : L} (h : program p (loc p) = .send c m l)
    (h' : Runs program ⟨Function.update chan c (chan c ++ [m]), flag, Function.update loc p l⟩ v') :
    Runs program ⟨chan, flag, loc⟩ v' := by
  refine .trans (.of_effect p (l := l) fun s hs => ⟨_, by rw [h]; rfl, ?_⟩) h'
  cases hs
  rfl

theorem Runs.recv (p : P) {c : C} {k : M → L} {m : M} {ms : List M}
    (h : program p (loc p) = .recv c k) (hc : chan c = m :: ms)
    (h' : Runs program ⟨Function.update chan c ms, flag, Function.update loc p (k m)⟩ v') :
    Runs program ⟨chan, flag, loc⟩ v' := by
  refine .trans (.of_effect p (l := k m) fun s hs => ?_) h'
  cases hs
  exact ⟨_, by rw [h]; exact effect_recv.mpr ⟨m, ms, hc, rfl, rfl⟩, rfl⟩

theorem Runs.raise (p : P) {f : F} {l : L} (h : program p (loc p) = .raise f l)
    (h' : Runs program ⟨chan, Function.update flag f true, Function.update loc p l⟩ v') :
    Runs program ⟨chan, flag, loc⟩ v' := by
  refine .trans (.of_effect p (l := l) fun s hs => ⟨_, by rw [h]; rfl, ?_⟩) h'
  cases hs
  rfl

theorem Runs.await (p : P) {f : F} {l : L} (h : program p (loc p) = .await f l)
    (hf : flag f = true) (h' : Runs program ⟨chan, flag, Function.update loc p l⟩ v') :
    Runs program ⟨chan, flag, loc⟩ v' := by
  refine .trans (.of_effect p (l := l) fun s hs => ?_) h'
  cases hs
  exact ⟨_, by rw [h]; exact effect_await.mpr ⟨hf, rfl, rfl⟩, rfl⟩

theorem Runs.write (p : P) {g : G} {e : E} {l : L} (h : program p (loc p) = .write g e l)
    (h' : Runs program ⟨chan, flag, Function.update loc p l⟩ v') :
    Runs program ⟨chan, flag, loc⟩ v' := by
  refine .trans (.of_effect p (l := l) fun s hs => ⟨_, by rw [h]; rfl, ?_⟩) h'
  cases hs
  rfl

/-- What a process cannot lose is kept. -/
theorem Runs.stable {p : P} {φ : L → Prop} (hφ : Stable program p φ) (h : Runs program v v')
    (hv : φ (v.loc p)) : φ (v'.loc p) := by
  obtain ⟨s', hrun, rfl⟩ :=
    h { chan := v.chan, flag := v.flag, loc := v.loc, file := fun _ => [] } rfl
  exact hφ.reachable hrun hv

/-! ### Schedules -/

/-- Tasks, the last one first, each of them ready after those before it. -/
def Scheduled {T : Type*} (ready : List T → T → Prop) : List T → Prop
  | [] => True
  | t :: done => ready done t ∧ Scheduled ready done

instance Scheduled.decidable {T : Type*} {ready : List T → T → Prop}
    [∀ done t, Decidable (ready done t)] : ∀ tasks, Decidable (Scheduled ready tasks)
  | [] => .isTrue trivial
  | t :: done =>
    have : Decidable (Scheduled ready done) := Scheduled.decidable done
    inferInstanceAs (Decidable (ready done t ∧ Scheduled ready done))

/-- **A schedule is run** task by task, if a run of each ready task leads on. -/
theorem Runs.schedule {T : Type*} {ready : List T → T → Prop} {I : List T → Config P C F M L → Prop}
    (hrun : ∀ done t v, I done v → ready done t → ∃ v', Runs program v v' ∧ I (t :: done) v')
    {tasks : List T} (htasks : Scheduled ready tasks) (hv : I [] v) :
    ∃ v', Runs program v v' ∧ I tasks v' := by
  induction tasks with
  | nil => exact ⟨v, .refl v, hv⟩
  | cons t done ih =>
    obtain ⟨v₁, hruns, h₁⟩ := ih htasks.2
    obtain ⟨v₂, hruns₂, h₂⟩ := hrun done t v₁ h₁ htasks.1
    exact ⟨v₂, hruns.trans hruns₂, h₂⟩

end SystemProgramming.Network
