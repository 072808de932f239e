import SystemProgramming.Championship.Elimination
import SystemProgramming.Championship.Exit
import SystemProgramming.Championship.Schedule
import SystemProgramming.Lib.OneMessage

namespace SystemProgramming.Championship

open Network Transition

/-!
# Championship — every run can be completed

* `Final` — the end of the one run that has been put together;
* `not_conflict` — no two processes get in each other's way in a state from which it is reached;
* `run_to_final` — so every run leads there, after the same number of steps.
-/

/-- The end of the tournament. -/
structure Final (rows : Fin 8 → Row) (t : Tournament) : Prop where
  chan : ∀ c, t.chan c = []
  exited : ∀ p, (t.loc p).exited = true
  result : ∀ b, Result rows t.loc b
  root : ∃ left right, t.loc (.battle .A) = .battle (.exited (winnerSide rows .A)) left right ∧
    (pick (winnerSide rows .A) left right).real_player_id = champion rows

variable {rows : Fin 8 → Row} {s t : Tournament} {a i j : Fin 15} {b : Battle} {p q : Proc}
variable {l l' : Local} {c : Channel} {m : Status} {k : Status → Local} {x : ℤ} {e : Entry}

/-- **Some schedule comes to the end of the tournament**, in its final state. -/
theorem exists_final (hrows : Valid rows) :
    ∃ t, Reachable (step (program rows)) start t ∧ Final rows t := by
  obtain ⟨v, hruns, hchan, hresult, left, right, hroot, hchampion⟩ := runs_tournament hrows
  obtain ⟨t, hreach, rfl⟩ := hruns start rfl
  have hexited : (t.loc (.battle .A)).exited = true := by
    rw [show t.loc (.battle .A) = _ from hroot]
    rfl
  exact ⟨t, hreach, fun c => congrFun hchan c, all_exited hreach hexited, hresult, left, right,
    hroot, hchampion⟩

/-- Then nobody can move. -/
theorem Final.halted (ht : Final rows t) : Halted (step (program rows)) t := by
  intro p
  rw [step, program_exited (ht.exited p)]
  rfl

/-! ### Who uses what -/

/-- The process that reads from a channel. -/
def receiver : Channel → Option Proc
  | .up c => parentOf c
  | .down c => some c
  | .fifo a => some a

/-- The process that writes to a pipe; the FIFO of an agent is written by a loser. -/
def sender : Channel → Option Proc
  | .up c => some c
  | .down c => parentOf c
  | .fifo _ => none

/-- Only one process reads a channel. -/
theorem receiver_eq (h : program rows p l = .recv c k) : receiver c = some p := by
  cases p with
  | battle b =>
    cases l with
    | player pc P hp logp => cases h
    | battle pc left right =>
      cases pc with
      -- a battle reads up from its children and down from its parent
      | read side | readChild side =>
        cases h
        exact parentOf_child b side
      | readParent w =>
        cases h
        rfl
      | fork side | logRead side | write side => cases side <;> cases h
      | _ => cases h
  | player i =>
    cases l with
    | battle pc left right => cases h
    | player pc P hp logp =>
      cases pc with
      -- a player reads its FIFO and the pipe from its battle
      | readFifo | receive =>
        cases h
        rfl
      | _ => cases h

/-- Only one process writes a pipe; a FIFO is written by a loser. -/
theorem sender_eq (h : program rows p l = .send c m l') :
    sender c = some p ∨ ∃ a, c = .fifo (.player a) := by
  cases p with
  | battle b =>
    cases l with
    | player pc P hp logp => cases h
    | battle pc left right =>
      cases pc with
      | write side =>
        cases side <;> cases h
        · exact .inl (parentOf_child b .left)
        · exact .inl (parentOf_child b .right)
      | sendUp w =>
        cases h
        exact .inl rfl
      | sendDown w =>
        cases h
        exact .inl (parentOf_child b w)
      | fork side | logRead side => cases side <;> cases h
      | _ => cases h
  | player i =>
    cases l with
    | battle pc left right => cases h
    | player pc P hp logp =>
      cases pc with
      | send =>
        cases h
        exact .inl rfl
      -- the only channel with several writers is the FIFO of an agent
      | writeFifo a =>
        cases h
        exact .inr ⟨a, rfl⟩
      | _ => cases h

/-- A player writes its log here. -/
def PlayerPc.writing : PlayerPc → Bool
  | .logFifo | .logSend | .logReceived | .logHand _ => true
  | _ => false

/-- Who writes to a file. -/
def Writes (p : Proc) (l : Local) : File → Prop
  | .log_battle b => p = .battle b
  | .log_player x => ∃ i pc P hp, p = .player i ∧ l = .player pc P hp x ∧ pc.writing = true
  | .stdout => ∃ b w left right, p = .battle b ∧ l = .battle (.print w) left right

/-- A process that writes to a file is one that may. -/
theorem writes_of_write {g : File} (h : program rows p l = .write g e l') : Writes p l g := by
  cases p with
  | battle b =>
    cases l with
    | player pc P hp logp => cases h
    | battle pc left right =>
      cases pc with
      | logRead side => cases side <;> cases h <;> rfl
      | logWrite side | logChild w | logUp w | logParent w | logDown w =>
        cases h
        rfl
      -- only the root prints
      | print w =>
        cases h
        exact ⟨_, _, _, _, rfl, rfl⟩
      | fork side | write side => cases side <;> cases h
      | _ => cases h
  | player i =>
    cases l with
    | battle pc left right => cases h
    | player pc P hp logp =>
      cases pc with
      | logFifo | logSend | logReceived | logHand a =>
        cases h
        exact ⟨_, _, _, _, rfl, rfl, rfl⟩
      | _ => cases h

/-! ### The FIFO of an agent -/

/-- The agent has read its FIFO. -/
def Past (l : Local) : Prop := ∃ logp, Playing logp l

/-- The player has not yet exited with a status for agent `a`. -/
def Unsent (a : Fin 15) : Local → Prop
  | .player .exit P _ _ | .player .exited P _ _ => agent P.current_battle_id ≠ some a
  | _ => True

/-- An agent reads its FIFO once. -/
theorem not_past_of_read (h : program rows (.player a) l = .recv (.fifo (.player a)) k) :
    ¬ Past l ∧ ∀ m, Past (k m) := by
  cases l with
  | battle pc left right => cases h
  | player pc P hp logp =>
    cases pc with
    | readFifo =>
      cases h
      refine ⟨?_, fun m => ⟨_, _, _, _, rfl, rfl⟩⟩
      rintro ⟨logp', pc, P', hp', heq, hplaying⟩
      cases heq
      cases hplaying
    | _ => cases h

/-- The FIFO of an agent carries one message, whatever the losers hold until they send. -/
theorem fifo_oneMessage (rows : Fin 8 → Row) (a : Fin 15) {K : Proc → Local → Prop}
    (hK : ∀ p l l', Sound p l → K p l → (program rows p l).LeadsTo l' →
      K p l' ∨ ∃ m l'', program rows p l = .send (.fifo (.player a)) m l'') :
    OneMessage (program rows) Sound (.fifo (.player a)) (.player a) Past K where
  reader p l k h := (Option.some.inj (receiver_eq h)).symm
  reads l k h := not_past_of_read h
  stable l l' := by
    rintro ⟨logp, hplaying⟩ hlead
    exact ⟨logp, stable_playing rows a logp l l' hplaying hlead⟩
  holds := hK

/-- At the head of its loop, a player has not exited with a status for an agent. -/
theorem unsent_turn (a : Fin 15) (m : Status) (hp logp : ℤ) : Unsent a (turn m hp logp) := by
  unfold turn
  dsimp only
  split_ifs with _ _ hA
  · trivial
  · split
    · trivial
    · rename_i hnone
      show agent m.current_battle_id ≠ some a
      rw [hnone]
      simp
  · show agent m.current_battle_id ≠ some a
    rw [hA]
    simp [agent]
  · trivial

/-- A player keeps its status until it sends it to its agent. -/
theorem unsent_holds (hsound : Sound p l) (h : Unsent a l)
    (hlead : (program rows p l).LeadsTo l') :
    Unsent a l' ∨ ∃ m l'', program rows p l = .send (.fifo (.player a)) m l'' := by
  cases l with
  | battle pc left right =>
    refine .inl ?_
    cases l' with
    | battle pc' left' right' => trivial
    | player pc' P hp logp =>
      have hsound' := stable_sound rows p _ _ hsound hlead
      cases p with
      | battle b => exact hsound'.elim
      | player i => exact hsound.elim
  | player pc P hp logp =>
    cases p with
    | battle b => exact hsound.elim
    | player i =>
      cases pc with
      | writeFifo a' =>
        cases hlead
        -- the player hands its status to the agent of its battle
        by_cases ha : a' = a
        · subst ha
          exact .inr ⟨_, _, rfl⟩
        · refine .inl ?_
          show agent P.current_battle_id ≠ some a
          rw [hsound.agent a' rfl]
          simpa using ha
      | unborn =>
        cases hlead
        refine .inl ?_
        unfold playerStart
        split
        · exact unsent_turn ..
        · trivial
      | logFifo | logReceived =>
        cases hlead
        exact .inl (unsent_turn ..)
      | readFifo | receive =>
        obtain ⟨m, rfl⟩ := hlead
        exact .inl trivial
      | exit =>
        cases hlead
        exact .inl h
      | exited => cases hlead
      | openRead | waitWriter | logSend | send | logHand a' | openWrite a' | waitReader a' =>
        cases hlead
        exact .inl trivial

/-- Who writes the log of a player plays for it. -/
theorem playing_of_writing {pc : PlayerPc} {P : Status} {hp : ℤ} (hl : l = .player pc P hp x)
    (hpc : pc.writing = true) : Playing x l := by
  refine ⟨pc, P, hp, hl, ?_⟩
  cases pc <;> first | rfl | cases hpc

/-! ### Conflicts -/

section Conflict

variable (ht : Final rows t) (hs : ∀ p, Sound p (s.loc p))
variable (hreach : Reachable (step (program rows)) s t)
include ht hs hreach

/-- No two losers are about to write to the same FIFO. -/
theorem fifo_unique {m' : Status} {l₁ l₂ : Local}
    (hp : program rows p (s.loc p) = .send (.fifo (.player a)) m l₁)
    (hq : program rows q (s.loc q) = .send (.fifo (.player a)) m' l₂) : p = q := by
  have hone := fifo_oneMessage rows a
    (K := fun p l => ∃ m l', program rows p l = .send (.fifo (.player a)) m l')
    fun p l l' _ hsend _ => .inr hsend
  refine hone.unique (stable_sound rows) (ht.chan _) (fun p hsend => ?_) hs hreach
    ⟨_, _, hp⟩ ⟨_, _, hq⟩
  obtain ⟨m, l', hsend⟩ := hsend
  rw [program_exited (ht.exited p)] at hsend
  cases hsend

/-- The log file of a player is that of the player it stands for. -/
theorem logp_eq (h : Playing x (s.loc (.player i))) : x = ident rows (.player i) := by
  by_cases hi : i.val < 8
  · obtain ⟨pc, P, hp, hloc, hpc⟩ := h
    have hsound := hs (.player i)
    rw [hloc] at hsound
    rw [ident_real hi]
    refine ((hsound.real hi).resolve_left fun hunborn => ?_).2
    rw [hunborn] at hpc
    cases hpc
  · obtain ⟨b, hb⟩ := Option.isSome_iff_exists.mp (source_isSome i hi)
    obtain ⟨pc₁, P₁, hp₁, hloc₁, -⟩ := (ht.result b).playing i hb
    obtain ⟨pc₂, P₂, hp₂, hloc₂, -⟩ := (stable_playing rows i x).reachable hreach h
    rw [hloc₁] at hloc₂
    cases hloc₂
    rfl

/-- A real player has handed its status over before its agent writes to its log. -/
theorem real_agent_ne {pc pc' : PlayerPc} {P P' : Status} {hp hp' : ℤ} (hi : i.val < 8)
    (ha : ¬ a.val < 8) (hpc : pc.writing = true) (hpc' : pc'.writing = true)
    (hloc : s.loc (.player i) = .player pc P hp x) :
    s.loc (.player a) ≠ .player pc' P' hp' x := by
  intro hloc'
  obtain ⟨b, hb⟩ := Option.isSome_iff_exists.mp (source_isSome a ha)
  have hx := logp_eq ht hs hreach (playing_of_writing hloc hpc)
  have hx' := logp_eq ht hs hreach (playing_of_writing hloc' hpc')
  rw [ident_real hi] at hx
  -- at the end the player has exited, and its agent has its status
  obtain ⟨j, Q, hq, logq, hj, hgone, hagent⟩ := (ht.result b).gone a hb
  obtain rfl : i = j := by
    rw [← hx', hx] at hj
    exact Fin.ext (by exact_mod_cast hj.symm)
  have hone := fifo_oneMessage rows a (K := fun p l => p = .player i ∧ Unsent a l)
    fun p l l' hsound hK hlead => (unsent_holds hsound hK.2 hlead).imp_left fun h => ⟨hK.1, h⟩
  refine hone.not_past (stable_sound rows) (ht.chan _) ?_ hs hreach (p := .player i) ⟨rfl, ?_⟩ ?_
  · rintro _ ⟨rfl, hunsent⟩
    rw [hgone] at hunsent
    exact hunsent hagent
  · rw [hloc]
    cases pc <;> trivial
  · exact ⟨x, playing_of_writing hloc' hpc'⟩

/-- No two processes are about to write to the same file. -/
theorem writes_unique (hrows : Valid rows) {g : File} (hp : Writes p (s.loc p) g)
    (hq : Writes q (s.loc q) g) : p = q := by
  cases g with
  | log_battle b => exact Eq.trans hp (Eq.symm hq)
  | stdout =>
    -- both are the root
    obtain ⟨b, w, left, right, rfl, hloc⟩ := hp
    obtain ⟨b', w', left', right', rfl, hloc'⟩ := hq
    have hsound := hs (.battle b)
    have hsound' := hs (.battle b')
    rw [hloc] at hsound
    rw [hloc'] at hsound'
    rw [hsound.root w rfl, hsound'.root w' rfl]
  | log_player x =>
    obtain ⟨i, pc, P, hp, rfl, hloc, hpc⟩ := hp
    obtain ⟨j, pc', P', hp', rfl, hloc', hpc'⟩ := hq
    have hx := logp_eq ht hs hreach (playing_of_writing hloc hpc)
    have hx' := logp_eq ht hs hreach (playing_of_writing hloc' hpc')
    -- two players log under one id only if an agent has taken over, and then the player has exited
    by_cases hi : i.val < 8
    · by_cases hj : j.val < 8
      · rw [hx, ident_real hi, ident_real hj] at hx'
        exact congrArg _ (Fin.ext (by exact_mod_cast hx'))
      · exact absurd hloc' (real_agent_ne ht hs hreach hi hj hpc hpc' hloc)
    · by_cases hj : j.val < 8
      · exact absurd hloc (real_agent_ne ht hs hreach hj hi hpc' hpc hloc')
      · rw [agent_inj hrows hi hj (hx.symm.trans hx')]

/-- **No two processes get in each other's way.** -/
theorem not_conflict (hrows : Valid rows) (hne : p ≠ q) :
    ¬ (program rows p (s.loc p)).Conflict (program rows q (s.loc q)) := by
  intro h
  rcases h.cases with ⟨c, m, l, m', l', hp, hq⟩ | ⟨c, k, k', hp, hq⟩ | ⟨g, e, l, e', l', hp, hq⟩
  · rcases sender_eq hp with hsender | ⟨a, rfl⟩
    · rcases sender_eq hq with hsender' | ⟨a, rfl⟩
      · exact hne (Option.some.inj (hsender.symm.trans hsender'))
      · cases hsender
    · exact hne (fifo_unique ht hs hreach hp hq)
  · exact hne (Option.some.inj ((receiver_eq hp).symm.trans (receiver_eq hq)))
  · exact hne (writes_unique ht hs hreach hrows (writes_of_write hp) (writes_of_write hq))

end Conflict

/-! ### Every run -/

/-- **Every run leads to the end**, and all runs to the end are of one length. -/
theorem run_to_final (hrows : Valid rows) (ht : Final rows t) {path es : List Proc}
    (hpath : runFrom (step (program rows)) start path = some t)
    (hrun : runFrom (step (program rows)) start es = some s) :
    ∃ rest, rest.length + es.length = path.length ∧
      runFrom (step (program rows)) s rest = some t :=
  run_to_end (I := fun s => ∀ p, Sound p (s.loc p))
    (fun _ _ _ hs hstep q => (stable_sound rows q).step hstep (hs q)) ht.halted
    (fun _ hs hreach => commuteAt fun _ _ hne => not_conflict ht hs hreach hrows hne)
    sound_start hpath hrun

/-- **Every schedule comes to this end**: from every reachable state, the final one is reachable. -/
theorem reachable_final (hrows : Valid rows) (ht : Final rows t)
    (hpath : Reachable (step (program rows)) start t)
    (hs : Reachable (step (program rows)) start s) : Reachable (step (program rows)) s t := by
  obtain ⟨path, hpath⟩ := hpath
  obtain ⟨es, hes⟩ := hs
  obtain ⟨rest, -, hrest⟩ := run_to_final hrows ht hpath hes
  exact ⟨rest, hrest⟩

end SystemProgramming.Championship
