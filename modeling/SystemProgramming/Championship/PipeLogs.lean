import SystemProgramming.Championship.Deadlock
import SystemProgramming.Lib.Ledger

namespace SystemProgramming.Championship

open Network Transition

/-!
# Championship — the logs of the two ends of a pipe

Every process logs a status before it writes it to a pipe, and after it has read it from one.

* `downLedger` / `upLedger` — so the two pipes between a battle and its child have a log at each end;
* `pipe_logs` — the `pipe from` lines of one end are a prefix of the `pipe to` lines of the other,
  and all of them once the tournament is over.
-/

/-! ### Lines -/

/-- What a line says of a status. -/
abbrev Line := ℤ × ℤ × Char × ℤ

/-- The numbers of a line about a status. -/
def Status.line (s : Status) : Line :=
  (s.real_player_id, s.HP, s.current_battle_id, s.battle_ended_flag)

/-- A line in which `p` says that it writes to `peer`. -/
def toLine (p peer : Proc) : Entry → Option Line
  | .pipeTo p' peer' id HP battle flag =>
    if p' = p ∧ peer' = some peer then some (id, HP, battle, flag) else none
  | _ => none

/-- A line in which `p` says that it has read from `peer`. -/
def fromLine (p peer : Proc) : Entry → Option Line
  | .pipeFrom p' peer' id HP battle flag =>
    if p' = p ∧ peer' = some peer then some (id, HP, battle, flag) else none
  | _ => none

/-- The log file of a process; an agent has that of the player it stands for. -/
def logOf (rows : Fin 8 → Row) : Proc → File
  | .battle b => .log_battle b
  | .player i => .log_player (ident rows (.player i))

/-! ### What stands between a line and its message -/

/-- The status that a battle has logged for the child on `side` and not yet written. -/
def unsentDown (side : Side) : Local → List Line
  | .battle (.write w) left right | .battle (.sendDown w) left right =>
    if w = side then [(pick w left right).line] else []
  | _ => []

/-- The status that a battle has read from the child on `side` and not yet logged. -/
def unloggedUp (side : Side) : Local → List Line
  | .battle (.logRead w) left right | .battle (.logChild w) left right =>
    if w = side then [(pick w left right).line] else []
  | _ => []

/-- The status that a process has logged for its parent and not yet written. -/
def unsentUp : Local → List Line
  | .battle (.sendUp w) left right => [(pick w left right).line]
  | .player .send P _ _ => [P.line]
  | _ => []

/-- The status that a process has read from its parent and not yet logged. -/
def unloggedDown : Local → List Line
  | .battle (.logParent w) left right => [(pick w left right).line]
  | .player .logReceived P _ _ => [P.line]
  | _ => []

/-- What is known of a process in every reachable state. -/
structure Known (rows : Fin 8 → Row) (p : Proc) (l : Local) : Prop where
  sound : Sound p l
  log : ∀ i x, p = .player i → Playing x l → x = ident rows (.player i)

variable {rows : Fin 8 → Row} {b : Battle} {side : Side} {p q r : Proc} {l l' : Local}
variable {g : File} {e : Entry}

/-! ### Who writes what -/

/-- A line of `p` is written by `p`. -/
theorem line_author (h : program rows r l = .write g e l') (hne : r ≠ p) :
    toLine p q e = none ∧ fromLine p q e = none := by
  -- a process logs under its own name, so no line of another one is between `p` and `q`
  cases r with
  | battle b =>
    cases l with
    | player pc P hp logp => cases h
    | battle pc left right =>
      cases pc with
      | logRead side => cases side <;> cases h <;> simp [toLine, fromLine, lineFrom, hne]
      | logWrite side | logUp w | logDown w =>
        cases h
        simp [toLine, fromLine, lineTo, hne]
      | logChild w | logParent w =>
        cases h
        simp [toLine, fromLine, lineFrom, hne]
      | print w =>
        cases h
        exact ⟨rfl, rfl⟩
      | fork side | write side => cases side <;> cases h
      | _ => cases h
  | player i =>
    cases l with
    | battle pc left right => cases h
    | player pc P hp logp =>
      cases pc with
      | logFifo | logHand a =>
        cases h
        exact ⟨rfl, rfl⟩
      | logSend =>
        cases h
        simp [toLine, fromLine, lineTo, hne]
      | logReceived =>
        cases h
        simp [toLine, fromLine, lineFrom, hne]
      | _ => cases h

/-- No other process writes lines about this pair to the file. -/
theorem written_other (hne : r ≠ p) :
    ((program rows r l).written g).filterMap (toLine p q) = [] ∧
      ((program rows r l).written g).filterMap (fromLine p q) = [] := by
  cases ha : program rows r l with
  | write g' e l' =>
    obtain ⟨hto, hfrom⟩ := line_author (q := q) ha hne
    simp only [Action.written]
    split <;> simp [hto, hfrom]
  | _ => exact ⟨rfl, rfl⟩

/-- No other process sends to the pipe. -/
theorem sent_other {c : Channel} (hc : sender c = some p) (hfifo : ∀ a, c ≠ .fifo a) (hne : r ≠ p) :
    (program rows r l).sent c = [] := by
  cases ha : program rows r l with
  | send c' m l' =>
    simp only [Action.sent]
    split
    · rename_i heq
      subst heq
      rcases sender_eq ha with hsender | ⟨a, rfl⟩
      · exact absurd (Option.some.inj (hsender.symm.trans hc)) hne
      · exact absurd rfl (hfifo _)
    · rfl
  | _ => rfl

/-- No other process reads the pipe. -/
theorem reads_other {c : Channel} (hc : receiver c = some p) (hne : r ≠ p) :
    ¬ (program rows r l).Reads c := by
  rintro ⟨k, hk⟩
  exact hne (Option.some.inj ((receiver_eq hk).symm.trans hc))

/-! ### The side of the battle -/

section Battle

variable {pc : BattlePc} {left right : Status}

/-- The children of a battle are told apart by their sides. -/
@[simp] theorem child_eq_iff {w : Side} : child b w = child b side ↔ w = side :=
  ⟨fun h => (child_inj h).2, fun h => by rw [h]⟩

/-- The left child. -/
@[simp] theorem playl_eq_iff : playl b = child b side ↔ .left = side := child_eq_iff (w := .left)

/-- The right child. -/
@[simp] theorem playr_eq_iff : playr b = child b side ↔ .right = side := child_eq_iff (w := .right)

/-- The parent of a battle is not one of its children. -/
theorem above_ne_child (b : Battle) (side : Side) (x : Battle) (h : parent b = some x) :
    ¬ Proc.battle x = child b side := by
  revert b side x
  decide

/-- At the head of the passing loop nothing is on its way. -/
theorem unsent_passing (side w : Side) : unsentDown side (passing w left right) = [] ∧
    unloggedUp side (passing w left right) = [] ∧ unsentUp (passing w left right) = [] ∧
    unloggedDown (passing w left right) = [] := by
  unfold passing
  dsimp only
  split <;> exact ⟨rfl, rfl, rfl, rfl⟩

/-- Nor at the end of a round. -/
theorem unsent_roundEnd (side : Side) : unsentDown side (roundEnd b left right) = [] ∧
    unloggedUp side (roundEnd b left right) = [] ∧ unsentUp (roundEnd b left right) = [] ∧
    unloggedDown (roundEnd b left right) = [] := by
  unfold roundEnd
  split_ifs <;> exact ⟨rfl, rfl, rfl, rfl⟩

/-- A battle logs what it writes to a child. -/
theorem battle_outgoing (hlead : (battleProgram b pc left right).LeadsTo l') :
    unsentDown side (.battle pc left right) ++
        ((battleProgram b pc left right).written (.log_battle b)).filterMap
          (toLine (.battle b) (child b side)) =
      ((battleProgram b pc left right).sent (.down (child b side))).map Status.line ++
        unsentDown side l' := by
  -- the two statuses are logged first and sent later: `logWrite` and `logDown` run ahead
  cases pc with
  | unborn | waitWinner w | print w | reapWinner w | reapLoser w | exit w | logChild w | logParent w
  | sendUp w =>
    cases hlead
    simp [battleProgram, Action.written, Action.sent, unsentDown, toLine, lineFrom]
  | logUp w =>
    -- this line is for the parent, which is no child of the battle
    cases hlead
    simpa [battleProgram, Action.written, Action.sent, unsentDown, toLine, lineTo] using
      above_ne_child b side
  | logWrite w | logDown w =>
    cases hlead
    by_cases hw : w = side <;>
      simp [battleProgram, Action.written, Action.sent, unsentDown, toLine, lineTo, hw, Status.line]
  | fork w | logRead w =>
    cases w <;> cases hlead <;>
      simp [battleProgram, Action.written, Action.sent, unsentDown, toLine, lineFrom]
  | read w | readChild w | readParent w =>
    obtain ⟨m, rfl⟩ := hlead
    simp [battleProgram, Action.written, Action.sent, unsentDown, stored]
  | write w =>
    cases w <;> cases hlead
    · -- the left status is written, the right one is still to be sent
      cases side <;> simp [battleProgram, Action.written, Action.sent, unsentDown, pick]
    · rw [(unsent_roundEnd side).1]
      cases side <;> simp [battleProgram, Action.written, Action.sent, unsentDown, pick]
  | waitLoser w =>
    cases hlead
    rw [(unsent_passing side w).1]
    rfl
  | sendDown w =>
    cases hlead
    rw [(unsent_passing side w).1]
    by_cases hw : w = side <;>
      simp [battleProgram, Action.written, Action.sent, unsentDown, hw]
  | exited w => cases hlead

/-- A battle logs what it has read from a child. -/
theorem battle_incoming
    (hreads : ¬ (battleProgram b pc left right).Reads (.up (child b side)))
    (hlead : (battleProgram b pc left right).LeadsTo l') :
    unloggedUp side (.battle pc left right) =
      ((battleProgram b pc left right).written (.log_battle b)).filterMap
          (fromLine (.battle b) (child b side)) ++ unloggedUp side l' := by
  -- what was read is logged next: `logChild` and `logRead` catch up
  cases pc with
  | unborn | waitWinner w | print w | reapWinner w | reapLoser w | exit w | logUp w | logDown w
  | logWrite w | sendUp w =>
    cases hlead
    simp [battleProgram, Action.written, unloggedUp, fromLine, lineTo]
  | logParent w =>
    cases hlead
    simpa [battleProgram, Action.written, unloggedUp, fromLine, lineFrom] using
      above_ne_child b side
  | logChild w =>
    cases hlead
    by_cases hw : w = side <;>
      simp [battleProgram, Action.written, unloggedUp, fromLine, lineFrom, hw, Status.line]
  | fork w =>
    cases w <;> cases hlead <;> simp [battleProgram, Action.written, unloggedUp]
  | logRead w =>
    cases w <;> cases hlead <;> cases side <;>
      simp [battleProgram, Action.written, unloggedUp, fromLine, lineFrom, pick, Status.line]
  -- a read from the other child, for reads from this one are excluded
  | read w | readChild w =>
    obtain ⟨m, rfl⟩ := hlead
    have hw : w ≠ side := by
      rintro rfl
      exact hreads ⟨_, rfl⟩
    simp [battleProgram, Action.written, unloggedUp, stored, hw]
  | readParent w =>
    obtain ⟨m, rfl⟩ := hlead
    simp [battleProgram, Action.written, unloggedUp, stored]
  | write w =>
    cases w <;> cases hlead
    · simp [battleProgram, Action.written, unloggedUp]
    · rw [(unsent_roundEnd side).2.1]
      rfl
  | waitLoser w | sendDown w =>
    cases hlead
    rw [(unsent_passing side w).2.1]
    rfl
  | exited w => cases hlead

/-- What a battle has read from a child is the next line to be logged. -/
theorem battle_receive {k : Status → Local}
    (h : battleProgram b pc left right = .recv (.up (child b side)) k) (m : Status) :
    unloggedUp side (k m) = unloggedUp side (.battle pc left right) ++ [m.line] := by
  cases pc with
  | read w | readChild w =>
    obtain ⟨hc, rfl⟩ := Action.recv.inj h
    have hw : w = side := child_eq_iff.mp (Channel.up.inj hc)
    simp [unloggedUp, stored, hw]
  | fork w | logRead w | write w => cases w <;> cases h
  | _ => cases h

end Battle

/-! ### The side of the child -/

section Child

variable {pc : BattlePc} {left right : Status} {b' : Battle}

/-- The children of a battle are not its parent. -/
theorem child_ne_above (b b' : Battle) (side : Side) (h : parent b' = some b) :
    ¬ child b' side = .battle b := by
  revert b b' side
  decide

/-- Nor at the head of the player's loop. -/
theorem unsent_turn_eq (m : Status) (hp logp : ℤ) :
    unsentUp (turn m hp logp) = [] ∧ unloggedDown (turn m hp logp) = [] := by
  unfold turn
  dsimp only
  split_ifs
  · exact ⟨rfl, rfl⟩
  · split <;> exact ⟨rfl, rfl⟩
  · exact ⟨rfl, rfl⟩
  · exact ⟨rfl, rfl⟩

/-- A battle logs what it writes to its parent. -/
theorem childBattle_outgoing (hp : parent b' = some b)
    (hlead : (battleProgram b' pc left right).LeadsTo l') :
    unsentUp (.battle pc left right) ++
        ((battleProgram b' pc left right).written (.log_battle b')).filterMap
          (toLine (.battle b') (.battle b)) =
      ((battleProgram b' pc left right).sent (.up (.battle b'))).map Status.line ++
        unsentUp l' := by
  have hchild := child_ne_above b b'
  cases pc with
  | unborn | waitWinner w | print w | reapWinner w | reapLoser w | exit w | logChild w | logParent w
  | sendUp w =>
    cases hlead
    simp [battleProgram, Action.written, Action.sent, unsentUp, toLine, lineFrom]
  | logUp w =>
    cases hlead
    -- `logUp` runs ahead of `sendUp`, and goes to the parent
    simp [battleProgram, Action.written, Action.sent, unsentUp, toLine, lineTo, hp, Status.line]
  | logWrite w | logDown w =>
    cases hlead
    simp [battleProgram, Action.written, Action.sent, unsentUp, toLine, lineTo, hchild w hp]
  | fork w | logRead w =>
    cases w <;> cases hlead <;>
      simp [battleProgram, Action.written, Action.sent, unsentUp, toLine, lineFrom]
  | read w | readChild w | readParent w =>
    obtain ⟨m, rfl⟩ := hlead
    simp [battleProgram, Action.written, Action.sent, unsentUp, stored]
  | write w =>
    cases w <;> cases hlead
    · simp [battleProgram, Action.written, Action.sent, unsentUp]
    · rw [(unsent_roundEnd .left).2.2.1]
      simp [battleProgram, Action.written, Action.sent, unsentUp]
  | waitLoser w | sendDown w =>
    cases hlead
    rw [(unsent_passing w w).2.2.1]
    simp [battleProgram, Action.written, Action.sent, unsentUp]
  | exited w => cases hlead

/-- A battle logs what it has read from its parent. -/
theorem childBattle_incoming (hp : parent b' = some b)
    (hreads : ¬ (battleProgram b' pc left right).Reads (.down (.battle b')))
    (hlead : (battleProgram b' pc left right).LeadsTo l') :
    unloggedDown (.battle pc left right) =
      ((battleProgram b' pc left right).written (.log_battle b')).filterMap
          (fromLine (.battle b') (.battle b)) ++ unloggedDown l' := by
  have hchild := child_ne_above b b'
  cases pc with
  | unborn | waitWinner w | print w | reapWinner w | reapLoser w | exit w | logUp w | logDown w
  | logWrite w | sendUp w =>
    cases hlead
    simp [battleProgram, Action.written, unloggedDown, fromLine, lineTo]
  -- `logParent` catches up with `readParent`
  | logParent w =>
    cases hlead
    simp [battleProgram, Action.written, unloggedDown, fromLine, lineFrom, hp, Status.line]
  | logChild w =>
    cases hlead
    simp [battleProgram, Action.written, unloggedDown, fromLine, lineFrom, hchild w hp]
  | fork w =>
    cases w <;> cases hlead <;> simp [battleProgram, Action.written, unloggedDown]
  | logRead w =>
    have hw := hchild w hp
    cases w <;> cases hlead
    · have hl : ¬ playl b' = .battle b := hw
      simp [battleProgram, Action.written, unloggedDown, fromLine, lineFrom, hl]
    · have hr : ¬ playr b' = .battle b := hw
      simp [battleProgram, Action.written, unloggedDown, fromLine, lineFrom, hr]
  | read w | readChild w =>
    obtain ⟨m, rfl⟩ := hlead
    simp [battleProgram, Action.written, unloggedDown, stored]
  | readParent w => exact absurd ⟨_, rfl⟩ hreads
  | write w =>
    cases w <;> cases hlead
    · simp [battleProgram, Action.written, unloggedDown]
    · rw [(unsent_roundEnd .left).2.2.2]
      rfl
  | waitLoser w | sendDown w =>
    cases hlead
    rw [(unsent_passing w w).2.2.2]
    rfl
  | exited w => cases hlead

variable {i : Fin 15} {ppc : PlayerPc} {P : Status} {hp logp : ℤ}

/-- A player logs what it writes to its battle. -/
theorem player_outgoing
    (hlog : ∀ x, Playing x (.player ppc P hp logp) → x = ident rows (.player i))
    (hlead : (playerProgram rows i ppc P hp logp).LeadsTo l') :
    unsentUp (.player ppc P hp logp) ++
        ((playerProgram rows i ppc P hp logp).written (logOf rows (.player i))).filterMap
          (toLine (.player i) (.battle (par i))) =
      ((playerProgram rows i ppc P hp logp).sent (.up (.player i))).map Status.line ++
        unsentUp l' := by
  cases ppc with
  | logSend =>
    cases hlead
    -- the log file of a player carries the id that it plays for
    have hx := hlog logp ⟨_, _, _, rfl, rfl⟩
    simp [playerProgram, Action.written, Action.sent, unsentUp, toLine, lineTo, logOf, ← hx,
      Status.line]
  | unborn =>
    cases hlead
    unfold playerStart
    split
    · rw [(unsent_turn_eq _ _ _).1]
      rfl
    · rfl
  | logFifo | logReceived =>
    cases hlead
    rw [(unsent_turn_eq _ _ _).1]
    simp only [playerProgram, Action.written, Action.sent, unsentUp]
    split <;> rfl
  | readFifo | receive =>
    obtain ⟨m, rfl⟩ := hlead
    rfl
  | send =>
    cases hlead
    simp [playerProgram, Action.written, Action.sent, unsentUp]
  -- an agent is handed the status through the FIFO, which is no pipe of the tree
  | logHand a =>
    cases hlead
    simp only [playerProgram, Action.written, Action.sent, unsentUp]
    split <;> rfl
  | openRead | waitWriter | openWrite a | waitReader a | writeFifo a | exit =>
    cases hlead
    rfl
  | exited => cases hlead

/-- A player logs what it has read from its battle. -/
theorem player_incoming
    (hlog : ∀ x, Playing x (.player ppc P hp logp) → x = ident rows (.player i))
    (hreads : ¬ (playerProgram rows i ppc P hp logp).Reads (.down (.player i)))
    (hlead : (playerProgram rows i ppc P hp logp).LeadsTo l') :
    unloggedDown (.player ppc P hp logp) =
      ((playerProgram rows i ppc P hp logp).written (logOf rows (.player i))).filterMap
          (fromLine (.player i) (.battle (par i))) ++ unloggedDown l' := by
  cases ppc with
  | logReceived =>
    cases hlead
    have hx := hlog logp ⟨_, _, _, rfl, rfl⟩
    -- the log file of a player carries the id that it plays for
    rw [(unsent_turn_eq _ _ _).2]
    simp [playerProgram, Action.written, unloggedDown, fromLine, lineFrom, logOf, ← hx,
      Status.line]
  | unborn =>
    cases hlead
    unfold playerStart
    split
    · rw [(unsent_turn_eq _ _ _).2]
      rfl
    · rfl
  | logFifo =>
    cases hlead
    rw [(unsent_turn_eq _ _ _).2]
    simp only [playerProgram, Action.written, unloggedDown]
    split <;> rfl
  -- excluded: the reads are counted by `child_receive`
  | receive => exact absurd ⟨_, rfl⟩ hreads
  | readFifo =>
    obtain ⟨m, rfl⟩ := hlead
    rfl
  | logSend | logHand a =>
    cases hlead
    simp only [playerProgram, Action.written, unloggedDown]
    split <;> rfl
  | send | openRead | waitWriter | openWrite a | waitReader a | writeFifo a | exit =>
    cases hlead
    rfl
  | exited => cases hlead

/-- A process logs what it writes to its parent. -/
theorem child_outgoing (hparent : parentOf p = some (.battle b)) (hK : Known rows p l)
    (hlead : (program rows p l).LeadsTo l') :
    unsentUp l ++ ((program rows p l).written (logOf rows p)).filterMap (toLine p (.battle b)) =
      ((program rows p l).sent (.up p)).map Status.line ++ unsentUp l' := by
  cases p with
  | battle b' =>
    cases l with
    | player ppc P hp logp => exact hK.sound.elim
    | battle pc left right =>
      obtain ⟨x, hx, heq⟩ := Option.map_eq_some_iff.mp hparent
      cases heq
      exact childBattle_outgoing hx hlead
  | player i =>
    cases l with
    | battle pc left right => exact hK.sound.elim
    | player ppc P hp logp =>
      cases hparent
      exact player_outgoing (fun x hx => hK.log i x rfl hx) hlead

/-- A process logs what it has read from its parent. -/
theorem child_incoming (hparent : parentOf p = some (.battle b)) (hK : Known rows p l)
    (hreads : ¬ (program rows p l).Reads (.down p)) (hlead : (program rows p l).LeadsTo l') :
    unloggedDown l =
      ((program rows p l).written (logOf rows p)).filterMap (fromLine p (.battle b)) ++
        unloggedDown l' := by
  cases p with
  | battle b' =>
    cases l with
    | player ppc P hp logp => exact hK.sound.elim
    | battle pc left right =>
      obtain ⟨x, hx, heq⟩ := Option.map_eq_some_iff.mp hparent
      cases heq
      exact childBattle_incoming hx hreads hlead
  | player i =>
    cases l with
    | battle pc left right => exact hK.sound.elim
    | player ppc P hp logp =>
      cases hparent
      exact player_incoming (fun x hx => hK.log i x rfl hx) hreads hlead

/-- What a child has read from its battle is the next line to be logged. -/
theorem child_receive {k : Status → Local} (h : program rows p l = .recv (.down p) k)
    (m : Status) : unloggedDown (k m) = unloggedDown l ++ [m.line] := by
  cases p with
  | battle b' =>
    cases l with
    | player ppc P hp logp => cases h
    | battle pc left right =>
      cases pc with
      | readParent w =>
        cases h
        simp [unloggedDown, stored]
      | fork w | logRead w | write w => cases w <;> cases h
      | _ => cases h
  | player i =>
    cases l with
    | battle pc left right => cases h
    | player ppc P hp logp =>
      cases ppc with
      | receive =>
        cases h
        rfl
      | _ => cases h

end Child

/-! ### The two pipes -/

/-- A battle is not its own child. -/
theorem battle_ne_child (b : Battle) (side : Side) : Proc.battle b ≠ child b side := by
  revert b side
  decide

/-- The pipe down to a child. -/
theorem downLedger (rows : Fin 8 → Row) (b : Battle) (side : Side) :
    Ledger (program rows) (Known rows) (.down (child b side)) (.battle b) (child b side)
      (.log_battle b) (logOf rows (child b side)) Status.line (toLine (.battle b) (child b side))
      (fromLine (child b side) (.battle b)) (unsentDown side) unloggedDown where
  ne := battle_ne_child b side
  outgoing l l' hK hlead := by
    cases l with
    | battle pc left right => exact battle_outgoing hlead
    | player pc P hp logp => exact hK.sound.elim
  incoming l l' hK hreads hlead := child_incoming (parentOf_child b side) hK hreads hlead
  receive l k m _ h := child_receive h m
  sender r l _ hne :=
    ⟨sent_other (parentOf_child b side) (fun a => by simp) hne, (written_other hne).1⟩
  receiver r l _ hne := ⟨reads_other rfl hne, (written_other hne).2⟩

/-- The pipe up from a child. -/
theorem upLedger (rows : Fin 8 → Row) (b : Battle) (side : Side) :
    Ledger (program rows) (Known rows) (.up (child b side)) (child b side) (.battle b)
      (logOf rows (child b side)) (.log_battle b) Status.line (toLine (child b side) (.battle b))
      (fromLine (.battle b) (child b side)) unsentUp (unloggedUp side) where
  ne := (battle_ne_child b side).symm
  outgoing l l' hK hlead := child_outgoing (parentOf_child b side) hK hlead
  incoming l l' hK hreads hlead := by
    cases l with
    | battle pc left right => exact battle_incoming hreads hlead
    | player pc P hp logp => exact hK.sound.elim
  receive l k m hK h := by
    cases l with
    | battle pc left right => exact battle_receive h m
    | player pc P hp logp => exact hK.sound.elim
  sender r l _ hne := ⟨sent_other rfl (fun a => by simp) hne, (written_other hne).1⟩
  receiver r l _ hne := ⟨reads_other (parentOf_child b side) hne, (written_other hne).2⟩

/-! ### The tournament -/

variable {s t : Tournament}

/-- What is known of a process holds in every reachable state. -/
theorem known_of_reachable (hrows : Valid rows) (hs : Reachable (step (program rows)) start s)
    (p : Proc) : Known rows p (s.loc p) := by
  obtain ⟨t, hpath, ht⟩ := exists_final hrows
  refine ⟨sound_of_reachable hs p, ?_⟩
  rintro i x rfl hplaying
  exact logp_eq ht (sound_of_reachable hs) (reachable_final hrows ht hpath hs) hplaying

/-- The lines that a process has written about what it writes to another. -/
def linesTo (rows : Fin 8 → Row) (s : Tournament) (p peer : Proc) : List Line :=
  (s.file (logOf rows p)).filterMap (toLine p peer)

/-- The lines that a process has written about what it has read from another. -/
def linesFrom (rows : Fin 8 → Row) (s : Tournament) (p peer : Proc) : List Line :=
  (s.file (logOf rows p)).filterMap (fromLine p peer)

/-- When the root has exited, so has everybody, and the pipes are empty. -/
theorem over_of_root (hrows : Valid rows) (hs : Reachable (step (program rows)) start s)
    (hroot : (s.loc (.battle .A)).exited = true) :
    (∀ p, (s.loc p).exited = true) ∧ ∀ c, s.chan c = [] := by
  obtain ⟨t, hpath, ht⟩ := exists_final hrows
  have hall := all_exited hs hroot
  have hhalted : Halted (step (program rows)) s := by
    intro p
    rw [step, program_exited (hall p)]
    rfl
  obtain rfl := hhalted.eq_of_reachable (reachable_final hrows ht hpath hs)
  exact ⟨hall, ht.chan⟩

/-- Once everybody has exited, nothing stands between a line and its message. -/
theorem unsent_exited (side : Side) (h : l.exited = true) :
    unsentDown side l = [] ∧ unloggedUp side l = [] ∧ unsentUp l = [] ∧ unloggedDown l = [] := by
  cases l with
  | battle pc left right => cases pc <;> first | exact ⟨rfl, rfl, rfl, rfl⟩ | cases h
  | player pc P hp logp => cases pc <;> first | exact ⟨rfl, rfl, rfl, rfl⟩ | cases h

/-- **The logs of the two ends of a pipe agree.**  In every reachable state, what a child has logged
    as read from its battle is a prefix of what the battle has logged as written to it, and the
    other way round; and once the tournament is over the lines are the same. -/
theorem pipe_logs (hrows : Valid rows) (hs : Reachable (step (program rows)) start s) (b : Battle)
    (side : Side) :
    (linesFrom rows s (child b side) (.battle b) <+: linesTo rows s (.battle b) (child b side) ∧
      linesFrom rows s (.battle b) (child b side) <+: linesTo rows s (child b side) (.battle b)) ∧
    ((s.loc (.battle .A)).exited = true →
      linesFrom rows s (child b side) (.battle b) = linesTo rows s (.battle b) (child b side) ∧
      linesFrom rows s (.battle b) (child b side) =
        linesTo rows s (child b side) (.battle b)) := by
  have hknown (s : Tournament) (r : Proc) (hs : Reachable (step (program rows)) start s) :=
    known_of_reachable hrows hs r
  have hstart (p : Proc) : unsentDown side (start.loc p) = [] ∧
      unloggedUp side (start.loc p) = [] ∧ unsentUp (start.loc p) = [] ∧
      unloggedDown (start.loc p) = [] := by
    -- at the start nothing is sent, and nothing is logged
    cases p <;> exact ⟨rfl, rfl, rfl, rfl⟩
  have hdown := (downLedger rows b side).balanced hknown
    (by rw [Ledger.Balanced, (hstart _).1, (hstart _).2.2.2]; rfl) hs
  have hup := (upLedger rows b side).balanced hknown
    (by rw [Ledger.Balanced, (hstart _).2.1, (hstart _).2.2.1]; rfl) hs
  unfold Ledger.Balanced at hdown hup
  refine ⟨⟨?_, ?_⟩, fun hroot => ?_⟩
  · -- what was logged is what was sent, and some of it may still be under way
    rw [linesTo, logOf, hdown]
    simp only [List.append_assoc]
    exact List.prefix_append _ _
  · rw [linesTo, hup]
    simp only [List.append_assoc]
    exact List.prefix_append _ _
  · -- in the end all have exited: no process holds a line back and the channels are empty
    obtain ⟨hexited, hchan⟩ := over_of_root hrows hs hroot
    have hdone (p : Proc) := unsent_exited side (hexited p)
    rw [hchan, (hdone _).1, (hdone _).2.2.2] at hdown
    rw [hchan, (hdone _).2.1, (hdone _).2.2.1] at hup
    simp only [List.map_nil, List.append_nil] at hdown hup
    exact ⟨hdown.symm, hup.symm⟩

/-- The tournament of `player_status.txt`: when `G` is about to pass its third status down, player 0
    has read two, and the logs agree on them; and when it is over. -/
theorem pipe_logs_sample :
    ((linesFrom sampleRows (sampleAfter 43) (.player 0) (.battle .G)).length = 2 ∧
        (linesTo sampleRows (sampleAfter 43) (.battle .G) (.player 0)).length = 3 ∧
        linesFrom sampleRows (sampleAfter 43) (.player 0) (.battle .G) <+:
          linesTo sampleRows (sampleAfter 43) (.battle .G) (.player 0)) ∧
      ∃ t, Reachable (step (program sampleRows)) start t ∧
        (t.loc (.battle .A)).exited = true ∧ ∀ b side,
          linesFrom sampleRows t (child b side) (.battle b) =
            linesTo sampleRows t (.battle b) (child b side) := by
  constructor
  · refine ⟨by decide +kernel, by decide +kernel, ?_⟩
    exact (pipe_logs valid_sampleRows (reachable_sampleAfter 43) .G .left).1.1
  · obtain ⟨t, hreach, ht⟩ := exists_final valid_sampleRows
    exact ⟨t, hreach, ht.exited _, fun b side =>
      ((pipe_logs valid_sampleRows hreach b side).2 (ht.exited _)).1⟩

end SystemProgramming.Championship
