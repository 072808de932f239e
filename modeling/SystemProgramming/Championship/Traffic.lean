import SystemProgramming.Championship.Completion
import SystemProgramming.Championship.Tournament
import SystemProgramming.Lib.RequestReply

namespace SystemProgramming.Championship

open Network Transition

/-!
# Championship — the messages between a battle and its children

A child of a battle, player or battle in passing mode, is a client that sends a status up and waits
for it to come down; the battle is its server.  The invariant of the tournament is stated along
these links, and does not need any schedule.

* `link` — every child and its parent are a link;
* `Traffic` — what holds of all statuses in a reachable state: whose they are, how many hit points
  they have, and that each of them is at one place;
* `traffic_of_reachable` — for all rows with hit points and attack power in range.
-/

/-- The status that a child has sent up and waits for. -/
def Local.pending : Local → Option Status
  | .battle (.readParent w) left right => some (pick w left right)
  | .player .receive P _ _ => some P
  | _ => none

/-- What a battle has for its child on `side`. -/
def BattlePc.held (side : Side) (left right : Status) : BattlePc → Held Status
  | .logRead .left | .read .right => if side = .left then .request left else .free
  | .logRead .right => .request (pick side left right)
  | .logWrite .left | .write .left => .reply (pick side left right)
  | .logWrite .right | .write .right => if side = .right then .reply right else .free
  | .logChild w | .logUp w | .sendUp w | .readParent w =>
    if side = w then .request (pick side left right) else .free
  | .logParent w | .logDown w | .sendDown w =>
    if side = w then .reply (pick side left right) else .free
  | _ => .free

/-- The same of a local state; a player holds nothing. -/
def Local.held (side : Side) : Local → Held Status
  | .battle pc left right => pc.held side left right
  | .player _ _ _ _ => .free

variable {rows : Fin 8 → Row} {s s' : Tournament} {b b' : Battle} {side side' w : Side}
variable {p q : Proc} {i a : Fin 15} {l l' : Local} {m P : Status} {k : Status → Local}
variable {hp logp : ℤ}

/-- Every process is the child of one battle only. -/
theorem child_inj (h : child b side = child b' side') : b = b' ∧ side = side' := by
  have hb := parentOf_child b side
  rw [h, parentOf_child] at hb
  cases hb
  rcases side_cases side side' with hside | hside
  · exact ⟨rfl, hside⟩
  · subst hside
    exact absurd h.symm (child_other_ne b side')

/-- At the head of the passing loop a battle waits for no reply. -/
theorem pending_passing (w : Side) (left right : Status) :
    (passing w left right).pending = none := by
  rw [passing_eq, relayed]
  split <;> rfl

/-- And it holds no status. -/
theorem held_passing (side w : Side) (left right : Status) :
    (passing w left right).held side = .free := by
  rw [passing_eq, relayed]
  split <;> rfl

/-- Nor does it at the end of a round. -/
theorem pending_roundEnd (b : Battle) (left right : Status) :
    (roundEnd b left right).pending = none := by
  unfold roundEnd
  split_ifs <;> rfl

/-- Where it holds none, either. -/
theorem held_roundEnd (side : Side) (b : Battle) (left right : Status) :
    (roundEnd b left right).held side = .free := by
  unfold roundEnd
  split_ifs <;> rfl

/-- At the head of its loop a player waits for no reply. -/
theorem pending_turn (m : Status) (hp logp : ℤ) : (turn m hp logp).pending = none := by
  unfold turn
  dsimp only
  split_ifs
  · rfl
  · split <;> rfl
  · rfl
  · rfl

/-! ### Client and server -/

/-- A child sends a status up, and waits for it. -/
theorem ask_up (h : program rows p l = .send (.up q) m l') :
    p = q ∧ l.pending = none ∧ l'.pending = some m := by
  have hp := sender_eq h
  rcases hp with hp | ⟨a, ha⟩
  · -- the pipe from `q` is written by `q` alone
    cases Option.some.inj hp
    refine ⟨rfl, ?_⟩
    cases p with
    | battle b =>
      cases l with
      | player pc P hp logp => cases h
      | battle pc left right =>
        cases pc with
        -- a battle writes up only what it relays for its winner
        | sendUp w =>
          cases h
          exact ⟨rfl, rfl⟩
        | fork side | logRead side | write side => cases side <;> cases h
        | _ => cases h
    | player i =>
      cases l with
      | battle pc left right => cases h
      | player pc P hp logp =>
        cases pc with
        | send =>
          cases h
          exact ⟨rfl, rfl⟩
        | _ => cases h
  · -- no FIFO is a pipe
    cases ha

/-- A battle takes the status of a child. -/
theorem accept_up (h : program rows p l = .recv (.up (child b side)) k) :
    p = .battle b ∧ l.held side = .free ∧ ∀ m, (k m).held side = .request m := by
  have hp := receiver_eq h
  rw [receiver, parentOf_child] at hp
  cases Option.some.inj hp
  refine ⟨rfl, ?_⟩
  cases l with
  | player pc P hp logp => cases h
  | battle pc left right =>
    cases pc with
    -- a battle reads its children up in two places: at the start of a round, and as a relay
    | read side' =>
      obtain ⟨hchild, rfl⟩ : Channel.up (child b side') = .up (child b side) ∧ _ = k := by
        injection h with h₁ h₂
        exact ⟨h₁, h₂⟩
      obtain ⟨-, rfl⟩ := child_inj (Channel.up.inj hchild)
      cases side' <;> exact ⟨rfl, fun m => rfl⟩
    | readChild w =>
      obtain ⟨hchild, rfl⟩ : Channel.up (child b w) = .up (child b side) ∧ _ = k := by
        injection h with h₁ h₂
        exact ⟨h₁, h₂⟩
      obtain ⟨-, rfl⟩ := child_inj (Channel.up.inj hchild)
      refine ⟨rfl, fun m => ?_⟩
      simp [stored, Local.held, BattlePc.held]
    -- this read is of the pipe from the parent
    | readParent w => cases h
    | fork side | logRead side | write side => cases side <;> cases h
    | _ => cases h

/-- A battle answers a child. -/
theorem answer_down (h : program rows p l = .send (.down (child b side)) m l') :
    p = .battle b ∧ l.held side = .reply m ∧ l'.held side = .free := by
  rcases sender_eq h with hp | ⟨a, ha⟩
  · rw [sender, parentOf_child] at hp
    cases Option.some.inj hp
    refine ⟨rfl, ?_⟩
    cases l with
    | player pc P hp logp => cases h
    | battle pc left right =>
      cases pc with
      -- the answers of a round go to both sides, the relayed one to the winner's side
      | write side' =>
        cases side' with
        | left =>
          obtain ⟨hchild, rfl, rfl⟩ : Channel.down (child b .left) = .down (child b side) ∧
              left = m ∧ _ = l' := by
            injection h with h₁ h₂ h₃
            exact ⟨h₁, h₂, h₃⟩
          obtain ⟨-, rfl⟩ := child_inj (Channel.down.inj hchild)
          exact ⟨rfl, rfl⟩
        | right =>
          obtain ⟨hchild, rfl, rfl⟩ : Channel.down (child b .right) = .down (child b side) ∧
              right = m ∧ _ = l' := by
            injection h with h₁ h₂ h₃
            exact ⟨h₁, h₂, h₃⟩
          obtain ⟨-, rfl⟩ := child_inj (Channel.down.inj hchild)
          -- the answer to the right side ends the round
          exact ⟨rfl, held_roundEnd ..⟩
      | sendDown w =>
        obtain ⟨hchild, rfl, rfl⟩ : Channel.down (child b w) = .down (child b side) ∧
            pick w left right = m ∧ _ = l' := by
          injection h with h₁ h₂ h₃
          exact ⟨h₁, h₂, h₃⟩
        obtain ⟨-, rfl⟩ := child_inj (Channel.down.inj hchild)
        refine ⟨?_, held_passing ..⟩
        simp [Local.held, BattlePc.held]
      | sendUp w => cases h
      | fork side | logRead side => cases side <;> cases h
      | _ => cases h
  · cases ha

/-- A child takes the status back. -/
theorem take_down (h : program rows p l = .recv (.down q) k) :
    p = q ∧ (∃ m, l.pending = some m) ∧ ∀ m, (k m).pending = none := by
  have hp : some q = some p := receiver_eq h
  cases Option.some.inj hp
  refine ⟨rfl, ?_⟩
  cases p with
  | battle b =>
    cases l with
    | player pc P hp logp => cases h
    | battle pc left right =>
      cases pc with
      -- the relay that has asked
      | readParent w =>
        cases h
        exact ⟨⟨_, rfl⟩, fun m => rfl⟩
      | fork side | logRead side | write side => cases side <;> cases h
      | _ => cases h
  | player i =>
    cases l with
    | battle pc left right => cases h
    | player pc P hp logp =>
      cases pc with
      | receive =>
        cases h
        exact ⟨⟨_, rfl⟩, fun m => rfl⟩
      | _ => cases h

/-- Nothing else changes what a child waits for. -/
theorem keep_pending (h : (program rows p l).LeadsTo l') :
    l'.pending = l.pending ∨ (∃ m, program rows p l = .send (.up p) m l') ∨
      ∃ k, program rows p l = .recv (.down p) k := by
  cases p with
  | battle b =>
    cases l with
    -- of a battle, only the relay's write and read of its parent's pipes change `pending`
    | player pc P hp logp => cases h
    | battle pc left right =>
      cases pc with
      | sendUp w =>
        cases h
        exact .inr (.inl ⟨_, rfl⟩)
      | readParent w => exact .inr (.inr ⟨_, rfl⟩)
      | read side | readChild w =>
        obtain ⟨m, rfl⟩ := h
        exact .inl rfl
      | fork side | logRead side => cases side <;> cases h <;> exact .inl rfl
      | write side =>
        cases side <;> cases h
        · exact .inl rfl
        · exact .inl (pending_roundEnd ..)
      | waitLoser w | sendDown w =>
        cases h
        exact .inl (pending_passing ..)
      | exited w => cases h
      | _ =>
        cases h
        exact .inl rfl
  | player i =>
    cases l with
    | battle pc left right => cases h
    | player pc P hp logp =>
      cases pc with
      -- of a player, the write of its status and the read of the answer
      | send =>
        cases h
        exact .inr (.inl ⟨_, rfl⟩)
      | receive => exact .inr (.inr ⟨_, rfl⟩)
      | readFifo =>
        obtain ⟨m, rfl⟩ := h
        exact .inl rfl
      | unborn =>
        cases h
        refine .inl ?_
        unfold playerStart
        split
        · exact pending_turn ..
        · rfl
      | logFifo | logReceived =>
        cases h
        exact .inl (pending_turn ..)
      | exited => cases h
      | _ =>
        cases h
        exact .inl rfl

/-- **A child and its parent** are client and server. -/
theorem link (rows : Fin 8 → Row) (b : Battle) (side : Side) :
    Link (program rows) (child b side) (.battle b) (.up (child b side)) (.down (child b side))
      Local.pending (Local.held side) where
  ne := child_ne b side
  up_ne := by simp
  ask _ _ _ _ := ask_up
  accept _ _ _ := accept_up
  answer _ _ _ _ := answer_down
  take _ _ _ := take_down
  keep _ _ := keep_pending

/-! ### Whose status it is -/

/-- The status `P` is one of real player `i`. -/
structure Of (rows : Fin 8 → Row) (i : Fin 8) (P : Status) : Prop where
  real_player_id : P.real_player_id = i.val
  ATK : P.ATK = (rows i).ATK
  attr : P.attr = (rows i).attr

/-- A status with which a battle can start. -/
structure Fresh (rows : Fin 8 → Row) (P : Status) : Prop where
  of : ∃ i, Of rows i P ∧ P.HP ≤ (rows i).HP
  pos : 1 ≤ P.HP
  flag : P.battle_ended_flag ≠ 1

/-- What comes back to a player that has sent `P`. -/
structure Returned (P m : Status) : Prop extends P.SamePlayer m where
  le : m.HP ≤ P.HP
  alive : m.battle_ended_flag ≠ 1 → 1 ≤ m.HP

/-- Hit points and attack power are in range. -/
structure InRange (rows : Fin 8 → Row) : Prop where
  HP : ∀ i, 1 ≤ (rows i).HP ∧ (rows i).HP < 2 ^ 30
  ATK : ∀ i, 1 ≤ (rows i).ATK ∧ (rows i).ATK < 2 ^ 30

/-- What the place where a player stands says about its status. -/
def PlayerPc.Demands : PlayerPc → Status → ℤ → Prop
  | .logSend, P, _ | .send, P, _ | .receive, P, _ => 1 ≤ P.HP ∧ P.battle_ended_flag ≠ 1
  | .logReceived, P, _ => P.battle_ended_flag ≠ 1 → 1 ≤ P.HP
  | .logFifo, P, hp | .logHand _, P, hp | .openWrite _, P, hp | .waitReader _, P, hp
  | .writeFifo _, P, hp => P.HP = hp
  | _, _, _ => True

/-- The variables of a player. -/
structure OkPlayer (rows : Fin 8 → Row) (pc : PlayerPc) (P : Status) (hp logp : ℤ) : Prop where
  of : pc.playing = true → ∃ i, Of rows i P ∧ P.HP ≤ hp ∧ hp = (rows i).HP ∧ logp = i.val
  demands : pc.Demands P hp

/-- The variables of a battle. -/
structure OkBattle (rows : Fin 8 → Row) (b : Battle) (l : Local) : Prop where
  fresh : ∀ side m, l.held side = .request m → Fresh rows m
  root : b = .A → AtRoot l

/-- The variables of a process. -/
def Ok (rows : Fin 8 → Row) : Proc → Local → Prop
  | .battle b, .battle pc left right => OkBattle rows b (.battle pc left right)
  | .player _, .player pc P hp logp => OkPlayer rows pc P hp logp
  | _, _ => False

/-- A battle keeps the player, the attack power and the attribute of a status. -/
theorem Of.returned {i : Fin 8} (h : Of rows i P) (hm : Returned P m) : Of rows i m :=
  ⟨hm.real_player_id.trans h.real_player_id, hm.ATK.trans h.ATK, hm.attr.trans h.attr⟩

/-- Who sends a fresh status is alive. -/
theorem Fresh.alive (hrows : InRange rows) (h : Fresh rows P) : P.Alive := by
  obtain ⟨⟨i, hi, -⟩, hpos, -⟩ := h
  exact ⟨hpos, hi.ATK ▸ (hrows.ATK i).1⟩

/-- What a child waits for is fresh. -/
theorem Ok.pending (h : Ok rows p l) (hpending : l.pending = some m) : Fresh rows m := by
  cases p with
  | battle b =>
    cases l with
    | player pc P hp logp => exact h.elim
    | battle pc left right =>
      -- the request that a battle has passed on is one that it holds
      cases pc with
      | readParent w =>
        cases hpending
        exact h.fresh w _ (by simp [Local.held, BattlePc.held])
      | _ => cases hpending
  | player i =>
    cases l with
    | battle pc left right => exact h.elim
    | player pc P hp logp =>
      cases pc with
      -- the request of a player is its own status
      | receive =>
        cases hpending
        obtain ⟨i, hi, hle, hhp, -⟩ := h.of rfl
        exact ⟨⟨i, hi, hhp ▸ hle⟩, h.demands.1, h.demands.2⟩
      | _ => cases hpending

/-! ### One step -/

/-- Half of what a player has lost. -/
theorem recover_range {HP hp : ℤ} (hpos : 1 ≤ HP) (hle : HP ≤ hp) :
    1 ≤ HP + (hp - HP).tdiv 2 ∧ HP + (hp - HP).tdiv 2 ≤ hp := by
  rw [Int.tdiv_eq_ediv_of_nonneg (by omega)]
  omega

/-- **The head of the player's loop**, with a status that has come back. -/
theorem ok_turn {i : Fin 8} (hof : Of rows i m) (hle : m.HP ≤ hp)
    (hhp : hp = (rows i).HP) (hlogp : logp = i.val)
    (halive : m.battle_ended_flag ≠ 1 → 1 ≤ m.HP) (p : Fin 15) :
    Ok rows (.player p) (turn m hp logp) := by
  have hof' (HP flag : ℤ) : Of rows i { m with HP := HP, battle_ended_flag := flag } :=
    ⟨hof.real_player_id, hof.ATK, hof.attr⟩
  unfold turn
  dsimp only
  split_ifs with hflag hdead
  · exact ⟨fun _ => ⟨i, hof, hle, hhp, hlogp⟩, halive hflag, hflag⟩
  · split
    · exact ⟨fun _ => ⟨i, hof' _ _, le_rfl, hhp, hlogp⟩, rfl⟩
    · exact ⟨fun _ => ⟨i, hof' _ _, hle, hhp, hlogp⟩, trivial⟩
  · exact ⟨fun _ => ⟨i, hof' _ _, hle, hhp, hlogp⟩, trivial⟩
  · obtain ⟨hpos, hle'⟩ := recover_range (show 1 ≤ m.HP by omega) hle
    exact ⟨fun _ => ⟨i, hof' _ _, hle', hhp, hlogp⟩, hpos, by simp⟩

/-- A step of a player that does not read. -/
theorem ok_player_step (hrows : InRange rows) {pc : PlayerPc} (h : OkPlayer rows pc P hp logp)
    (hread : pc ≠ .receive ∧ pc ≠ .readFifo)
    (hlead : (playerProgram rows i pc P hp logp).LeadsTo l') : Ok rows (.player i) l' := by
  cases pc with
  | receive => exact absurd rfl hread.1
  | readFifo => exact absurd rfl hread.2
  -- a real player starts with its row, an agent with a status it will read
  | unborn =>
    cases hlead
    unfold playerStart
    split
    · rename_i hi
      exact ok_turn (i := ⟨i, hi⟩) ⟨rfl, rfl, rfl⟩ le_rfl rfl rfl (fun _ => (hrows.HP _).1) i
    · exact ⟨fun h => (by cases h), trivial⟩
  | openRead | waitWriter =>
    cases hlead
    exact ⟨fun h => (by cases h), trivial⟩
  -- the status that was read from the FIFO is that of a full player
  | logFifo =>
    cases hlead
    obtain ⟨j, hj, hle, hhp, hlogp⟩ := h.of rfl
    have hfull : P.HP = hp := h.demands
    exact ok_turn hj hle hhp hlogp (fun _ => by rw [hfull, hhp]; exact (hrows.HP j).1) i
  | logReceived =>
    cases hlead
    obtain ⟨j, hj, hle, hhp, hlogp⟩ := h.of rfl
    exact ok_turn hj hle hhp hlogp h.demands i
  | logSend | send | logHand a | openWrite a | waitReader a =>
    cases hlead
    exact ⟨h.of, h.demands⟩
  | writeFifo a | exit =>
    cases hlead
    exact ⟨h.of, trivial⟩
  | exited => cases hlead

/-- A battle gets requests from its children only. -/
theorem held_request {left right : Status} {pc : BattlePc}
    (hlead : (battleProgram b pc left right).LeadsTo l') (hheld : l'.held side = .request m) :
    pc.held side left right = .request m ∨
      ∃ k, battleProgram b pc left right = .recv (.up (child b side)) k ∧ l' = k m := by
  cases pc with
  | unborn =>
    cases hlead
    cases hheld
  | fork side' => cases side' <;> cases hlead <;> cases hheld
  | read side' =>
    obtain ⟨m', rfl⟩ := hlead
    rcases side_cases side side' with rfl | rfl
    · -- the side that is read: what it holds is the message
      refine .inr ⟨_, rfl, ?_⟩
      cases side <;> cases hheld <;> rfl
    · cases side' with
      | left => cases hheld
      | right => exact .inl hheld
  | logRead side' =>
    cases side' with
    | left =>
      cases hlead
      exact .inl hheld
    | right =>
      cases hlead
      cases hheld
  | logWrite side' =>
    cases hlead
    cases side' <;> cases side <;> cases hheld
  | write side' =>
    cases side' with
    | left =>
      cases hlead
      cases side <;> cases hheld
    | right =>
      cases hlead
      -- a new round holds no request yet
      rw [held_roundEnd] at hheld
      cases hheld
  | waitLoser w | sendDown w =>
    cases hlead
    rw [held_passing] at hheld
    cases hheld
  -- the relay's read of its winner
  | readChild w =>
    obtain ⟨m', rfl⟩ := hlead
    rcases side_cases side w with rfl | rfl
    · refine .inr ⟨_, rfl, ?_⟩
      simp only [stored, Local.held, BattlePc.held, if_true, pick_put, Held.request.injEq] at hheld
      rw [hheld]
    · rw [stored, Local.held, BattlePc.held, if_neg (by cases w <;> decide)] at hheld
      cases hheld
  | logChild w | logUp w | sendUp w =>
    cases hlead
    exact .inl hheld
  | readParent w =>
    obtain ⟨m', rfl⟩ := hlead
    rw [stored, Local.held, BattlePc.held] at hheld
    split at hheld <;> cases hheld
  | logParent w | logDown w =>
    cases hlead
    exact .inl hheld
  | waitWinner w | print w | reapWinner w | reapLoser w | exit w =>
    cases hlead
    cases hheld
  | exited w => cases hlead

/-- The attack answers both children; who has not ended the battle is alive. -/
theorem serves_attack {left right : Status} (b : Battle) (side : Side) (hl : left.Alive) (hr : right.Alive) :
    Serves Returned (.request (pick side left right))
      (.reply (pick side (attack b left right).1 (attack b left right).2)) := by
  have hround := attack_spec b hl hr
  have halive : (attack b left right).1.battle_ended_flag ≠ 1 ∨
      (attack b left right).2.battle_ended_flag ≠ 1 →
      (attack b left right).1.Alive ∧ (attack b left right).2.Alive := by
    -- a status without the end flag is of a battle that goes on, where both are alive
    intro hflag
    cases hend : ended (attack b left right).1 (attack b left right).2 with
    | true =>
      obtain ⟨-, hflagl, hflagr⟩ := hround.atEnd hend
      exact (hflag.elim (fun h => h hflagl) fun h => h hflagr).elim
    | false => exact ⟨(hround.goes_on hend).1, (hround.goes_on hend).2.1⟩
  cases side with
  | left =>
    exact .answer ⟨hround.left.toSamePlayer, hround.left.le, fun h => (halive (.inl h)).1.HP⟩
  | right =>
    exact .answer ⟨hround.right.toSamePlayer, hround.right.le, fun h => (halive (.inr h)).2.HP⟩

/-- What a battle does with the status of a child. -/
theorem serves (hrows : InRange rows) {left right : Status} {pc : BattlePc}
    (hok : OkBattle rows b (.battle pc left right))
    (hlead : (battleProgram b pc left right).LeadsTo l')
    (hup : ¬ (battleProgram b pc left right).Uses (.up (child b side)))
    (hdown : ¬ (battleProgram b pc left right).Uses (.down (child b side)))
    (hparent : ∀ w m, pc = .readParent w → l' = stored (.logParent w) w left right m →
      Returned (pick w left right) m) :
    Serves Returned (pc.held side left right) (l'.held side) := by
  cases pc with
  | unborn | waitWinner w | print w | reapWinner w | reapLoser w | exit w | logChild w | logUp w
  | sendUp w | logParent w | logDown w =>
    cases hlead
    exact .same _
  | fork side' => cases side' <;> cases hlead <;> exact .same _
  | read side' =>
    -- the two sides are served by different pipes
    obtain ⟨m, rfl⟩ := hlead
    rcases side_cases side side' with rfl | rfl
    · exact absurd (.inr ⟨_, rfl⟩) hup
    · cases side' <;> exact .same _
  | logRead side' =>
    cases side' with
    | left =>
      cases hlead
      exact .same _
    | right =>
      -- both statuses are there: the attack turns the requests into the replies
      cases hlead
      have hl := (hok.fresh .left left rfl).alive hrows
      have hr := (hok.fresh .right right rfl).alive hrows
      cases side with
      | left => exact serves_attack b .left hl hr
      | right => exact serves_attack b .right hl hr
  | logWrite side' =>
    cases hlead
    cases side' <;> exact .same _
  | write side' =>
    cases side' with
    | left =>
      cases hlead
      cases side with
      | left => exact absurd (.inl ⟨_, _, rfl⟩) hdown
      | right => exact .same _
    | right =>
      cases hlead
      cases side with
      | left =>
        rw [held_roundEnd]
        exact .same _
      | right => exact absurd (.inl ⟨_, _, rfl⟩) hdown
  | waitLoser w =>
    cases hlead
    rw [held_passing]
    exact .same _
  | readChild w =>
    obtain ⟨m, rfl⟩ := hlead
    rcases side_cases side w with rfl | rfl
    · exact absurd (.inr ⟨_, rfl⟩) hup
    · rw [stored, Local.held, BattlePc.held, if_neg (by cases w <;> decide)]
      exact .same _
  -- the reply of the parent answers the request that was sent up
  | readParent w =>
    obtain ⟨m, rfl⟩ := hlead
    rw [stored, Local.held, BattlePc.held, BattlePc.held]
    split
    · subst side
      rw [pick_put]
      exact .answer (hparent w m rfl rfl)
    · exact .same _
  | sendDown w =>
    cases hlead
    rw [held_passing]
    rcases side_cases side w with rfl | rfl
    · exact absurd (.inl ⟨_, _, rfl⟩) hdown
    · rw [BattlePc.held, if_neg (by cases w <;> decide)]
      exact .same _
  | exited w => cases hlead

/-! ### The whole network -/

/-- What holds of all statuses. -/
structure Traffic (rows : Fin 8 → Row) (s : Tournament) : Prop where
  sound : ∀ p, Sound p (s.loc p)
  ok : ∀ p, Ok rows p (s.loc p)
  edge : ∀ b side, Link.EdgeAt Returned (child b side) (.battle b) (.up (child b side))
    (.down (child b side)) Local.pending (Local.held side) s
  fifo : ∀ a, ∀ m ∈ s.chan (.fifo a), ∃ i, Of rows i m ∧ m.HP = (rows i).HP
  top : s.chan (.up (.battle .A)) = [] ∧ s.chan (.down (.battle .A)) = []

/-- At the start there is no status yet. -/
theorem traffic_start (rows : Fin 8 → Row) : Traffic rows start where
  sound := sound_start
  ok p := by
    cases p with
    | battle b => exact ⟨fun side m h => (by cases h), fun _ => ⟨_, _, _, rfl, rfl⟩⟩
    | player i => exact ⟨fun h => (by cases h), trivial⟩
  edge b side := by
    have hpending : (start.loc (child b side)).pending = none := by
      cases child b side <;> rfl
    show Edge Returned (start.loc (child b side)).pending [] .free []
    rw [hpending]
    exact .idle
  fifo a m hm := by cases hm
  top := ⟨rfl, rfl⟩

/-- A request on its way to a battle is fresh. -/
theorem Traffic.fresh_up (h : Traffic rows s) (hm : m ∈ s.chan (.up (child b side))) :
    Fresh rows m := by
  have hpending : (s.loc (child b side)).pending = some m := (h.edge b side).of_up hm
  exact (h.ok _).pending hpending

/-- A reply on its way to a child is a reply to what the child has sent. -/
theorem Traffic.returned_down (h : Traffic rows s) (hp : parentOf p = some q)
    (hm : m ∈ s.chan (.down p)) : ∃ P, (s.loc p).pending = some P ∧ Returned P m := by
  obtain ⟨b, side, rfl, rfl⟩ := eq_child_of_parentOf hp
  exact (h.edge b side).of_down hm

/-- The variables of a battle after its step. -/
theorem Traffic.ok_battle (h : Traffic rows s)
    (hstep : step (program rows) s (.battle b) = some s') :
    Ok rows (.battle b) (s'.loc (.battle b)) := by
  have hok := h.ok (.battle b)
  have hsound := (stable_sound rows (.battle b)).step hstep (h.sound _)
  obtain ⟨x, l, hx, rfl⟩ := step_eq_some.mp hstep
  have hlead := Action.leadsTo_of_effect hx
  simp only [Function.update_self] at hsound ⊢
  generalize hloc : s.loc (.battle b) = l₀ at hx hlead hok
  cases l₀ with
  | player pc P hp logp => exact hok.elim
  | battle pc left right =>
    cases l with
    | player pc' P hp logp => exact hsound.elim
    | battle pc' left' right' =>
      refine ⟨fun side m hheld => ?_, fun hb => ?_⟩
      · -- a request that is held was held before, or has just been taken from the pipe
        rcases held_request hlead hheld with hold | ⟨k, hrecv, -⟩
        · exact hok.fresh side m hold
        · rw [show program rows (.battle b) (.battle pc left right) = _ from hrecv] at hx
          obtain ⟨m', ms, hcons, -, heq⟩ := effect_recv.mp hx
          have hrecv' : program rows (.battle b) (.battle pc left right) = _ := hrecv
          obtain ⟨-, -, hreq⟩ := accept_up hrecv'
          rw [heq, hreq m'] at hheld
          cases hheld
          exact h.fresh_up (by rw [hcons]; exact List.mem_cons_self)
      · subst hb
        exact (root_step (hok.root rfl) hlead).1

/-- The variables of a player after its step. -/
theorem Traffic.ok_player (hrows : InRange rows) (h : Traffic rows s)
    (hstep : step (program rows) s (.player i) = some s') :
    Ok rows (.player i) (s'.loc (.player i)) := by
  have hok := h.ok (.player i)
  obtain ⟨x, l, hx, rfl⟩ := step_eq_some.mp hstep
  have hlead := Action.leadsTo_of_effect hx
  simp only [Function.update_self]
  generalize hloc : s.loc (.player i) = l₀ at hx hlead hok
  cases l₀ with
  | battle pc left right => exact hok.elim
  | player pc P hp logp =>
    by_cases hreceive : pc = .receive
    · -- the answer has the id of the status that was sent, and no more HP
      subst hreceive
      obtain ⟨m, ms, hcons, -, rfl⟩ := effect_recv.mp hx
      obtain ⟨P', hpending, hreturned⟩ := h.returned_down (p := .player i) (m := m) rfl
        (by rw [hcons]; exact List.mem_cons_self)
      rw [hloc] at hpending
      cases hpending
      obtain ⟨j, hj, hle, hhp, hlogp⟩ := hok.of rfl
      exact ⟨fun _ => ⟨j, hj.returned hreturned, hreturned.le.trans hle, hhp, hlogp⟩,
        hreturned.alive⟩
    · by_cases hread : pc = .readFifo
      · -- an agent takes over a loser
        subst hread
        obtain ⟨m, ms, hcons, -, rfl⟩ := effect_recv.mp hx
        obtain ⟨j, hj, hHP⟩ := h.fifo (.player i) m (by rw [hcons]; exact List.mem_cons_self)
        exact ⟨fun _ => ⟨j, hj, le_rfl, hHP, hj.real_player_id⟩, rfl⟩
      · exact ok_player_step hrows hok ⟨hreceive, hread⟩ hlead

/-- Only the root has no parent. -/
theorem eq_root_of_parentOf (h : parentOf q = none) : q = .battle .A := by
  revert q
  decide

/-- A link after a step. -/
theorem Traffic.edge_step (hrows : InRange rows) (h : Traffic rows s)
    (hstep : step (program rows) s p = some s') (b : Battle) (side : Side) :
    Link.EdgeAt Returned (child b side) (.battle b) (.up (child b side)) (.down (child b side))
      Local.pending (Local.held side) s' := by
  apply (link rows b side).step (h.edge b side) hstep
  intro hp hup hdown
  subst hp
  have hok := h.ok (.battle b)
  obtain ⟨x, l, hx, rfl⟩ := step_eq_some.mp hstep
  have hlead := Action.leadsTo_of_effect hx
  simp only [Function.update_self]
  generalize hloc : s.loc (.battle b) = l₀ at hx hlead hok hup hdown
  cases l₀ with
  | player pc P hp logp => exact hok.elim
  | battle pc left right =>
    apply serves hrows hok hlead hup hdown
    intro w m hpc heq
    -- a battle in passing mode has its reply from its own link
    subst hpc
    obtain ⟨m', ms, hcons, -, rfl⟩ := effect_recv.mp hx
    have hm : m = m' := by
      have hpick := congrArg (fun l => match l with
        | .battle _ left right => pick w left right
        | .player _ P _ _ => P) heq
      simpa [stored] using hpick.symm
    subst hm
    cases hup' : parentOf (.battle b) with
    | none =>
      obtain ⟨pc, left', right', hroot, hpc⟩ := hok.root (by cases eq_root_of_parentOf hup'; rfl)
      cases hroot
      cases hpc
    | some q =>
      obtain ⟨P, hpending, hreturned⟩ := h.returned_down (m := m) hup'
        (by rw [hcons]; exact List.mem_cons_self)
      rw [hloc] at hpending
      cases hpending
      exact hreturned

/-- Only losers write to the FIFOs. -/
theorem writeFifo_of_send (h : program rows p l = .send (.fifo q) m l') :
    ∃ a hp logp, l = .player (.writeFifo a) m hp logp := by
  cases p with
  | battle b =>
    cases l with
    | player pc P hp logp => cases h
    | battle pc left right =>
      -- a battle writes to its pipes only
      cases pc with
      | fork side | logRead side | write side => cases side <;> cases h
      | _ => cases h
  | player i =>
    cases l with
    | battle pc left right => cases h
    | player pc P hp logp =>
      cases pc with
      | writeFifo a =>
        cases h
        exact ⟨_, _, _, rfl⟩
      | _ => cases h

/-- The FIFOs after a step. -/
theorem Traffic.fifo_step (h : Traffic rows s) (hstep : step (program rows) s p = some s')
    (hm : m ∈ s'.chan (.fifo q)) : ∃ i, Of rows i m ∧ m.HP = (rows i).HP := by
  obtain ⟨x, l, hx, rfl⟩ := step_eq_some.mp hstep
  change m ∈ x.chan (.fifo q) at hm
  by_cases huses : (program rows p (s.loc p)).Uses (.fifo q)
  · rcases huses with ⟨m', l', heq⟩ | ⟨k, heq⟩
    · have hok := h.ok p
      rw [heq] at hx
      cases hx
      change m ∈ Function.update s.chan (.fifo q) (s.chan (.fifo q) ++ [m']) (.fifo q) at hm
      rw [Function.update_self] at hm
      rcases List.mem_append.mp hm with hm | hm
      · exact h.fifo q m hm
      · -- the status of a loser has been restored
        rw [List.mem_singleton] at hm
        subst hm
        obtain ⟨a, hp, logp, hloc⟩ := writeFifo_of_send heq
        rw [hloc] at hok
        cases p with
        | battle b => exact hok.elim
        | player i =>
          obtain ⟨j, hj, -, hhp, -⟩ := hok.of rfl
          exact ⟨j, hj, Eq.trans hok.demands hhp⟩
    · -- a read leaves less in the FIFO
      rw [heq] at hx
      obtain ⟨m', ms, hcons, rfl, -⟩ := effect_recv.mp hx
      change m ∈ Function.update s.chan (.fifo q) ms (.fifo q) at hm
      rw [Function.update_self] at hm
      exact h.fifo q m (by rw [hcons]; exact List.mem_cons_of_mem _ hm)
  · rw [effect_chan hx huses] at hm
    exact h.fifo q m hm

/-- The root has no pipes of its own. -/
theorem Traffic.top_step (h : Traffic rows s) (hstep : step (program rows) s p = some s') :
    s'.chan (.up (.battle .A)) = [] ∧ s'.chan (.down (.battle .A)) = [] := by
  have hok := h.ok p
  obtain ⟨x, l, hx, rfl⟩ := step_eq_some.mp hstep
  have hup : ¬ (program rows p (s.loc p)).Uses (.up (.battle .A)) := by
    rintro (⟨m, l', heq⟩ | ⟨k, heq⟩)
    · -- the root is never about to send up
      obtain ⟨rfl, -, hpending⟩ := ask_up heq
      generalize s.loc (.battle .A) = l₀ at heq hok
      cases l₀ with
      | player pc P hp logp => cases heq
      | battle pc left right =>
        obtain ⟨pc', left', right', hroot, hpc⟩ := hok.root rfl
        cases hroot
        cases pc with
        | sendUp w => cases hpc
        | fork side | logRead side | write side => cases side <;> cases heq
        | _ => cases heq
    · exact absurd (receiver_eq heq) (by simp [receiver, parentOf, parent])
  have hdown : ¬ (program rows p (s.loc p)).Uses (.down (.battle .A)) := by
    rintro (⟨m, l', heq⟩ | ⟨k, heq⟩)
    · rcases sender_eq heq with hp | ⟨a, ha⟩
      · simp [sender, parentOf, parent] at hp
      · cases ha
    · -- the root has sent nothing up, so it waits for no answer
      obtain ⟨rfl, ⟨m, hpending⟩, -⟩ := take_down heq
      generalize s.loc (.battle .A) = l₀ at hpending hok
      cases l₀ with
      | player pc P hp logp => exact hok.elim
      | battle pc left right =>
        obtain ⟨pc', left', right', hroot, hpc⟩ := hok.root rfl
        cases hroot
        cases pc with
        | readParent w => cases hpc
        | _ => cases hpending
  exact ⟨(effect_chan hx hup).trans h.top.1, (effect_chan hx hdown).trans h.top.2⟩

/-- **One step** keeps the traffic in order. -/
theorem Traffic.step (hrows : InRange rows) (h : Traffic rows s)
    (hstep : step (program rows) s p = some s') : Traffic rows s' where
  sound q := (stable_sound rows q).step hstep (h.sound q)
  ok q := by
    by_cases hq : q = p
    · subst hq
      cases q with
      | battle b => exact h.ok_battle hstep
      | player i => exact h.ok_player hrows hstep
    · obtain ⟨x, l, hx, rfl⟩ := step_eq_some.mp hstep
      simp only [Function.update_of_ne hq]
      exact h.ok q
  edge := h.edge_step hrows hstep
  fifo _ _ := h.fifo_step hstep
  top := h.top_step hstep

/-- **In every reachable state** the traffic is in order. -/
theorem traffic_of_reachable (hrows : InRange rows)
    (hs : Reachable (Network.step (program rows)) start s) : Traffic rows s :=
  hs.invariant (I := Traffic rows) (fun _ _ _ h hstep => h.step hrows hstep) (traffic_start rows)

end SystemProgramming.Championship
