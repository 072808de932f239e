import Mathlib.Data.Fintype.Sum
import SystemProgramming.Championship.Status
import SystemProgramming.Lib.Network

namespace SystemProgramming.Championship

open Network

/-!
# Championship — the processes

The 14 battles and 15 players as a network of deterministic processes.  A battle and a child of it
are connected by two pipes, named after the child: `up`, which the child writes, and `down`, which
it reads.  The FIFO of an agent is named after the agent.  Each `fork`, each return of `waitpid` and
each side of the two `open` calls on a FIFO is a flag: an event that happens once and is waited for.
`mkfifo` succeeds or finds the FIFO, so that the `open` after it always finds one.

* `playl` / `playr` / `parent` / `par` / `agent` — the tables of `battle.c` and `player.c`;
* `battleProgram` / `playerProgram` — the control flow of the two programs, one action at a time;
* `start` — the shell has started `./battle A 0`; nothing else exists.
-/

/-- There are players, so that numerals name them. -/
instance neZero_players : NeZero 15 := ⟨by decide⟩

/-- The processes: `./battle b` and `./player i`. -/
inductive Proc
  | battle (b : Battle)
  | player (i : Fin 15)
  deriving DecidableEq, Repr

/-- The processes can be enumerated. -/
instance : Fintype Proc :=
  Fintype.ofEquiv (Battle ⊕ Fin 15)
    { toFun := Sum.elim .battle .player
      invFun := fun
        | .battle b => .inl b
        | .player i => .inr i
      left_inv := fun p => by cases p <;> rfl
      right_inv := fun p => by cases p <;> rfl }

/-- The two children of a battle. -/
inductive Side
  | left
  | right
  deriving DecidableEq, Repr

/-- The side across. -/
def Side.other : Side → Side
  | left => right
  | right => left

/-- There are two sides. -/
instance : Fintype Side := Fintype.ofList [.left, .right] fun side => by cases side <;> decide

/-! ### The tables -/

/-- `playl` of `battle.c` -/
def playl : Battle → Proc
  | .A => .battle .B
  | .B => .battle .D
  | .C => .battle .F
  | .D => .battle .G
  | .E => .battle .I
  | .F => .battle .K
  | .G => .player 0
  | .H => .player 2
  | .I => .player 4
  | .J => .player 6
  | .K => .battle .M
  | .L => .battle .N
  | .M => .player 8
  | .N => .player 11

/-- `playr` of `battle.c` -/
def playr : Battle → Proc
  | .A => .battle .C
  | .B => .battle .E
  | .C => .player 14
  | .D => .battle .H
  | .E => .battle .J
  | .F => .battle .L
  | .G => .player 1
  | .H => .player 3
  | .I => .player 5
  | .J => .player 7
  | .K => .player 10
  | .L => .player 13
  | .M => .player 9
  | .N => .player 12

/-- `parent` of `battle.c`; `none` stands for `'0'`. -/
def parent : Battle → Option Battle
  | .A => none
  | .B => some .A
  | .C => some .A
  | .D => some .B
  | .E => some .B
  | .F => some .C
  | .G => some .D
  | .H => some .D
  | .I => some .E
  | .J => some .E
  | .K => some .F
  | .L => some .F
  | .M => some .K
  | .N => some .L

/-- `par` of `player.c` -/
def par : Fin 15 → Battle
  | 0 => .G
  | 1 => .G
  | 2 => .H
  | 3 => .H
  | 4 => .I
  | 5 => .I
  | 6 => .J
  | 7 => .J
  | 8 => .M
  | 9 => .M
  | 10 => .K
  | 11 => .N
  | 12 => .N
  | 13 => .L
  | 14 => .C

/-- The agent to which a player that has lost in a battle hands its status, if there is one. -/
def agent : Char → Option (Fin 15)
  | 'B' => some 14
  | 'D' => some 10
  | 'E' => some 13
  | 'G' => some 8
  | 'H' => some 11
  | 'I' => some 9
  | 'J' => some 12
  | _ => none

/-- The child on a side. -/
def child (b : Battle) : Side → Proc
  | .left => playl b
  | .right => playr b

/-! ### The network -/

/-- The pipes and FIFOs. -/
inductive Channel
  | up (child : Proc)
  | down (child : Proc)
  | fifo (agent : Proc)
  deriving DecidableEq, Repr

/-- What happens once and is waited for. -/
inductive Flag
  /-- The process has been forked. -/
  | forked (p : Proc)
  /-- The process has exited. -/
  | exited (p : Proc)
  /-- The FIFO of an agent has been opened for reading. -/
  | reading (agent : Proc)
  /-- The FIFO of an agent has been opened for writing. -/
  | writing (agent : Proc)
  deriving DecidableEq, Repr

inductive File
  | log_battle (b : Battle)
  | log_player (id : ℤ)
  | stdout
  deriving DecidableEq, Repr

/-- A line of a file, without process ids; the peer `none` is printed as `0`. -/
inductive Entry
  | pipeFrom (p : Proc) (peer : Option Proc) (id HP : ℤ) (battle : Char) (flag : ℤ)
  | pipeTo (p : Proc) (peer : Option Proc) (id HP : ℤ) (battle : Char) (flag : ℤ)
  | fifoTo (id : ℤ) (agent : Fin 15) (HP : ℤ)
  | fifoFrom (agent : Fin 15) (id HP : ℤ)
  | champion (id : ℤ)
  deriving DecidableEq, Repr

/-- The line for a status that has been read. -/
def lineFrom (p : Proc) (peer : Option Proc) (s : Status) : Entry :=
  .pipeFrom p peer s.real_player_id s.HP s.current_battle_id s.battle_ended_flag

/-- The line for a status that is about to be written. -/
def lineTo (p : Proc) (peer : Option Proc) (s : Status) : Entry :=
  .pipeTo p peer s.real_player_id s.HP s.current_battle_id s.battle_ended_flag

/-- Where a battle stands.  In passing mode, `w` is the side of the child that has won. -/
inductive BattlePc
  | unborn
  | fork (side : Side)
  -- the battle loop
  | read (side : Side)
  | logRead (side : Side)
  | logWrite (side : Side)
  | write (side : Side)
  -- passing mode
  | waitLoser (w : Side)
  | readChild (w : Side)
  | logChild (w : Side)
  | logUp (w : Side)
  | sendUp (w : Side)
  | readParent (w : Side)
  | logParent (w : Side)
  | logDown (w : Side)
  | sendDown (w : Side)
  | waitWinner (w : Side)
  -- the root
  | print (w : Side)
  | reapWinner (w : Side)
  | reapLoser (w : Side)
  | exit (w : Side)
  | exited (w : Side)
  deriving DecidableEq, Repr

/-- Where a player or an agent stands. -/
inductive PlayerPc
  | unborn
  -- the start of an agent
  | openRead
  | waitWriter
  | readFifo
  | logFifo
  -- the loop of a player
  | logSend
  | send
  | receive
  | logReceived
  -- a loser on its way to its agent
  | logHand (agent : Fin 15)
  | openWrite (agent : Fin 15)
  | waitReader (agent : Fin 15)
  | writeFifo (agent : Fin 15)
  | exit
  | exited
  deriving DecidableEq, Repr

/-- The local state of a process: where it stands, and its variables. -/
inductive Local
  | battle (pc : BattlePc) (left right : Status)
  | player (pc : PlayerPc) (P : Status) (hp logp : ℤ)
  deriving DecidableEq, Repr

/-- The actions of the processes. -/
abbrev Act := Action Channel Flag File Status Entry Local

/-! ### `battle.c` -/

/-- The variable for the child on a side. -/
def pick (side : Side) (left right : Status) : Status :=
  match side with
  | .left => left
  | .right => right

/-- The two variables after `s` has been read into the one for the child on `side`. -/
def put (side : Side) (left right s : Status) : Status × Status :=
  match side with
  | .left => (s, right)
  | .right => (left, s)

/-- A battle that stands at `pc` after `s` has been read into the variable for `side`. -/
def stored (pc : BattlePc) (side : Side) (left right s : Status) : Local :=
  .battle pc (put side left right s).1 (put side left right s).2

/-- What has been put on a side is found there. -/
@[simp] theorem pick_put (side : Side) (left right s : Status) :
    pick side (put side left right s).1 (put side left right s).2 = s := by
  cases side <;> rfl

/-- The other side is left alone. -/
@[simp] theorem pick_other_put (side : Side) (left right s : Status) :
    pick side.other (put side left right s).1 (put side left right s).2 =
      pick side.other left right := by
  cases side <;> rfl

/-- The head of the passing loop. -/
def passing (w : Side) (left right : Status) : Local :=
  let s := pick w left right
  if s.HP > 0 ∧ ¬ (s.current_battle_id = 'A' ∧ s.battle_ended_flag = 1) then
    .battle (.readChild w) left right
  else
    .battle (.waitWinner w) left right

/-- The end of a round. -/
def roundEnd (b : Battle) (left right : Status) : Local :=
  if ended left right then
    if b = .A then
      if right.HP > 0 then .battle (.print .right) left right
      else .battle (.print .left) left right
    else if right.HP ≤ 0 then .battle (.waitLoser .left) left right
    else .battle (.waitLoser .right) left right
  else
    .battle (.read .left) left right

/-- `battle.c` for battle `b`. -/
def battleProgram (b : Battle) (pc : BattlePc) (left right : Status) : Act :=
  let me := Proc.battle b
  let above := (parent b).map Proc.battle
  match pc with
  -- start: two forks
  | .unborn => .await (.forked me) (.battle (.fork .left) left right)
  | .fork .left => .raise (.forked (playl b)) (.battle (.fork .right) left right)
  | .fork .right => .raise (.forked (playr b)) (.battle (.read .left) left right)
  -- a round: read both sides, fight, write both sides
  | .read side => .recv (.up (child b side)) (stored (.logRead side) side left right)
  | .logRead .left =>
    .write (.log_battle b) (lineFrom me (playl b) left) (.battle (.read .right) left right)
  | .logRead .right =>
    .write (.log_battle b) (lineFrom me (playr b) right)
      (.battle (.logWrite .left) (attack b left right).1 (attack b left right).2)
  | .logWrite side =>
    .write (.log_battle b) (lineTo me (child b side) (pick side left right))
      (.battle (.write side) left right)
  | .write .left => .send (.down (playl b)) left (.battle (.logWrite .right) left right)
  | .write .right => .send (.down (playr b)) right (roundEnd b left right)
  -- then the statuses of the winner are passed up and down
  | .waitLoser w => .await (.exited (child b w.other)) (passing w left right)
  | .readChild w => .recv (.up (child b w)) (stored (.logChild w) w left right)
  | .logChild w =>
    .write (.log_battle b) (lineFrom me (child b w) (pick w left right))
      (.battle (.logUp w) left right)
  | .logUp w =>
    .write (.log_battle b) (lineTo me above (pick w left right)) (.battle (.sendUp w) left right)
  | .sendUp w => .send (.up me) (pick w left right) (.battle (.readParent w) left right)
  | .readParent w => .recv (.down me) (stored (.logParent w) w left right)
  | .logParent w =>
    .write (.log_battle b) (lineFrom me above (pick w left right)) (.battle (.logDown w) left right)
  | .logDown w =>
    .write (.log_battle b) (lineTo me (child b w) (pick w left right))
      (.battle (.sendDown w) left right)
  | .sendDown w => .send (.down (child b w)) (pick w left right) (passing w left right)
  -- the winner's side has exited; only the root prints
  | .waitWinner w => .await (.exited (child b w)) (.battle (.exit w) left right)
  | .print w =>
    .write .stdout (.champion (pick w left right).real_player_id)
      (.battle (.reapWinner w) left right)
  | .reapWinner w => .await (.exited (child b w)) (.battle (.reapLoser w) left right)
  | .reapLoser w => .await (.exited (child b w.other)) (.battle (.exit w) left right)
  | .exit w => .raise (.exited me) (.battle (.exited w) left right)
  | .exited _ => .halt

/-! ### `player.c` -/

/-- The loops of a player after `P` has been set: send it, or act on the end of a battle. -/
def turn (P : Status) (hp logp : ℤ) : Local :=
  if P.battle_ended_flag ≠ 1 then
    .player .logSend P hp logp
  else
    let P := { P with battle_ended_flag := 0 }
    if P.HP ≤ 0 then
      match agent P.current_battle_id with
      | some a => .player (.logHand a) { P with HP := hp } hp logp
      | none => .player .exit P hp logp
    else if P.current_battle_id = 'A' then
      .player .exit P hp logp
    else
      .player .logSend { P with HP := P.HP + (hp - P.HP).tdiv 2 } hp logp

/-- A row of `player_status.txt`. -/
structure Row where
  HP : ℤ
  ATK : ℤ
  attr : Attribute
  current_battle_id : Char
  battle_ended_flag : ℤ

/-- The status of real player `i`. -/
def realStatus (rows : Fin 8 → Row) (i : Fin 8) : Status :=
  { real_player_id := i.val
    HP := (rows i).HP
    ATK := (rows i).ATK
    attr := (rows i).attr
    current_battle_id := (rows i).current_battle_id
    battle_ended_flag := (rows i).battle_ended_flag }

/-- A player after it has been forked. -/
def playerStart (rows : Fin 8 → Row) (i : Fin 15) (P : Status) (hp logp : ℤ) : Local :=
  if h : i.val < 8 then
    turn (realStatus rows ⟨i, h⟩) (realStatus rows ⟨i, h⟩).HP i.val
  else
    .player .openRead P hp logp

/-- `player.c` for player `i`. -/
def playerProgram (rows : Fin 8 → Row) (i : Fin 15) (pc : PlayerPc) (P : Status) (hp logp : ℤ) :
    Act :=
  let me := Proc.player i
  match pc with
  | .unborn => .await (.forked me) (playerStart rows i P hp logp)
  -- `openRead`, `waitWriter` and `openWrite`, `waitReader` are the two ends of opening a FIFO
  | .openRead => .raise (.reading me) (.player .waitWriter P hp logp)
  | .waitWriter => .await (.writing me) (.player .readFifo P hp logp)
  | .readFifo => .recv (.fifo me) fun s => .player .logFifo s s.HP s.real_player_id
  | .logFifo =>
    .write (.log_player logp) (.fifoFrom i P.real_player_id P.HP) (turn P hp logp)
  | .logSend =>
    .write (.log_player logp) (lineTo me (some (.battle (par i))) P) (.player .send P hp logp)
  | .send => .send (.up me) P (.player .receive P hp logp)
  | .receive => .recv (.down me) fun s => .player .logReceived s hp logp
  -- the reply decides what follows: the next round, the next battle or the exit
  | .logReceived =>
    .write (.log_player logp) (lineFrom me (some (.battle (par i))) P) (turn P hp logp)
  | .logHand a =>
    .write (.log_player logp) (.fifoTo P.real_player_id a P.HP) (.player (.openWrite a) P hp logp)
  | .openWrite a => .raise (.writing (.player a)) (.player (.waitReader a) P hp logp)
  | .waitReader a => .await (.reading (.player a)) (.player (.writeFifo a) P hp logp)
  | .writeFifo a => .send (.fifo (.player a)) P (.player .exit P hp logp)
  | .exit => .raise (.exited me) (.player .exited P hp logp)
  | .exited => .halt

/-! ### The tournament -/

/-- What each process does next. -/
def program (rows : Fin 8 → Row) : Proc → Local → Act
  | .battle b, .battle pc left right => battleProgram b pc left right
  | .player i, .player pc P hp logp => playerProgram rows i pc P hp logp
  | _, _ => .halt

/-- A variable that has not been assigned. -/
def unset : Status := ⟨0, 0, 0, .FIRE, 'A', 0⟩

/-- The local states of the processes, the pipes, the flags and the files. -/
abbrev Tournament := State Proc Channel Flag File Status Entry Local

/-- The root has been started; nothing has been written. -/
def start : Tournament where
  chan _ := []
  flag f := f = .forked (.battle .A)
  file _ := []
  loc
    | .battle _ => .battle .unborn unset unset
    | .player _ => .player .unborn unset 0 0

end SystemProgramming.Championship
