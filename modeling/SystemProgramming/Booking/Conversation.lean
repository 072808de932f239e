import SystemProgramming.Booking.StableView

namespace SystemProgramming.Booking

open ByteFile RecordLock Transition

/-!
# Booking servers — what a client is told

The conversation of one client with a server, on its own: the lines it sends, the replies it gets
and the stage this leads to.  A reply depends on nothing but the client's line and the counts the
client has been shown; the other clients show only in the answer to its id.

* `Conversation` — the conversations there can be;
* `conversations` — in every run of the servers, the replies to every connection are a conversation
  about the lines that were read from it.
-/

/-! ### Conversations -/

/-- What a server gets from a client: a line, or the end of the connection. -/
inductive Input where
  | line (l : List UInt8)
  | gone
  deriving DecidableEq, Repr

/-- Where a conversation stands: the client has been asked for its id, has been shown the counts
    `x` of record `k`, or the connection is closed. -/
inductive Stage where
  | asked
  | shown (k : ℕ) (x : BookingState)
  | closed
  deriving DecidableEq, Repr

/-- The answer to a booking command of a client that was shown the counts `x`. -/
def commandReply (k : ℕ) (x : BookingState) (l : List UInt8) : Reply :=
  match scanCommand l with
  | none => .operationFailed
  | some ch =>
    match judge x ch with
    | .exceeds => .exceedUpper
    | .below => .belowZero
    | .malformed => .operationFailed
    | .accepted => .updated k (x.add ch)

/-- What the client is told next; `grant` holds the counts of its record if the lock is granted. -/
def Stage.hear (b : Build) (grant : Option BookingState) : Stage → Input → List Reply × Stage
  | .asked, .line l =>
    if checkid l = false then ([.operationFailed], .closed)
    else
      match grant with
      | none => ([.locked], .closed)
      | some x => ([b.display x], .shown (bookIndex (atoi l)) x)
  | .shown k x, .line l =>
    match b with
    | .readServer => ([], if l = ascii "Exit" then .closed else .shown k x)
    | .writeServer => ([commandReply k x l], .closed)
  | .closed, .line _ => ([], .closed)
  | _, .gone => ([], .closed)

/-- The conversations with a server of build `b`. -/
inductive Conversation (b : Build) : List Input → List Reply → Stage → Prop where
  | opened : Conversation b [] [.enterId] .asked
  | heard {inputs : List Input} {replies : List Reply} {s : Stage} (i : Input)
      (grant : Option BookingState) (before : Conversation b inputs replies s) (hs : s ≠ .closed) :
      Conversation b (inputs ++ [i]) (replies ++ (s.hear b grant i).1) (s.hear b grant i).2

/-- What the server's tables say of a connection at a stage. -/
def Stage.Matches (b : Build) (c : Proc) (fd : ℕ) : Stage → Prop
  | .asked => fd ∈ c.conns ∧ c.state fd = .id
  | .shown k x => c.InSession b.live fd k ∧ c.shown fd = some x
  | .closed => fd ∉ c.conns

/-! ### What each handler tells -/

section Handlers

variable {P : Type} [DecidableEq P] {b : Build} {p : P} {a a' : Active P} {fd : ℕ} {leak : ℕ → ℕ}

/-- The handler has done what a client at stage `s` expects on the input `i`. -/
def Tells (b : Build) (a a' : Active P) (fd : ℕ) (s : Stage) (i : Input) : Prop :=
  ∃ grant, a'.proc.sent fd = a.proc.sent fd ++ (s.hear b grant i).1 ∧
    (s.hear b grant i).2.Matches b a'.proc fd

omit [DecidableEq P] in
/-- To hang up sends nothing. -/
theorem hangUp_sent (a : Active P) (fd : ℕ) : (a.hangUp fd).proc.sent = a.proc.sent := by
  unfold Active.hangUp Active.close
  simp only
  split <;> rfl

omit [DecidableEq P] in
/-- Afterwards the connection is closed. -/
theorem hangUp_closes (h : (a.proc.requestP fd).connFd = fd) : fd ∉ (a.hangUp fd).proc.conns := by
  rw [hangUp_eq h]
  simp

omit [DecidableEq P] in
/-- **A read fails** at any stage: the client is told nothing. -/
theorem readError_tells (h : (a.proc.requestP fd).connFd = fd) {s : Stage} :
    Tells b a (a.hangUp fd) fd s .gone := by
  refine ⟨none, ?_, ?_⟩
  · rw [hangUp_sent]
    cases s <;> simp [Stage.hear]
  · have hdone : (s.hear b none .gone).2 = .closed := by cases s <;> rfl
    rw [hdone]
    exact hangUp_closes h

/-- **End of file** at any stage: the client is told nothing. -/
theorem onEof_tells (h : (a.proc.requestP fd).connFd = fd) {s : Stage} :
    Tells b a (a.onEof b p fd) fd s .gone := by
  -- what is given back before the connection is closed concerns neither the client nor its request
  have hback : ∃ a₁ : Active P, a.onEof b p fd = a₁.hangUp fd ∧
      a₁.proc.requestP = a.proc.requestP ∧ a₁.proc.sent = a.proc.sent := by
    cases b with
    | readServer =>
      refine ⟨_, rfl, ?_, ?_⟩ <;> split <;> try rfl
      all_goals dsimp only; split <;> rfl
    | writeServer => refine ⟨_, rfl, ?_, ?_⟩ <;> split <;> rfl
  obtain ⟨a₁, heq, hreq, hsent⟩ := hback
  have hgone : Tells b a₁ (a₁.hangUp fd) fd s .gone := readError_tells (by rw [hreq]; exact h)
  obtain ⟨grant, htold, hstage⟩ := hgone
  exact ⟨grant, by rw [heq, htold, hsent], by rw [heq]; exact hstage⟩

omit [DecidableEq P] in
/-- A line that is no id. -/
theorem badId_tells (h : (a.proc.requestP fd).connFd = fd) {l : List UInt8}
    (hcheck : checkid l = false) :
    Tells b a (((a.storeLine fd l).write fd .operationFailed).hangUp fd) fd .asked (.line l) := by
  refine ⟨none, ?_, ?_⟩
  · rw [hangUp_sent]
    simp [Stage.hear, hcheck, Active.write, Active.storeLine]
  · simp only [Stage.hear, hcheck, if_true]
    exact hangUp_closes (by simpa [Active.write, Active.storeLine] using h)

omit [DecidableEq P] in
/-- A session that is refused. -/
theorem refuse_tells (h : (a.proc.requestP fd).connFd = fd) {l : List UInt8}
    (hcheck : checkid l = true) :
    Tells b a ((((a.named fd l).write fd .locked).hangUp fd).setState fd .hi) fd .asked
      (.line l) := by
  refine ⟨none, ?_, ?_⟩
  · show (((a.named fd l).write fd .locked).hangUp fd).proc.sent fd = _
    rw [hangUp_sent]
    simp [Stage.hear, hcheck, Active.write, Active.named, Active.setId, Active.storeLine]
  · simp only [Stage.hear, hcheck, Bool.true_eq_false, if_false]
    exact hangUp_closes (a := (a.named fd l).write fd .locked)
      (by simpa [Active.write, Active.named, Active.setId, Active.storeLine] using h)

omit [DecidableEq P] in
/-- A session that begins; what was done to the locks and the counters does not concern the
    client. -/
theorem open_tells (hfd : fd ∈ a.proc.conns) {l : List UInt8} {k : ℕ} (hk : k ≤ 20)
    (hl : atoi l = 902000 + k) (hcheck : checkid l = true) {a₁ : Active P} {x : BookingState}
    (conns : a₁.proc.conns = a.proc.conns)
    (requestP : a₁.proc.requestP = (a.named fd l).proc.requestP)
    (sent : a₁.proc.sent = a.proc.sent) :
    Tells b a ((a₁.write fd (b.display x)).setState fd b.live) fd .asked (.line l) := by
  have htold : ((a₁.write fd (b.display x)).setState fd b.live).proc.sent fd =
      a.proc.sent fd ++ [b.display x] := by
    simp [Active.setState, Active.write, sent]
  refine ⟨some x, ?_, ?_⟩
  · simpa [Stage.hear, hcheck] using htold
  · simp only [Stage.hear, hcheck, Bool.true_eq_false, if_false, hl, bookIndex_id hk]
    refine ⟨⟨?_, by simp [Active.setState], ?_⟩, ?_⟩
    · simpa [Active.setState, Active.write, conns] using hfd
    · simp [Active.setState, Active.write, requestP, Active.named, Active.setId, hl]
    · rw [Proc.shown, htold, List.getLast?_concat, Option.bind_some, Build.shown_display]

/-- **An id line**, READ_SERVER build: what the client is told depends on whether the lock is
    granted. -/
theorem readId_tells [Fintype P] (inv : ProcInv .readServer leak a.proc (a.locks p))
    (hlen : a.file.length = fileSize) (hfd : fd ∈ a.proc.conns) (l : List UInt8) :
    Tells .readServer a ((a.storeLine fd l).readId p fd) fd .asked (.line l) := by
  have hbuf : ((a.storeLine fd l).proc.requestP fd).buf = l := by simp [Active.storeLine]
  have hconn := inv.wf.connFd fd hfd
  unfold Active.readId
  rw [hbuf]
  split
  · exact badId_tells hconn (by assumption)
  · rename_i hcheck
    have hcheck : checkid l = true := by simpa using hcheck
    -- the id names one of the twenty records; what is left is whether its lock is granted
    obtain ⟨k, ⟨-, hk20⟩, hl, -, hidx, -⟩ := named_record inv hlen fd hcheck
    simp only [show (a.storeLine fd l).setId fd (atoi l) = a.named fd l from rfl, hidx]
    cases hlk : (a.named fd l).setlk p .read k with
    | none => exact refuse_tells hconn hcheck
    | some a₁ =>
      obtain ⟨t, -, rfl⟩ := Option.map_eq_some_iff.mp hlk
      refine open_tells (b := .readServer) hfd hk20 hl hcheck ?_ ?_ ?_ <;>
        unfold Active.lseekBack <;> split <;> rfl

/-- **An id line**, WRITE_SERVER build: it also depends on the other sessions of this process. -/
theorem writeId_tells [Fintype P] (inv : ProcInv .writeServer leak a.proc (a.locks p))
    (hlen : a.file.length = fileSize) (hfd : fd ∈ a.proc.conns) (l : List UInt8) :
    Tells .writeServer a ((a.storeLine fd l).writeId p fd) fd .asked (.line l) := by
  have hbuf : ((a.storeLine fd l).proc.requestP fd).buf = l := by simp [Active.storeLine]
  have hconn := inv.wf.connFd fd hfd
  unfold Active.writeId
  rw [hbuf]
  split
  · exact badId_tells hconn (by assumption)
  · rename_i hcheck
    have hcheck : checkid l = true := by simpa using hcheck
    obtain ⟨k, ⟨-, hk20⟩, hl, -, hidx, -⟩ := named_record inv hlen fd hcheck
    simp only [show (a.storeLine fd l).setId fd (atoi l) = a.named fd l from rfl, hidx]
    cases hlk : (a.named fd l).setlk p .write k with
    | none => exact refuse_tells hconn hcheck
    | some a₁ =>
      obtain ⟨t, -, rfl⟩ := Option.map_eq_some_iff.mp hlk
      dsimp only
      split
      · -- the lock is this process's own, for another client
        exact refuse_tells (a := { a with locks := t }) hconn hcheck
      · refine open_tells (b := .writeServer) hfd hk20 hl hcheck ?_ ?_ ?_ <;>
          unfold Active.lseekBack <;> split <;> rfl

/-- A line in a session of a read server: nothing is sent, and `Exit` closes the connection. -/
theorem readExit_tells (h : (a.proc.requestP fd).connFd = fd) {k : ℕ} {x : BookingState}
    (hs : (Stage.shown k x).Matches .readServer a.proc fd) (l : List UInt8) :
    Tells .readServer a ((a.storeLine fd l).readExit p fd) fd (.shown k x) (.line l) := by
  have hbuf : ((a.storeLine fd l).proc.requestP fd).buf = l := by simp [Active.storeLine]
  have hsent : (a.storeLine fd l).proc.sent = a.proc.sent := rfl
  refine ⟨none, ?_⟩
  unfold Active.readExit
  rw [hbuf]
  -- only the text `Exit` closes the connection, any other line leaves the stage as it is
  by_cases hl : l = ascii "Exit"
  · have hclosed : fd ∉ ((a.storeLine fd l).hangUp fd).proc.conns :=
      hangUp_closes (by simpa [Active.storeLine] using h)
    have hsame := hangUp_sent (a.storeLine fd l) fd
    simp only [Stage.hear, if_pos hl, List.append_nil]
    split
    · exact ⟨congrFun (hsame.trans hsent) fd, hclosed⟩
    · exact ⟨congrFun (hsame.trans hsent) fd, hclosed⟩
  · simp only [Stage.hear, if_neg hl, List.append_nil]
    refine ⟨rfl, ⟨hs.1.1, hs.1.2.1, ?_⟩, hs.2⟩
    simpa [Active.storeLine] using hs.1.2.2

/-- A command that is rejected with the message `r`. -/
theorem rejectCommand_tells (h : (a.proc.requestP fd).connFd = fd) (l : List UInt8) (k : ℕ)
    (r : Reply) : ((a.storeLine fd l).rejectCommand p fd k r).proc.sent fd = a.proc.sent fd ++ [r] ∧
      fd ∉ ((a.storeLine fd l).rejectCommand p fd k r).proc.conns := by
  constructor
  · show (((a.storeLine fd l).write fd r).hangUp fd).proc.sent fd = _
    rw [hangUp_sent]
    simp [Active.write, Active.storeLine]
  · exact hangUp_closes (a := (a.storeLine fd l).write fd r)
      (by simpa [Active.write, Active.storeLine] using h)

/-- The effect of a command that is accepted. -/
theorem Effect.accepted {l : List UInt8} {k : ℕ} (h : Effect .writeServer p a (.line fd l) a')
    (hs : a.proc.InSession .command fd k)
    (hacc : (checkcommand l (recordAt a.file k)).1 = .accepted) :
    ∃ ch, scanCommand l = some ch ∧ fd ∉ a'.proc.conns ∧
      a'.proc.sent fd = a.proc.sent fd ++ [.updated k ((recordAt a.file k).bookingState.add ch)] := by
  -- a session that waits for a command rules out the effects of an id line
  have hstate := hs.2.1
  cases h with
  | idle fd' frame err before after counter locks file reply on =>
    cases on
    exact absurd hs (before.not_inSession (b := .writeServer) k)
  | keep fd' l' k' frame before after sent counter locks file hb => cases hb
  | refuse fd' l' k' frame hk hl before after sent reason counter locks file =>
    rw [before.2] at hstate
    cases hstate
  | opens fd' l' k' frame hk hl before after sent free grant counter locks file =>
    rw [before.2] at hstate
    cases hstate
  | closes fd' k' out frame hk err before after counter locks file reply on =>
    cases on
    cases (before.iff_eq k).mp hs
    cases out with
    | none => exact absurd hacc (file.2 l rfl rfl)
    | some ch =>
      obtain ⟨l', -, hl', hscan, -, -, hsent⟩ := file
      cases hl'
      exact ⟨ch, hscan, after, hsent⟩

/-- A line in a session of a write server is answered from the counts of its record, which are
    those the client was shown. -/
theorem writeCommand_tells (inv : ProcInv .writeServer leak a.proc (a.locks p))
    (hlen : a.file.length = fileSize) {k : ℕ} {x : BookingState}
    (hs : (Stage.shown k x).Matches .writeServer a.proc fd)
    (hx : (recordAt a.file k).bookingState = x) (l : List UInt8) :
    Tells .writeServer a ((a.storeLine fd l).writeCommand p fd) fd (.shown k x) (.line l) := by
  obtain ⟨hsess, -⟩ := hs
  obtain ⟨hk, -⟩ := inv.inSession hsess
  have hconn := inv.wf.connFd fd hsess.1
  have heff : Effect .writeServer p a (.line fd l) ((a.storeLine fd l).writeCommand p fd) :=
    writeCommand_effect inv hlen hk hsess l
  have hidx : bookIndex ((a.storeLine fd l).proc.requestP fd).id = k := by
    simpa [Active.storeLine, hsess.2.2] using bookIndex_id hk.2
  have hbuf : ((a.storeLine fd l).proc.requestP fd).buf = l := by simp [Active.storeLine]
  have hpeek : (a.storeLine fd l).peek k = recordAt a.file k := peek_eq (a := a) inv.wf hk
  have hadv : ((a.storeLine fd l).advance k).lseekBack k = a.storeLine fd l := by
    apply advance_lseekBack
    rw [show (a.storeLine fd l).proc.offset k = recordStart k from inv.wf.offset k hk.1 hk.2,
      show (a.storeLine fd l).file = a.file from rfl, hlen]
    exact recordStart_lt hk
  -- the command is answered by one reply, and the connection is closed
  suffices htold : ((a.storeLine fd l).writeCommand p fd).proc.sent fd =
      a.proc.sent fd ++ [commandReply k x l] ∧
        fd ∉ ((a.storeLine fd l).writeCommand p fd).proc.conns from ⟨none, htold⟩
  cases hscan : scanCommand l with
  | none =>
    have hcheck : checkcommand l (recordAt a.file k) = (.malformed, none) := by
      simp [checkcommand, hscan]
    simp only [Active.writeCommand, hidx, hpeek, hadv, hbuf, hcheck, commandReply, hscan]
    exact rejectCommand_tells hconn l k _
  | some ch =>
    cases hjudge : judge x ch with
    | accepted =>
      have hcheck : (checkcommand l (recordAt a.file k)).1 = .accepted := by
        simp [checkcommand, hscan, hx, hjudge]
      obtain ⟨ch', hscan', hclosed, hsent⟩ := heff.accepted hsess hcheck
      cases hscan.symm.trans hscan'
      rw [hx] at hsent
      exact ⟨by simp only [commandReply, hscan, hjudge, hsent], hclosed⟩
    | malformed | exceeds | below =>
      simp only [Active.writeCommand, hidx, hpeek, hadv, hbuf, checkcommand, hscan, hx, hjudge,
        commandReply]
      exact rejectCommand_tells hconn l k _

/-! ### Every step -/

/-- What an event brings from its client. -/
def Event.input? : Event → Option Input
  | .line _ l => some (.line l)
  | .eof _ | .readError _ => some .gone
  | .accept _ | .errExit => none

/-- **What a server does for a connection** is what its client expects at its stage. -/
theorem handle_tells [Fintype P] (inv : ProcInv b leak a.proc (a.locks p))
    (hlen : a.file.length = fileSize) {s : Stage} (hs : s.Matches b a.proc fd)
    (view : ∀ k x, s = .shown k x → (recordAt a.file k).bookingState = x) {e : Event} {i : Input}
    (hfd : e.fd? = some fd) (hi : e.input? = some i) (h : a.handle b p e = some a') :
    s ≠ .closed ∧ Tells b a a' fd s i := by
  have hmaster := inv.wf.master
  have hstill (hopen : fd ∈ a.proc.conns) : s ≠ .closed := by
    rintro rfl
    exact hs hopen
  cases e with
  | accept fd' | errExit => cases hi
  | readError fd' =>
    cases hfd
    cases hi
    obtain ⟨hopen, ha⟩ := Option.ite_none_right_eq_some.mp h
    cases ha
    rw [hmaster] at hopen
    exact ⟨hstill hopen, readError_tells (inv.wf.connFd fd hopen)⟩
  | eof fd' =>
    cases hfd
    cases hi
    obtain ⟨hopen, ha⟩ := Option.ite_none_right_eq_some.mp h
    cases ha
    rw [hmaster] at hopen
    exact ⟨hstill hopen, onEof_tells (inv.wf.connFd fd hopen)⟩
  | line fd' l =>
    cases hfd
    cases hi
    obtain ⟨hopen, ha⟩ := Option.ite_none_right_eq_some.mp h
    cases ha
    rw [hmaster] at hopen
    refine ⟨hstill hopen, ?_⟩
    -- the stage and the build select the handler, as the `state` test of the loop does
    have hstate : (a.storeLine fd l).proc.state fd = a.proc.state fd := rfl
    cases s with
    | closed => exact absurd hopen hs
    | asked =>
      cases b with
      | readServer =>
        simp only [Active.onLine, hstate, hs.2]
        exact readId_tells inv hlen hopen l
      | writeServer =>
        simp only [Active.onLine, hstate, hs.2]
        exact writeId_tells inv hlen hopen l
    | shown k x =>
      cases b with
      | readServer =>
        simp only [Active.onLine, hstate, hs.1.2.1, Build.live]
        exact readExit_tells (inv.wf.connFd fd hopen) hs l
      | writeServer =>
        simp only [Active.onLine, hstate, hs.1.2.1, Build.live]
        exact writeCommand_tells inv hlen hs (view k x rfl) l

end Handlers

/-! ### Runs -/

section Runs

variable {P : Type} [DecidableEq P] {build : P → Build} {w w' : World P} {p q : P} {fd : ℕ}
  {es : List (P × Event)} {e : Event}

/-- The inputs of connection `fd` of process `p` after one more event. -/
def hearing (p : P) (fd : ℕ) (inputs : Option (List Input)) (pe : P × Event) :
    Option (List Input) :=
  if pe.1 = p ∧ pe.2.fd? = some fd then
    match pe.2.input? with
    | some i => inputs.map (· ++ [i])
    | none => some []
  else inputs

/-- What process `p` got on connection `fd` since it was accepted last; `none` if it never was. -/
def heard (p : P) (fd : ℕ) (es : List (P × Event)) : Option (List Input) :=
  es.foldl (hearing p fd) none

/-- One event more. -/
theorem heard_concat (pe : P × Event) : heard p fd (es ++ [pe]) = hearing p fd (heard p fd es) pe := by
  rw [heard, List.foldl_append, List.foldl_cons, List.foldl_nil, heard]

/-- What happens elsewhere is not heard. -/
theorem heard_other (h : ¬ (q = p ∧ e.fd? = some fd)) :
    heard p fd (es ++ [(q, e)]) = heard p fd es := by
  rw [heard_concat, hearing, if_neg h]

/-- A new connection has said nothing. -/
theorem heard_accept : heard p fd (es ++ [(p, .accept fd)]) = some [] := by
  rw [heard_concat, hearing, if_pos ⟨rfl, rfl⟩]
  rfl

/-- One input more on the connection. -/
theorem heard_input {i : Input} (hfd : e.fd? = some fd) (hi : e.input? = some i) :
    heard p fd (es ++ [(p, e)]) = (heard p fd es).map (· ++ [i]) := by
  rw [heard_concat, hearing, if_pos ⟨rfl, hfd⟩]
  simp only [hi]

omit [DecidableEq P] in
/-- What the tables say of a connection does not depend on the other connections. -/
theorem Stage.Matches.frame {b : Build} {c c' : Proc} {x : ℕ} {s : Stage}
    (h : s.Matches b c fd) (frame : Frame x c c') (hne : fd ≠ x) : s.Matches b c' fd := by
  cases s with
  | asked => exact ⟨(frame.conns fd hne).mpr h.1, (frame.state fd hne).trans h.2⟩
  | shown k y =>
    refine ⟨(frame.inSession_iff hne _ k).mpr h.1, ?_⟩
    rw [Proc.shown, frame.sent fd hne]
    exact h.2
  | closed => exact fun hopen => h ((frame.conns fd hne).mp hopen)

/-- The table entries of `fd` are those of a conversation about `inputs`. -/
def Talks (b : Build) (inputs : List Input) (c : Proc) (fd : ℕ) : Prop :=
  ∃ s, Conversation b inputs (c.sent fd) s ∧ s.Matches b c fd

omit [DecidableEq P] in
/-- A new connection: the client is asked for its id. -/
theorem acceptConn_talks {b : Build} (a : Active P) (fd : ℕ) :
    Talks b [] (a.acceptConn fd).proc fd := by
  refine ⟨.asked, ?_, Finset.mem_insert_self _ _, by simp [Active.acceptConn, Active.setState]⟩
  have hsent : (a.acceptConn fd).proc.sent fd = [.enterId] := by
    simp [Active.acceptConn, Active.setState, Active.write]
  rw [hsent]
  exact .opened

variable [Fintype P]

/-- An input continues the conversation of its connection. -/
theorem Talks.hears {b : Build} {a a' : Active P} {leak : ℕ → ℕ} {inputs : List Input} {i : Input}
    (talks : Talks b inputs a.proc fd) (inv : ProcInv b leak a.proc (a.locks p))
    (hlen : a.file.length = fileSize)
    (view : ∀ k, a.proc.InSession b.live fd k →
      a.proc.shown fd = some (recordAt a.file k).bookingState)
    (hfd : e.fd? = some fd) (hi : e.input? = some i) (h : a.handle b p e = some a') :
    Talks b (inputs ++ [i]) a'.proc fd := by
  obtain ⟨s, hconv, hs⟩ := talks
  have hx : ∀ k x, s = .shown k x → (recordAt a.file k).bookingState = x := by
    rintro k x rfl
    have hview := (view k hs.1).symm.trans hs.2
    exact Option.some.inj hview
  obtain ⟨hdone, grant, hsent, hs'⟩ := handle_tells inv hlen hs hx hfd hi h
  refine ⟨_, ?_, hs'⟩
  rw [hsent]
  exact hconv.heard i grant hdone

/-- What is done for another connection leaves a conversation where it is. -/
theorem Talks.other {b : Build} {a a' : Active P} {leak : ℕ → ℕ} {inputs : List Input} {x : ℕ}
    (talks : Talks b inputs a.proc fd) (inv : ProcInv b leak a.proc (a.locks p))
    (hlen : a.file.length = fileSize) (hx : e.fd? = some x) (hne : fd ≠ x)
    (h : a.handle b p e = some a') : Talks b inputs a'.proc fd := by
  obtain ⟨s, hconv, hs⟩ := talks
  have hframe := (handle_effect inv hlen h).frame hx
  refine ⟨s, ?_, hs.frame hframe hne⟩
  rw [hframe.sent fd hne]
  exact hconv

/-- Every connection of the running servers has a conversation about what was read from it. -/
def Told (build : P → Build) (w : World P) (es : List (P × Event)) : Prop :=
  ∀ p c fd inputs, w.proc p = some c → heard p fd es = some inputs → Talks (build p) inputs c fd

/-- The process that takes a step. -/
theorem told_own {c : Proc} {a' : Active P} {inputs : List Input} (inv : w.Inv build)
    (view : ViewInv build w) (told : Told build w es) (hc : w.proc p = some c)
    (ha' : (w.active c).handle (build p) p e = some a')
    (hheard : heard p fd (es ++ [(p, e)]) = some inputs) : Talks (build p) inputs a'.proc fd := by
  obtain ⟨leak, hproc⟩ := inv.proc p c hc
  -- an event of the connection `fd` is heard by it, any other event leaves its stage alone
  by_cases hfd : e.fd? = some fd
  · cases hi : e.input? with
    | some i =>
      rw [heard_input hfd hi] at hheard
      obtain ⟨before, hbefore, rfl⟩ := Option.map_eq_some_iff.mp hheard
      have htalks : Talks (build p) before (w.active c).proc fd := told p c fd before hc hbefore
      exact htalks.hears hproc inv.size (fun k hs => view p c fd k hc hs) hfd hi ha'
    | none =>
      cases e with
      | readError x | eof x | line x l => cases hi
      | errExit => cases hfd
      | accept x =>
        cases hfd
        rw [heard_accept] at hheard
        cases hheard
        obtain ⟨-, ha⟩ := Option.ite_none_left_eq_some.mp ha'
        cases ha
        exact acceptConn_talks _ fd
  · rw [heard_other (by simp [hfd])] at hheard
    have htalks : Talks (build p) inputs (w.active c).proc fd := told p c fd inputs hc hheard
    cases e with
    | errExit => cases ha'
    | accept x | readError x | eof x | line x l =>
      exact htalks.other hproc inv.size rfl (fun heq => hfd (heq ▸ rfl)) ha'

/-- **One more event continues the conversations.** -/
theorem step_told (inv : w.Inv build) (view : ViewInv build w) (told : Told build w es)
    (h : step build w (q, e) = some w') : Told build w' (es ++ [(q, e)]) := by
  intro p c' fd inputs hp hheard
  by_cases hpq : q = p
  · subst hpq
    obtain ⟨c, hc, -⟩ := step_cases inv h
    simp only [step, hc] at h
    split at h
    · cases h
      simp at hp
    · obtain ⟨a', ha', rfl⟩ := Option.map_eq_some_iff.mp h
      have hc' : c' = a'.proc := by simpa using hp.symm
      subst hc'
      exact told_own inv view told hc ha' hheard
  · rw [heard_other fun hboth => hpq hboth.1] at hheard
    -- a step of server `q` changes no table of `p`
    have hsame : w'.proc p = w.proc p := by
      obtain ⟨c, -, ⟨-, rfl⟩ | ⟨a', -, rfl⟩⟩ := step_cases inv h
      · simp [Function.update_of_ne (Ne.symm hpq)]
      · simp [Function.update_of_ne (Ne.symm hpq)]
    exact told p c' fd inputs (hsame ▸ hp) hheard

/-- **Every client has a conversation with its server.**  In every run, what a client was sent on a
    connection is the server's part of a conversation about the lines read from it, at the stage
    that the server's tables say; the counts it was shown last in a session are those of its
    record. -/
theorem conversations (build : P → Build) (f : BookingFile) (es : List (P × Event)) (w : World P)
    (p : P) (c : Proc) (fd : ℕ) (inputs : List Input)
    (hrun : runFrom (step build) (World.start f) es = some w) (hc : w.proc p = some c)
    (hheard : heard p fd es = some inputs) :
    ∃ s, Conversation (build p) inputs (c.sent fd) s ∧ s.Matches (build p) c fd ∧
      ∀ k x, s = .shown k x → w.counts k = x := by
  -- the three invariants go together: what is told needs what the lock protects
  have hall : w.Inv build ∧ ViewInv build w ∧ Told build w es := by
    clear hc hheard
    induction es using List.reverseRecOn generalizing w with
    | nil =>
      cases hrun
      have hstart : (World.start f).Inv build ∧ ViewInv build (World.start f) :=
        reachable_view (.refl _)
      refine ⟨hstart.1, hstart.2, fun p c fd inputs _ hheard => ?_⟩
      cases hheard
    | append_singleton es pe ih =>
      obtain ⟨w₀, hbefore, hs⟩ := runFrom_concat_eq_some.mp hrun
      obtain ⟨inv, view, told⟩ := ih w₀ hbefore
      exact ⟨step_inv inv hs, step_viewInv inv view hs, step_told inv view told hs⟩
  obtain ⟨-, view, told⟩ := hall
  obtain ⟨s, hconv, hs⟩ := told p c fd inputs hc hheard
  refine ⟨s, hconv, hs, ?_⟩
  rintro k x rfl
  have hview := (view p c fd k hc hs.1).symm.trans hs.2
  exact Option.some.inj hview

end Runs

/-- The client of `booking`: its id and its command, and the replies by the theorem. -/
theorem conversations_booking :
    ((endOf (step twoServers) (World.start .zero) booking).proc 0).isSome = true ∧
    ∀ c, (endOf (step twoServers) (World.start .zero) booking).proc 0 = some c →
      ∃ s, Conversation .writeServer [.line (ascii "902001"), .line (ascii "3 0 2")]
          (c.sent 24) s ∧ s.Matches .writeServer c 24 ∧
        ∀ k x, s = .shown k x →
          (endOf (step twoServers) (World.start .zero) booking).counts k = x :=
  ⟨by decide +kernel, fun c hc => conversations twoServers .zero booking _ 0 c 24 _
    (runFrom_endOf (by decide +kernel)) hc rfl⟩

end SystemProgramming.Booking
