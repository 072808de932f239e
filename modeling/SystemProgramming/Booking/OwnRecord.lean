import SystemProgramming.Booking.StableView

namespace SystemProgramming.Booking

open ByteFile RecordLock Transition

/-!
# Booking servers — each session touches its own record only

The handlers reach a record through the file offset of `book[k]`: every `fcntl`, `read` and `write`
starts where that offset stands, and `lseek` moves it back.  `Traced` runs the handlers of the
server while it keeps a list of these operations with the bytes they cover.

* `tracedStep_map_fst` — forgetting the list gives the step of the server;
* `handle_ops` — on a process that satisfies its invariant, every operation of a step covers
  exactly the record of the session the step is for;
* `own_record` — in every reachable state the offsets stand at their records, every operation
  covers the record of its session, no id of a record ever changes, and the counts of a record
  change in steps of its own sessions only.
-/

/-- What is done on a descriptor `book[k]`. -/
inductive OpKind where
  | lock
  | unlock
  | read
  | write
  deriving DecidableEq, Repr

/-- An operation on `book[k]`, which covers the bytes `start, …, start + len - 1` of the file. -/
structure FileOp where
  kind : OpKind
  book : ℕ
  start : ℕ
  len : ℕ
  deriving DecidableEq, Repr

/-- The operation covers exactly the 16 bytes of record `k`, through `book[k]`. -/
def FileOp.On (k : ℕ) (o : FileOp) : Prop := o.book = k ∧ o.start = 16 * (k - 1) ∧ o.len = 16

/-- A running process, with the operations it has done on `book[]` so far. -/
structure Traced (P : Type) where
  active : Active P
  ops : List FileOp

variable {P : Type} [DecidableEq P]

namespace Traced

/-- A part of a handler that does not use `book[]`. -/
def run (t : Traced P) (g : Active P → Active P) : Traced P := ⟨g t.active, t.ops⟩

/-- An operation on the `len` bytes from the offset of `book[k]` on. -/
def touch (t : Traced P) (kind : OpKind) (k len : ℕ) : Traced P :=
  { t with ops := t.ops ++ [⟨kind, k, t.active.proc.offset k, len⟩] }

/-- `fcntl(book[k], F_SETLK, &un)`. -/
def unlock (t : Traced P) (p : P) (k : ℕ) : Traced P :=
  (t.touch .unlock k recordSize).run (·.unlock p k)

/-- `read(book[k], &input, sizeof(record))`, on as many bytes as there are, and the `lseek` after
    it. -/
def readBack (t : Traced P) (k : ℕ) : Traced P :=
  (t.touch .read k (readAt t.active.file (t.active.proc.offset k) recordSize).length).run fun a =>
    (a.advance k).lseekBack k

/-- `write(book[k], &input, sizeof(record))` and the `lseek` after it. -/
def writeBack (t : Traced P) (k : ℕ) (r : Record) : Traced P :=
  (t.touch .write k r.encode.length).run fun a => (a.writeRecord k r).lseekBack k

/-! ### The READ_SERVER build -/

/-- `Active.readEof`, traced. -/
def readEof (t : Traced P) (p : P) (fd : ℕ) : Traced P :=
  let t :=
    if (t.active.proc.state fd).leId then t
    else
      let k := bookIndex (t.active.proc.requestP fd).id
      let t := t.run fun a => a.setReadlc k (a.proc.readlc k - 1)
      if t.active.proc.readlc k = 0 then t.unlock p k else t
  t.run (·.hangUp fd)

/-- `Active.readId`, traced. -/
def readId [Fintype P] (t : Traced P) (p : P) (fd : ℕ) : Traced P :=
  if checkid (t.active.proc.requestP fd).buf = false then
    t.run fun a => (a.write fd .operationFailed).hangUp fd
  else
    let t := t.run fun a => a.setId fd (atoi (a.proc.requestP fd).buf)
    let id := bookIndex (t.active.proc.requestP fd).id
    let t := t.touch .lock id recordSize
    match t.active.setlk p .read id with
    | none => t.run fun a => ((a.write fd .locked).hangUp fd).setState fd .hi
    | some a =>
      let t := t.run fun _ => a.setReadlc id (a.proc.readlc id + 1)
      let input := t.active.peek id
      let t := t.readBack id
      t.run fun a => (a.write fd (.readBookings input.bookingState)).setState fd .exit

/-- `Active.readExit`, traced. -/
def readExit (t : Traced P) (p : P) (fd : ℕ) : Traced P :=
  let id := bookIndex (t.active.proc.requestP fd).id
  if (t.active.proc.requestP fd).buf = ascii "Exit" then
    let t := t.run fun a => (a.hangUp fd).setState fd .hi
    let t := t.run fun a => a.setReadlc id (a.proc.readlc id - 1)
    if t.active.proc.readlc id = 0 then t.unlock p id else t
  else t

/-! ### The WRITE_SERVER build -/

/-- `Active.writeEof`, traced. -/
def writeEof (t : Traced P) (p : P) (fd : ℕ) : Traced P :=
  let t :=
    if (t.active.proc.state fd).leId then t
    else
      let k := bookIndex (t.active.proc.requestP fd).id
      (t.run (·.setSamewr k 0)).unlock p k
  t.run (·.hangUp fd)

/-- `Active.writeId`, traced. -/
def writeId [Fintype P] (t : Traced P) (p : P) (fd : ℕ) : Traced P :=
  if checkid (t.active.proc.requestP fd).buf = false then
    t.run fun a => (a.write fd .operationFailed).hangUp fd
  else
    let t := t.run fun a => a.setId fd (atoi (a.proc.requestP fd).buf)
    let id := bookIndex (t.active.proc.requestP fd).id
    let t := t.touch .lock id recordSize
    match t.active.setlk p .write id with
    | none => t.run fun a => ((a.write fd .locked).hangUp fd).setState fd .hi
    | some a =>
      -- the lock of the same process would be granted again, so the server looks at `samewr`
      if a.proc.samewr id = 1 then
        t.run fun _ => ((a.write fd .locked).hangUp fd).setState fd .hi
      else
        let t := t.run fun _ => a.setSamewr id 1
        let input := t.active.peek id
        let t := t.readBack id
        t.run fun a => (a.write fd (.writeBookings input.bookingState)).setState fd .command

/-- `Active.rejectCommand`, traced. -/
def rejectCommand (t : Traced P) (p : P) (fd id : ℕ) (r : Reply) : Traced P :=
  (t.run fun a => ((a.write fd r).hangUp fd).setSamewr id 0).unlock p id

/-- `Active.writeCommand`, traced. -/
def writeCommand (t : Traced P) (p : P) (fd : ℕ) : Traced P :=
  let id := bookIndex (t.active.proc.requestP fd).id
  let input := t.active.peek id
  let t := t.readBack id
  match checkcommand (t.active.proc.requestP fd).buf input with
  | (.exceeds, _) => t.rejectCommand p fd id .exceedUpper
  | (.below, _) => t.rejectCommand p fd id .belowZero
  | (.malformed, _) => t.rejectCommand p fd id .operationFailed
  | (.accepted, out) =>
    -- only an accepted command writes the record back
    let t := match out with
      | some r => t.writeBack id r
      | none => t
    let input := t.active.peek id
    let t := t.readBack id
    let t := t.run fun a =>
      ((a.write fd (.updated id input.bookingState)).hangUp fd).setState fd .hi
    (t.run (·.setSamewr id 0)).unlock p id

/-! ### `main` -/

/-- `Active.onLine`, traced. -/
def onLine [Fintype P] (t : Traced P) (b : Build) (p : P) (fd : ℕ) : Traced P :=
  match b, t.active.proc.state fd with
  | .readServer, .id => t.readId p fd
  | .readServer, .exit => t.readExit p fd
  | .writeServer, .id => t.writeId p fd
  | .writeServer, .command => t.writeCommand p fd
  | _, _ => t

/-- `Active.onEof`, traced. -/
def onEof (t : Traced P) (b : Build) (p : P) (fd : ℕ) : Traced P :=
  match b with
  | .readServer => t.readEof p fd
  | .writeServer => t.writeEof p fd

/-- `Active.handle`, traced. -/
def handle [Fintype P] (t : Traced P) (b : Build) (p : P) : Event → Option (Traced P)
  | .accept fd => if fd ∈ t.active.proc.conns then none else some (t.run (·.acceptConn fd))
  | .readError fd => if fd ∈ t.active.proc.master then some (t.run (·.hangUp fd)) else none
  | .eof fd => if fd ∈ t.active.proc.master then some (t.onEof b p fd) else none
  | .line fd l =>
    if fd ∈ t.active.proc.master then some ((t.run (·.storeLine fd l)).onLine b p fd) else none
  | .errExit => none

end Traced

/-- `step`, with the operations the process does on `book[]`. -/
def tracedStep [Fintype P] (build : P → Build) (w : World P) :
    P × Event → Option (World P × List FileOp)
  | (p, e) =>
    match w.proc p with
    | none => none
    | some c =>
      if e = .errExit then
        some ({ w with locks := dropAll w.locks p, proc := Function.update w.proc p none }, [])
      else
        (Traced.handle ⟨⟨c, w.file, w.locks⟩, []⟩ (build p) p e).map fun t =>
          (⟨t.active.file, t.active.locks, Function.update w.proc p (some t.active.proc)⟩, t.ops)

/-! ### Forgetting the operations -/

section Forget

variable {t : Traced P} {p : P} {fd : ℕ}

omit [DecidableEq P] in
/-- What runs on the process alone leaves no trace. -/
@[simp] theorem active_run (g : Active P → Active P) : (t.run g).active = g t.active := rfl

omit [DecidableEq P] in
/-- An operation is only recorded. -/
@[simp] theorem active_touch (kind : OpKind) (k len : ℕ) :
    (t.touch kind k len).active = t.active := rfl

/-- Without its trace, an unlock is that of the server. -/
@[simp] theorem active_unlock (k : ℕ) : (t.unlock p k).active = t.active.unlock p k := rfl

omit [DecidableEq P] in
/-- Without its trace, this is a read and the `lseek` back. -/
@[simp] theorem active_readBack (k : ℕ) :
    (t.readBack k).active = (t.active.advance k).lseekBack k := rfl

omit [DecidableEq P] in
/-- Without its trace, this is a write and the `lseek` back. -/
@[simp] theorem active_writeBack (k : ℕ) (r : Record) :
    (t.writeBack k r).active = (t.active.writeRecord k r).lseekBack k := rfl

/-- Without its trace, the handler is that of the server. -/
theorem active_readEof : (t.readEof p fd).active = t.active.readEof p fd := by
  simp only [Traced.readEof, Active.readEof, active_run]
  split
  · rfl
  · exact congrArg (Active.hangUp · fd) (apply_ite Traced.active _ _ _)

/-- Without its trace, the handler is that of the server. -/
theorem active_readExit : (t.readExit p fd).active = t.active.readExit p fd := by
  unfold Traced.readExit Active.readExit
  split
  · exact apply_ite Traced.active _ _ _
  · rfl

/-- Without its trace, the handler is that of the server. -/
theorem active_writeEof : (t.writeEof p fd).active = t.active.writeEof p fd := by
  simp only [Traced.writeEof, Active.writeEof, active_run, active_unlock, apply_ite Traced.active]

/-- Without its trace, the handler is that of the server. -/
theorem active_readId [Fintype P] : (t.readId p fd).active = t.active.readId p fd := by
  simp only [Traced.readId, Active.readId, active_run, active_touch, apply_ite Traced.active]
  congr 1
  cases hlk : (t.active.setId fd (atoi (t.active.proc.requestP fd).buf)).setlk p .read
      (bookIndex ((t.active.setId fd (atoi (t.active.proc.requestP fd).buf)).proc.requestP fd).id) with
  | none => rfl
  | some a => rfl

/-- Without its trace, the handler is that of the server. -/
theorem active_writeId [Fintype P] : (t.writeId p fd).active = t.active.writeId p fd := by
  simp only [Traced.writeId, Active.writeId, active_run, active_touch, apply_ite Traced.active]
  congr 1
  cases hlk : (t.active.setId fd (atoi (t.active.proc.requestP fd).buf)).setlk p .write
      (bookIndex ((t.active.setId fd (atoi (t.active.proc.requestP fd).buf)).proc.requestP fd).id) with
  | none => rfl
  | some a => exact apply_ite Traced.active _ _ _

/-- Without its trace, the handler is that of the server. -/
theorem active_writeCommand : (t.writeCommand p fd).active = t.active.writeCommand p fd := by
  simp only [Traced.writeCommand, Active.writeCommand, active_readBack]
  generalize checkcommand _ _ = v
  obtain ⟨verdict, out⟩ := v
  cases verdict with
  | exceeds | below | malformed => rfl
  | accepted => cases out <;> rfl

/-- The traced handlers do what the handlers do. -/
theorem active_handle [Fintype P] (b : Build) (e : Event) :
    (t.handle b p e).map Traced.active = t.active.handle b p e := by
  -- one handler at a time: forgetting the log commutes with each of its steps
  cases e with
  | errExit => rfl
  | accept fd =>
    simp only [Traced.handle, Active.handle]
    split <;> rfl
  | readError fd =>
    simp only [Traced.handle, Active.handle]
    split <;> rfl
  | eof fd =>
    simp only [Traced.handle, Active.handle]
    split
    · cases b with
      | readServer => exact congrArg some active_readEof
      | writeServer => exact congrArg some active_writeEof
    · rfl
  | line fd l =>
    simp only [Traced.handle, Active.handle]
    split
    · apply congrArg some
      simp only [Traced.onLine, Active.onLine, active_run]
      cases b <;> cases (t.active.storeLine fd l).proc.state fd <;>
        simp only [active_run, active_readId, active_readExit, active_writeId, active_writeCommand]
    · rfl

end Forget

/-- **Forgetting the operations of a traced step gives the step.** -/
theorem tracedStep_map_fst [Fintype P] (build : P → Build) (w : World P) (pe : P × Event) :
    (tracedStep build w pe).map Prod.fst = step build w pe := by
  obtain ⟨p, e⟩ := pe
  simp only [tracedStep, step]
  cases hc : w.proc p with
  | none => rfl
  | some c =>
    simp only
    split
    · rfl
    · have h := active_handle (t := ⟨⟨c, w.file, w.locks⟩, []⟩) (p := p) (build p) e
      rw [← h, Option.map_map, Option.map_map]
      rfl

/-! ### The bytes the operations cover -/

/-- Every operation so far covers record `k`, and `book[k]` stands there. -/
structure Traced.OnRecord (t : Traced P) (k : ℕ) : Prop where
  ops : ∀ o ∈ t.ops, o.On k
  offset : t.active.proc.offset k = recordStart k
  size : t.active.file.length = fileSize

/-- Record `k` starts behind the `k - 1` records before it. -/
theorem recordStart_eq (k : ℕ) : recordStart k = 16 * (k - 1) := Nat.mul_comm _ _

section OnRecord

variable {t : Traced P} {p : P} {fd k : ℕ}

omit [DecidableEq P] in
/-- To hang up moves no offset. -/
theorem hangUp_offset (a : Active P) (fd : ℕ) : (a.hangUp fd).proc.offset = a.proc.offset := by
  simp only [Active.hangUp, Active.close, Active.freeRequest, Active.fdClr]
  split <;> rfl

omit [DecidableEq P] in
/-- To hang up writes nothing. -/
theorem hangUp_file (a : Active P) (fd : ℕ) : (a.hangUp fd).file = a.file := by
  simp only [Active.hangUp, Active.close, Active.freeRequest, Active.fdClr]
  split <;> rfl

namespace Traced.OnRecord

omit [DecidableEq P] in
/-- What leaves `book[k]` and the file alone. -/
theorem run (h : t.OnRecord k) {g : Active P → Active P}
    (hoff : (g t.active).proc.offset k = t.active.proc.offset k)
    (hfile : (g t.active).file = t.active.file) : (t.run g).OnRecord k where
  ops := h.ops
  offset := hoff.trans h.offset
  size := (congrArg List.length hfile).trans h.size

omit [DecidableEq P] in
/-- An operation of the length of a record is on the record. -/
theorem touch (h : t.OnRecord k) (kind : OpKind) {len : ℕ} (hlen : len = recordSize) :
    (t.touch kind k len).OnRecord k where
  ops := by
    intro o ho
    rcases List.mem_append.mp ho with ho | ho
    · exact h.ops o ho
    · rw [List.mem_singleton.mp ho]
      exact ⟨rfl, h.offset.trans (recordStart_eq k), hlen⟩
  offset := h.offset
  size := h.size

/-- The lock that is given up is on the record. -/
theorem unlock (h : t.OnRecord k) : (t.unlock p k).OnRecord k :=
  (h.touch .unlock rfl).run rfl rfl

omit [DecidableEq P] in
/-- At the start of record `k` there is a whole record to read. -/
theorem inFile (h : t.OnRecord k) (hk : 1 ≤ k ∧ k ≤ 20) :
    t.active.proc.offset k + recordSize ≤ t.active.file.length := by
  rw [h.offset, h.size]
  exact recordStart_lt hk

omit [DecidableEq P] in
/-- A read and the `lseek` back: the offset is at the record again. -/
theorem readBack (h : t.OnRecord k) (hk : 1 ≤ k ∧ k ≤ 20) : (t.readBack k).OnRecord k := by
  have hback : (t.active.advance k).lseekBack k = t.active := advance_lseekBack (h.inFile hk)
  refine (h.touch .read (length_readAt (h.inFile hk))).run ?_ ?_
  · exact congrArg (fun a : Active P => a.proc.offset k) hback
  · exact congrArg Active.file hback

omit [DecidableEq P] in
/-- A write and the `lseek` back: the file keeps its length. -/
theorem writeBack (h : t.OnRecord k) (hk : 1 ≤ k ∧ k ≤ 20) (r : Record) :
    (t.writeBack k r).OnRecord k where
  ops := (h.touch .write r.length_encode).ops
  offset := by
    rw [active_writeBack, writeRecord_lseekBack]
    exact h.offset
  size := by
    rw [active_writeBack, writeRecord_lseekBack, h.offset]
    exact length_writeRecord h.size hk r

omit [DecidableEq P] in
/-- To hang up touches no record. -/
theorem hangUp (h : t.OnRecord k) (fd : ℕ) : (t.run (·.hangUp fd)).OnRecord k :=
  h.run (congrFun (hangUp_offset _ fd) k) (hangUp_file _ fd)

/-! ### The handlers -/

/-- **End of file in a session on `k`**, READ_SERVER build. -/
theorem readEof (h : t.OnRecord k) (hs : (t.active.proc.state fd).leId = false)
    (hid : bookIndex (t.active.proc.requestP fd).id = k) : (t.readEof p fd).OnRecord k := by
  simp only [Traced.readEof, hs, Bool.false_eq_true, ↓reduceIte, hid]
  apply hangUp
  have hset := h.run (g := fun a => a.setReadlc k (a.proc.readlc k - 1)) rfl rfl
  split
  · exact hset.unlock
  · exact hset

/-- **End of file in a session on `k`**, WRITE_SERVER build. -/
theorem writeEof (h : t.OnRecord k) (hs : (t.active.proc.state fd).leId = false)
    (hid : bookIndex (t.active.proc.requestP fd).id = k) : (t.writeEof p fd).OnRecord k := by
  simp only [Traced.writeEof, hs, Bool.false_eq_true, ↓reduceIte, hid]
  exact (h.run (g := (·.setSamewr k 0)) rfl rfl).unlock.hangUp fd

/-- **`Exit` in a session on `k`.** -/
theorem readExit (h : t.OnRecord k) (hid : bookIndex (t.active.proc.requestP fd).id = k) :
    (t.readExit p fd).OnRecord k := by
  simp only [Traced.readExit, hid]
  split
  · have hclosed := h.run (g := fun a => (a.hangUp fd).setState fd .hi)
      (congrFun (hangUp_offset _ fd) k) (hangUp_file _ fd)
    have hset := hclosed.run (g := fun a => a.setReadlc k (a.proc.readlc k - 1)) rfl rfl
    split
    · exact hset.unlock
    · exact hset
  · exact h

/-- **An id line for `k`**, READ_SERVER build. -/
theorem readId [Fintype P] (h : t.OnRecord k) (hk : 1 ≤ k ∧ k ≤ 20)
    (hl : atoi (t.active.proc.requestP fd).buf = 902000 + k) : (t.readId p fd).OnRecord k := by
  have hid : bookIndex ((t.active.setId fd (atoi (t.active.proc.requestP fd).buf)).proc.requestP
      fd).id = k := by
    simpa [Active.setId, hl] using bookIndex_id hk.2
  simp only [Traced.readId, active_run, hid]
  split
  · exact (h.run (g := fun a => a.write fd .operationFailed) rfl rfl).hangUp fd
  · -- the handler touches record `k` from here on: the lock, then the record it reads
    have hnamed := h.run (g := fun a => a.setId fd (atoi (a.proc.requestP fd).buf)) rfl rfl
    have hasked := hnamed.touch .lock rfl
    simp only [Active.setlk, active_touch, active_run]
    cases RecordLock.setlk (t.active.setId fd (atoi (t.active.proc.requestP fd).buf)).locks p .read
        ((t.active.setId fd (atoi (t.active.proc.requestP fd).buf)).proc.offset k) recordSize with
    | none =>
      exact hasked.run (congrFun (hangUp_offset _ fd) k) (hangUp_file _ fd)
    | some locks =>
      exact ((hasked.run rfl rfl).readBack hk).run rfl rfl

/-- **An id line for `k`**, WRITE_SERVER build. -/
theorem writeId [Fintype P] (h : t.OnRecord k) (hk : 1 ≤ k ∧ k ≤ 20)
    (hl : atoi (t.active.proc.requestP fd).buf = 902000 + k) : (t.writeId p fd).OnRecord k := by
  have hid : bookIndex ((t.active.setId fd (atoi (t.active.proc.requestP fd).buf)).proc.requestP
      fd).id = k := by
    simpa [Active.setId, hl] using bookIndex_id hk.2
  simp only [Traced.writeId, active_run, hid]
  split
  · exact (h.run (g := fun a => a.write fd .operationFailed) rfl rfl).hangUp fd
  · have hnamed := h.run (g := fun a => a.setId fd (atoi (a.proc.requestP fd).buf)) rfl rfl
    have hasked := hnamed.touch .lock rfl
    simp only [Active.setlk, active_touch, active_run]
    cases RecordLock.setlk (t.active.setId fd (atoi (t.active.proc.requestP fd).buf)).locks p .write
        ((t.active.setId fd (atoi (t.active.proc.requestP fd).buf)).proc.offset k) recordSize with
    | none =>
      exact hasked.run (congrFun (hangUp_offset _ fd) k) (hangUp_file _ fd)
    | some locks =>
      -- granted, but a session of this server may have the record: then nothing is read
      simp only [Option.map_some]
      split
      · exact hasked.run (congrFun (hangUp_offset _ fd) k) (hangUp_file _ fd)
      · exact ((hasked.run rfl rfl).readBack hk).run rfl rfl

/-- A command that is refused writes nothing; only the lock is given up. -/
theorem rejectCommand (h : t.OnRecord k) (r : Reply) : (t.rejectCommand p fd k r).OnRecord k := by
  have hclosed := (h.run (g := (·.write fd r)) rfl rfl).hangUp fd
  exact (hclosed.run (g := (·.setSamewr k 0)) rfl rfl).unlock

/-- **A command in a session on `k`**, accepted or not. -/
theorem writeCommand (h : t.OnRecord k) (hk : 1 ≤ k ∧ k ≤ 20)
    (hid : bookIndex (t.active.proc.requestP fd).id = k) : (t.writeCommand p fd).OnRecord k := by
  have hread := h.readBack hk
  simp only [Traced.writeCommand, hid]
  -- every path of `checkcommand`, the rejections included, has moved the offset back
  split
  · exact hread.rejectCommand _
  · exact hread.rejectCommand _
  · exact hread.rejectCommand _
  · rename_i out _
    have hend {t' : Traced P} (ht' : t'.OnRecord k) (r : Reply) :
        (((t'.readBack k).run fun a => ((a.write fd r).hangUp fd).setState fd .hi).run
          (·.setSamewr k 0)).unlock p k |>.OnRecord k := by
      refine (OnRecord.run ?_ rfl rfl).unlock
      exact (ht'.readBack hk).run (congrFun (hangUp_offset _ fd) k) (hangUp_file _ fd)
    cases out with
    | none => exact hend hread _
    | some r => exact hend (hread.writeBack hk r) _

end Traced.OnRecord

end OnRecord

/-! ### The session a step is for -/

/-- The id of the session an event is for: of the session on its connection, or of the one that
    an id line asks for. -/
def sessionId (c : Proc) : Event → Option ℤ
  | .line fd l =>
    match c.state fd with
    | .id => if checkid l then some (atoi l) else none
    | .exit | .command => some (c.requestP fd).id
    | .hi => none
  | .eof fd | .readError fd => if (c.state fd).leId then none else some (c.requestP fd).id
  | .accept _ | .errExit => none

/-- The step is for a session with id `902000 + k`. -/
def Serves (w : World P) (k : ℕ) (pe : P × Event) : Prop :=
  ∃ c, w.proc pe.1 = some c ∧ sessionId c pe.2 = some (902000 + k)

section Steps

variable {build : P → Build} {w w' : World P} {p : P} {a : Active P}

omit [DecidableEq P] in
/-- Where a handler starts, the offset is at the record and nothing has been traced. -/
theorem ProcInv.onRecord {b : Build} {leak : ℕ → ℕ} {lk : ℕ → Option LockKind} {k : ℕ}
    (inv : ProcInv b leak a.proc lk) (hlen : a.file.length = fileSize) (hk : 1 ≤ k ∧ k ≤ 20) :
    Traced.OnRecord ⟨a, []⟩ k :=
  ⟨by simp, inv.wf.offset k hk.1 hk.2, hlen⟩

/-- The end of a session unlocks its own record; without a session nothing is unlocked. -/
theorem onEof_ops {b : Build} {leak : ℕ → ℕ} {fd : ℕ} (inv : ProcInv b leak a.proc (a.locks p))
    (hlen : a.file.length = fileSize) (hfd : fd ∈ a.proc.conns) {o : FileOp}
    (ho : o ∈ (Traced.onEof ⟨a, []⟩ b p fd).ops) :
    ∃ k : ℕ, (1 ≤ k ∧ k ≤ 20) ∧ sessionId a.proc (.eof fd) = some (902000 + k) ∧ o.On k := by
  rcases inv.session fd hfd with hid | ⟨k, hk1, hk20, hs⟩
  · cases b <;> simp [Traced.onEof, Traced.readEof, Traced.writeEof, Traced.run, hid,
      SessionState.leId] at ho
  · have hle : (a.proc.state fd).leId = false := by
      rw [hs.2.1]; cases b <;> rfl
    have hidx : bookIndex (a.proc.requestP fd).id = k := by rw [hs.2.2]; exact bookIndex_id hk20
    refine ⟨k, ⟨hk1, hk20⟩, by simp [sessionId, hle, hs.2.2], ?_⟩
    have hstart := inv.onRecord hlen ⟨hk1, hk20⟩
    cases b with
    | readServer => exact (hstart.readEof hle hidx).ops o ho
    | writeServer => exact (hstart.writeEof hle hidx).ops o ho

/-- A line is for the record that it names, or in a session for the record of the session. -/
theorem onLine_ops [Fintype P] {b : Build} {leak : ℕ → ℕ} {fd : ℕ} {l : List UInt8}
    (inv : ProcInv b leak a.proc (a.locks p)) (hlen : a.file.length = fileSize)
    (hfd : fd ∈ a.proc.conns) {o : FileOp}
    (ho : o ∈ ((Traced.run ⟨a, []⟩ (·.storeLine fd l)).onLine b p fd).ops) :
    ∃ k : ℕ, (1 ≤ k ∧ k ≤ 20) ∧ sessionId a.proc (.line fd l) = some (902000 + k) ∧ o.On k := by
  have hstate : (a.storeLine fd l).proc.state fd = a.proc.state fd := rfl
  have hbuf : ((a.storeLine fd l).proc.requestP fd).buf = l := by simp [Active.storeLine]
  have hstored {k : ℕ} (hk : 1 ≤ k ∧ k ≤ 20) :
      Traced.OnRecord (Traced.run ⟨a, []⟩ (·.storeLine fd l)) k :=
    (inv.onRecord hlen hk).run rfl rfl
  rcases inv.session fd hfd with hid | ⟨k, hk1, hk20, hs⟩
  · by_cases hcheck : checkid l = true
    · obtain ⟨k, hk1, hk20, hl⟩ := checkid_atoi hcheck
      refine ⟨k, ⟨hk1, hk20⟩, by simp [sessionId, hid, hcheck, hl], ?_⟩
      cases b with
      | readServer =>
        simp only [Traced.onLine, active_run, hstate, hid] at ho
        exact ((hstored ⟨hk1, hk20⟩).readId ⟨hk1, hk20⟩ (by rw [active_run, hbuf, hl])).ops o ho
      | writeServer =>
        simp only [Traced.onLine, active_run, hstate, hid] at ho
        exact ((hstored ⟨hk1, hk20⟩).writeId ⟨hk1, hk20⟩ (by rw [active_run, hbuf, hl])).ops o ho
    · -- no id, so no record is asked for
      cases b <;> simp [Traced.onLine, Traced.readId, Traced.writeId, hstate, hid, hbuf, hcheck,
        Traced.run] at ho
  · have hidx : bookIndex ((a.storeLine fd l).proc.requestP fd).id = k := by
      simpa [Active.storeLine, hs.2.2] using bookIndex_id hk20
    refine ⟨k, ⟨hk1, hk20⟩, by cases b <;> simp [sessionId, hs.2.1, hs.2.2, Build.live], ?_⟩
    cases b with
    | readServer =>
      simp only [Traced.onLine, active_run, hstate, hs.2.1, Build.live] at ho
      exact ((hstored ⟨hk1, hk20⟩).readExit hidx).ops o ho
    | writeServer =>
      simp only [Traced.onLine, active_run, hstate, hs.2.1, Build.live] at ho
      exact ((hstored ⟨hk1, hk20⟩).writeCommand ⟨hk1, hk20⟩ hidx).ops o ho

/-- **The operations of one step**: none, or all on the record of the session. -/
theorem handle_ops [Fintype P] {b : Build} {leak : ℕ → ℕ} {e : Event} {t : Traced P}
    (inv : ProcInv b leak a.proc (a.locks p)) (hlen : a.file.length = fileSize)
    (h : Traced.handle ⟨a, []⟩ b p e = some t) {o : FileOp} (ho : o ∈ t.ops) :
    ∃ k : ℕ, (1 ≤ k ∧ k ≤ 20) ∧ sessionId a.proc e = some (902000 + k) ∧ o.On k := by
  -- only an end of file or a line touches the record file
  cases e with
  | errExit => cases h
  | accept fd =>
    simp only [Traced.handle] at h
    split at h
    · cases h
    · cases h
      cases ho
  | readError fd =>
    simp only [Traced.handle] at h
    split at h
    · cases h
      cases ho
    · cases h
  | eof fd =>
    simp only [Traced.handle, inv.wf.master] at h
    split at h
    · rename_i hfd
      cases h
      exact onEof_ops inv hlen hfd ho
    · cases h
  | line fd l =>
    simp only [Traced.handle, inv.wf.master] at h
    split at h
    · rename_i hfd
      cases h
      exact onLine_ops inv hlen hfd ho
    · cases h

/-- **One step**: every operation on the file is on the record that the event is about. -/
theorem tracedStep_ops [Fintype P] (inv : w.Inv build) {pe : P × Event} {ops : List FileOp}
    (h : tracedStep build w pe = some (w', ops)) {o : FileOp} (ho : o ∈ ops) :
    ∃ k, (1 ≤ k ∧ k ≤ 20) ∧ Serves w k pe ∧ o.On k := by
  obtain ⟨p, e⟩ := pe
  simp only [tracedStep] at h
  cases hc : w.proc p with
  | none => simp [hc] at h
  | some c =>
    simp only [hc] at h
    split at h
    · cases h
      cases ho
    · -- what the handler logs it logs for the id of the session
      obtain ⟨t, ht, hpair⟩ := Option.map_eq_some_iff.mp h
      cases hpair
      obtain ⟨leak, hinv⟩ := inv.proc p c hc
      obtain ⟨k, hk, hid, hon⟩ := handle_ops hinv inv.size ht ho
      exact ⟨k, hk, ⟨c, hc, hid⟩, hon⟩

/-- A step changes the counts of a record only for a session on it. -/
theorem step_counts_of_not_serves [Fintype P] (inv : w.Inv build) {pe : P × Event}
    (h : step build w pe = some w') {k : ℕ} (hk : 1 ≤ k ∧ k ≤ 20) (hne : ¬ Serves w k pe) :
    w'.counts k = w.counts k := by
  obtain ⟨p, e⟩ := pe
  rcases step_accepted inv h with ⟨-, hfile⟩ | ⟨c, c', fd, l, j, ch, rfl, -, hc, -, hs, hj, -, -,
    hfile, -⟩
  · rw [World.counts, World.counts, hfile]
  · have hjk : k ≠ j := by
      rintro rfl
      exact hne ⟨c, hc, by simp [sessionId, hs.2.1, hs.2.2]⟩
    rw [World.counts, World.counts, hfile, recordAt_writeAt_of_ne inv.size hk hj hjk]

/-- No step changes the id of a record. -/
theorem step_recordId [Fintype P] (inv : w.Inv build) {pe : P × Event}
    (h : step build w pe = some w') {k : ℕ} (hk : 1 ≤ k ∧ k ≤ 20) :
    (recordAt w'.file k).id = (recordAt w.file k).id := by
  obtain ⟨p, e⟩ := pe
  rcases step_accepted inv h with ⟨-, hfile⟩ | ⟨c, c', fd, l, j, ch, -, -, -, -, -, hj, -, -,
    hfile, -⟩
  · rw [hfile]
  · by_cases hjk : k = j
    · subst hjk
      rw [hfile, recordAt_writeAt_self inv.size hk]
    · rw [hfile, recordAt_writeAt_of_ne inv.size hk hj hjk]

/-- No run changes the id of a record. -/
theorem run_recordId [Fintype P] (inv : w.Inv build) {es : List (P × Event)}
    (hrun : runFrom (step build) w es = some w') {k : ℕ} (hk : 1 ≤ k ∧ k ≤ 20) :
    (recordAt w'.file k).id = (recordAt w.file k).id := by
  let I : World P → Prop := fun v => v.Inv build ∧ (recordAt v.file k).id = (recordAt w.file k).id
  have hstep (v : World P) (pe : P × Event) (v' : World P) (hv : I v)
      (hs : step build v pe = some v') : I v' :=
    ⟨step_inv hv.1 hs, (step_recordId hv.1 hs hk).trans hv.2⟩
  have hend : I w' := runFrom_invariant hstep ⟨inv, rfl⟩ hrun
  exact hend.2

/-- A run that never serves `k` leaves its counts alone. -/
theorem run_counts_of_not_serves [Fintype P] (inv : w.Inv build) {es : List (P × Event)}
    (hrun : runFrom (step build) w es = some w') {k : ℕ} (hk : 1 ≤ k ∧ k ≤ 20)
    (hother : EveryStep (step build) (fun v pe => ¬ Serves v k pe) w es) :
    w'.counts k = w.counts k := by
  let I : World P → Prop := fun v => v.Inv build ∧ v.counts k = w.counts k
  have hstep (v : World P) (pe : P × Event) (v' : World P) (hv : I v) (hne : ¬ Serves v k pe)
      (hs : step build v pe = some v') : I v' :=
    ⟨step_inv hv.1 hs, (step_counts_of_not_serves hv.1 hs hk hne).trans hv.2⟩
  have hend : I w' := EveryStep.invariant hstep ⟨inv, rfl⟩ hother hrun
  exact hend.2

/-- **A session touches its own record only.**  In every reachable state each `book[k]` of each
    process stands at record `k`; every lock, unlock, read and write of a step covers exactly the
    16 bytes of the record of the session the step is for; no record ever changes its id; and the
    counts of a record stay as they are along every run without a step for a session on it. -/
theorem own_record [Fintype P] (build : P → Build) (f : BookingFile) (es : List (P × Event))
    (w : World P) (hrun : runFrom (step build) (World.start f) es = some w) :
    (∀ p c, w.proc p = some c → ∀ k, 1 ≤ k → k ≤ 20 → c.offset k = 16 * (k - 1)) ∧
    (∀ p e w' ops, tracedStep build w (p, e) = some (w', ops) → ∀ o ∈ ops,
      ∃ k, (1 ≤ k ∧ k ≤ 20) ∧ Serves w k (p, e) ∧ o.On k) ∧
    (∀ k, 1 ≤ k → k ≤ 20 → (recordAt w.file k).id = (recordAt f.bytes k).id) ∧
    (∀ k, 1 ≤ k → k ≤ 20 → ∀ es' w', runFrom (step build) w es' = some w' →
      EveryStep (step build) (fun v pe => ¬ Serves v k pe) w es' → w'.counts k = w.counts k) := by
  have inv : w.Inv build := reachable_inv ⟨es, hrun⟩
  refine ⟨?_, ?_, ?_, ?_⟩
  · intro p c hc k hk1 hk20
    obtain ⟨leak, hinv⟩ := inv.proc p c hc
    rw [hinv.wf.offset k hk1 hk20, recordStart_eq]
  · intro p e w' ops hstep o ho
    exact tracedStep_ops inv hstep ho
  · intro k hk1 hk20
    exact run_recordId (World.start_inv f) hrun ⟨hk1, hk20⟩
  · intro k hk1 hk20 es' w' hrun' hother
    exact run_counts_of_not_serves inv hrun' ⟨hk1, hk20⟩ hother

/-- The world before the command of `booking`: the session of 902001 is open. -/
def openSession : World (Fin 2) := endOf (step twoServers) (World.start .zero) (booking.take 2)

/-- The command of 902001 reads, writes, reads back and unlocks bytes `0, …, 15`: its record, by
    the theorem. -/
theorem own_record_booking :
    ((tracedStep twoServers openSession (0, .line 24 (ascii "3 0 2"))).map Prod.snd =
      some [⟨.read, 1, 0, 16⟩, ⟨.write, 1, 0, 16⟩, ⟨.read, 1, 0, 16⟩, ⟨.unlock, 1, 0, 16⟩]) ∧
    ∃ k, (1 ≤ k ∧ k ≤ 20) ∧ Serves openSession k (0, .line 24 (ascii "3 0 2")) ∧
      FileOp.On k ⟨.write, 1, 0, 16⟩ := by
  have hops : (tracedStep twoServers openSession (0, .line 24 (ascii "3 0 2"))).map Prod.snd =
      some [⟨.read, 1, 0, 16⟩, ⟨.write, 1, 0, 16⟩, ⟨.read, 1, 0, 16⟩, ⟨.unlock, 1, 0, 16⟩] := by
    decide +kernel
  refine ⟨hops, ?_⟩
  obtain ⟨⟨w', ops⟩, hstep, hsnd⟩ := Option.map_eq_some_iff.mp hops
  have hmem : ⟨.write, 1, 0, 16⟩ ∈ ops := by
    have hops' : ops = _ := hsnd
    simp [hops']
  exact (own_record twoServers .zero (booking.take 2) openSession
    (runFrom_endOf (by decide +kernel))).2.1 0 _ w' ops hstep _ hmem

end Steps

end SystemProgramming.Booking
