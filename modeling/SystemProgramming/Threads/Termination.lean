import Mathlib.Algebra.BigOperators.Fin
import Mathlib.Algebra.Order.BigOperators.Group.Finset
import SystemProgramming.Threads.Sequences

namespace SystemProgramming.Threads

open Program Transition Replay

/-!
# Thread library — `main` comes to an end

Each step of the machine is one piece of one thread (`Walks`), so a run is as long as the pieces of
the courses of its threads are many.  With a bound on these (`Lasts`), every execution ends: `main`
returns, or a `select` fails or waits in vain.
-/

variable {ts : List Thread} {th : Thread} {m m' : Machine} {e : Input} {p : Ptr} {l : Course}

/-! ### Counting pieces -/

/-- The pieces that the thread has executed: one for each value printed and, for an `async_read`, one
    up to its `setjmp`. -/
def Course.pieces (l : Course) : ℕ :=
  l.printed.length + l.received.length + if l.here = some .read then 1 else 0

theorem Course.pieces_advance {j : Jump} {bytes : Chunk} {piece : Piece} {arg : Int32} {f : Func}
    (hj : l.here = some j) (hpiece : f.piece j bytes arg l.locals = some piece) :
    (l.advance j bytes piece).pieces = l.pieces + 1 := by
  have hyield {c : Prop} [Decidable c] := Course.exit_or_yield (c := c)
  unfold Course.pieces
  rw [hj]
  -- a piece prints a value, or it is the one in front of the read
  cases f with
  | fibonacci | collatz =>
    cases j with
    | read => cases hpiece
    | setup | yield =>
      cases hpiece
      simp [Course.advance, Locals.fibonacci, Locals.collatz, hyield]
      omega
  | maxSubarray =>
    cases j with
    | setup | yield =>
      cases hpiece
      simp [Course.advance, Call.place]
    | read =>
      cases hpiece
      simp [Course.advance, Locals.maxSubarray, hyield]
      omega

/-- The threads of a machine stand on their courses at `ls`, after `steps` pieces in all. -/
structure Walks (ts : List Thread) (m : Machine) (ls : Ptr → Course) (steps : ℕ) : Prop where
  isolated : Isolated ts m
  follows : ∀ p th, ts[p]? = some th → Follows m p th (ls p) ∧ Course.Reached th (ls p)
  steps : ∑ p ∈ Finset.range ts.length, (ls p).pieces = steps

theorem begin_walks (hpos : 1 ≤ ts.length) (hmax : ts.length ≤ threadMax) :
    ∃ m₀ ls, begin ts = .ok m₀ ∧ Walks ts m₀ ls 0 := by
  obtain ⟨m₀, hm₀, hisolated, hfollows⟩ := begin_isolated hpos hmax
  refine ⟨m₀, fun p => ts[p]?.elim (.init ⟨⟨0, 0, 0, fun _ => 0⟩, .fibonacci⟩) Course.init, hm₀,
    hisolated, fun p th hth => ?_, ?_⟩
  · simp only [hth, Option.elim_some]
    exact ⟨hfollows p th hth, .init⟩
  · refine Finset.sum_eq_zero fun p _ => ?_
    cases ts[p]? <;> rfl

/-- One step is one piece. -/
theorem Walks.step (hids : (ts.map fun th => th.id).Nodup) {ls : Ptr → Course} {steps : ℕ}
    (h : Walks ts m ls steps) (hstep : m.step ts e = .ok m') :
    ∃ ls', Walks ts m' ls' (steps + 1) := by
  obtain ⟨p, thp, t, piece, hthp, hid, -, -, henv, hstepped, -⟩ := h.isolated.stepped hstep
  have hjump : t.environment.jump = m.here := by rw [henv]
  obtain ⟨hl, hreached⟩ := h.follows p thp hthp
  obtain ⟨hhere, -, hcode⟩ := hstepped.here hthp hjump hl
  refine ⟨Function.update ls p ((ls p).advance m.here e.bytes piece), h.isolated.step hids hstep,
    fun q th hth => ?_, ?_⟩
  · -- the thread that ran has one piece more, the others have none
    by_cases hq : q = p
    · subst hq
      rw [Function.update_self]
      obtain rfl : thp = th := Option.some.inj (hthp.symm.trans hth)
      exact ⟨hstepped.follows hth hjump hl, hreached.advance hhere hcode⟩
    · rw [Function.update_of_ne hq]
      obtain ⟨hlq, hreachedq⟩ := h.follows q th hth
      refine ⟨hstepped.follows_other hq ?_ hlq, hreachedq⟩
      intro hsame
      refine hq ((List.getElem?_inj ?_ hids).mp ?_)
      · rw [List.length_map]
        exact (List.getElem?_eq_some_iff.mp hth).1
      · rw [List.getElem?_map, List.getElem?_map, hth, hthp]
        exact congrArg some (hsame.symm.trans hid)
  · have hp : p ∈ Finset.range ts.length :=
      Finset.mem_range.mpr (List.getElem?_eq_some_iff.mp hthp).1
    have hsum := h.steps
    rw [← Finset.add_sum_erase _ _ hp] at hsum ⊢
    rw [Function.update_self, Course.pieces_advance hhere hcode,
      Finset.sum_congr rfl fun q hq => by rw [Function.update_of_ne (Finset.ne_of_mem_erase hq)]]
    omega

theorem Walks.run (hids : (ts.map fun th => th.id).Nodup) {ls : Ptr → Course} {steps : ℕ}
    {es : List Input} (h : Walks ts m ls steps) (hrun : runFrom (Machine.stepOk ts) m es = some m') :
    ∃ ls', Walks ts m' ls' (steps + es.length) := by
  induction es generalizing m ls steps with
  | nil =>
    cases hrun
    exact ⟨ls, h⟩
  | cons e es ih =>
    obtain ⟨m₁, hstep, hrest⟩ := runFrom_cons_eq_some.mp hrun
    obtain ⟨ls₁, h₁⟩ := h.step hids (stepOk_machine.mp hstep)
    obtain ⟨ls', h'⟩ := ih h₁ hrest
    refine ⟨ls', ?_⟩
    rwa [List.length_cons, Nat.add_comm es.length, ← Nat.add_assoc]

/-! ### Bounds -/

/-- The course of the thread has at most `n` pieces, whatever it reads. -/
def Lasts (th : Thread) (n : ℕ) : Prop := ∀ l, Course.Reached th l → l.pieces ≤ n

/-- A run is no longer than the courses of its threads. -/
theorem Walks.le {ls : Ptr → Course} {steps : ℕ} {bound : Thread → ℕ} (h : Walks ts m ls steps)
    (hbound : ∀ th ∈ ts, Lasts th (bound th)) : steps ≤ (ts.map bound).sum := by
  have hle (p : ℕ) (hp : p ∈ Finset.range ts.length) :
      (ls p).pieces ≤ (ts.map bound).getD p 0 := by
    obtain ⟨th, hth⟩ : ∃ th, ts[p]? = some th :=
      ⟨_, List.getElem?_eq_getElem (Finset.mem_range.mp hp)⟩
    rw [List.getD_eq_getElem?_getD, List.getElem?_map, hth]
    exact hbound th (List.mem_of_getElem? hth) _ (h.follows p th hth).2
  calc steps = ∑ p ∈ Finset.range ts.length, (ls p).pieces := h.steps.symm
    _ ≤ ∑ p ∈ Finset.range ts.length, (ts.map bound).getD p 0 := Finset.sum_le_sum hle
    _ = (ts.map bound).sum := by
      rw [← Fin.sum_univ_getElem, ← List.length_map bound, Finset.sum_range]
      refine Finset.sum_congr rfl fun p _ => ?_
      rw [List.getD_eq_getElem?_getD, List.getElem?_eq_getElem p.isLt]
      rfl

theorem Counts.lasts {us : List ℤ} {inv : ℕ → Locals → Prop} (h : Counts th us inv) :
    Lasts th us.length := by
  intro l hl
  obtain ⟨j, hj⟩ := hl _ (Course.feeds_default l.received)
  obtain ⟨k, hround⟩ := h.exists_round _ j
  rw [hj] at hround
  have hlen : l.printed.length = k := by
    have := congrArg List.length hround.printed
    rwa [List.length_map, List.length_take, Nat.min_eq_left hround.le] at this
  have hread : l.here ≠ some .read := by
    rw [hround.here]
    split_ifs <;> nofun
  rw [Course.pieces, hlen, hround.received, if_neg hread]
  exact hround.le

/-- `max_subarray`, after `k` rounds or in its round `k + 1`, whatever it reads. -/
structure Reading (n k : ℕ) (l : Course) : Prop where
  received : l.received.length = k
  printed : l.printed.length = k
  place : (k ≤ n ∧ l.here = (if k = n then none else if k = 0 then some .setup else some .yield) ∧
      (0 < k → l.locals.i.toInt = k)) ∨
    k < n ∧ l.here = some .read ∧ l.locals.i.toInt = (k + 1 : ℕ)

theorem reading_head {n k : ℕ} (harg : th.arg.toInt = n) (hfunc : th.func = .maxSubarray)
    {fifo : ℕ → Chunk} {l' : Course} (hl : Reading n k l) (hk : k < n)
    (hhere : l.here = some (if k = 0 then .setup else .yield)) (hi : 0 < k → l.locals.i.toInt = k)
    (hnext : Course.next th fifo l = some l') : Reading n k l' := by
  obtain ⟨j, piece, hj, hpiece, rfl⟩ := Course.next_eq_some.mp hnext
  have hrange : (n : ℤ) < 2 ^ 31 := harg ▸ th.arg.toInt_lt
  obtain rfl := Option.some.inj (hj.symm.trans hhere)
  have hread : (if k = 0 then Jump.setup else .yield) ≠ .read := by split <;> nofun
  have hcode : th.func.piece (if k = 0 then .setup else .yield) (fifo l.received.length) th.arg
      l.locals = some ⟨l.locals.head (if k = 0 then .setup else .yield), none, .asyncRead⟩ := by
    rw [hfunc]
    split <;> rfl
  rw [hcode] at hpiece
  cases hpiece
  refine ⟨?_, ?_, .inr ⟨hk, rfl, toInt_head hi (by omega)⟩⟩
  · show (if _ = Jump.read then _ else l.received).length = k
    rw [if_neg hread, hl.received]
  · show (l.printed ++ []).length = k
    rw [List.append_nil, hl.printed]

theorem reading_read {n k : ℕ} (harg : th.arg.toInt = n) (hfunc : th.func = .maxSubarray)
    {fifo : ℕ → Chunk} {l' : Course} (hl : Reading n k l) (hk : k < n)
    (hhere : l.here = some .read) (hi : l.locals.i.toInt = (k + 1 : ℕ))
    (hnext : Course.next th fifo l = some l') : Reading n (k + 1) l' := by
  obtain ⟨j, piece, hj, hpiece, rfl⟩ := Course.next_eq_some.mp hnext
  obtain rfl := Option.some.inj (hj.symm.trans hhere)
  have hcode : th.func.piece .read (fifo l.received.length) th.arg l.locals =
      some ((l.locals.read (fifo l.received.length)).maxSubarray th.arg) := by rw [hfunc]; rfl
  rw [hcode, maxSubarray_eq _ _ rfl] at hpiece
  cases hpiece
  refine ⟨?_, ?_, .inl ⟨hk, ?_, fun _ => hi⟩⟩
  · show (l.received ++ [_]).length = _
    rw [List.length_append, hl.received, List.length_singleton]
  · show (l.printed ++ [_]).length = _
    rw [List.length_append, hl.printed, List.length_singleton]
  · -- the exit is taken in the last round
    have hexit : l.locals.i = th.arg ↔ k + 1 = n := by
      rw [← Int32.toInt_inj, hi, harg]
      omega
    show (if l.locals.i = th.arg then Call.threadExit else .threadYield).place = _
    simp only [hexit, if_neg k.succ_ne_zero]
    split <;> rfl

theorem Reading.next {n k : ℕ} (harg : th.arg.toInt = n) (hfunc : th.func = .maxSubarray)
    {fifo : ℕ → Chunk} {l' : Course} (hl : Reading n k l)
    (hnext : Course.next th fifo l = some l') : ∃ k', Reading n k' l' := by
  rcases hl.place with ⟨hk, hhere, hi⟩ | ⟨hk, hhere, hi⟩
  · rcases hk.lt_or_eq with hlt | rfl
    · refine ⟨k, reading_head harg hfunc hl hlt ?_ hi hnext⟩
      rw [hhere, if_neg hlt.ne]
      split <;> rfl
    · -- it has exited
      obtain ⟨j, -, hj, -⟩ := Course.next_eq_some.mp hnext
      rw [hhere, if_pos rfl] at hj
      cases hj
  · exact ⟨k + 1, reading_read harg hfunc hl hk hhere hi hnext⟩

/-- `max_subarray` takes two pieces a round. -/
theorem lasts_maxSubarray {n : ℕ} (hfunc : th.func = .maxSubarray) (harg : th.arg.toInt = n)
    (hn : 1 ≤ n) : Lasts th (2 * n) := by
  intro l hl
  obtain ⟨j, hj⟩ := hl _ (Course.feeds_default l.received)
  have hinit : Reading n 0 (.init th) := by
    refine ⟨rfl, rfl, .inl ⟨Nat.zero_le n, ?_, fun h => absurd h (lt_irrefl 0)⟩⟩
    rw [if_neg (by omega), if_pos rfl]
    rfl
  -- `k` rounds are over, and the course is in front of the next one or in its read
  obtain ⟨k, hk⟩ : ∃ k, Reading n k l := by
    rw [← hj]
    exact after_invariant (I := fun l => ∃ k, Reading n k l)
      (fun _ _ ⟨_, hl⟩ hnext => hl.next harg hfunc hnext) ⟨0, hinit⟩ j
  rw [Course.pieces, hk.printed, hk.received]
  rcases hk.place with ⟨hle, hhere, -⟩ | ⟨hlt, -, -⟩
  · have hread : l.here ≠ some .read := by
      rw [hhere]
      split_ifs <;> nofun
    rw [if_neg hread]
    omega
  · split <;> omega

/-! ### The end -/

/-- Nothing but an answer of `select` stops a library call. -/
theorem exec_stops {fds : Ptr → ℕ} {n : ℕ} {s : Sched} {r w : List Ptr} {c : Context} {t : Tcb}
    {call : Call} {stop : Stop} (h : Executes fds n s r w c t)
    (hx : call.exec s e = .error stop) : stop = .exit ∨ stop = .blocked := by
  have hstop (ev : Event) (hstep : step s ev = .error stop) : stop = .exit ∨ stop = .blocked := by
    rcases (step_settled h.sound h.runs ev).of_error hstep with ⟨hexit, -⟩ | ⟨hblocked, -⟩
    · exact .inl hexit
    · exact .inr hblocked
  have hbind {x : Except Stop Sched} {f : Sched → Sched × Jump}
      (hx : (x.bind fun s => .ok (f s)) = .error stop) : x = .error stop := by
    cases x with
    | ok => cases hx
    | error => cases hx; rfl
  cases call with
  | threadYield => exact hstop _ (hbind hx)
  | asyncRead => exact hstop _ (hbind hx)
  | threadExit => exact hstop _ (hbind hx)

/-- A step that has no result: `main` has returned, or a `select` fails or waits in vain. -/
theorem Isolated.stuck {stop : Stop} (h : Isolated ts m) (hstep : m.step ts e = .error stop) :
    m.sched.control = .returned ∨ stop = .exit ∨ stop = .blocked := by
  cases hcontrol : m.sched.control with
  | main =>
    obtain ⟨r, w, -, ⟨c, hc, -⟩ | ⟨hc, -⟩⟩ := h.settled
    · cases hc.symm.trans hcontrol
    · cases hc.symm.trans hcontrol
  | returned => exact .inl rfl
  | running c =>
    right
    obtain ⟨r, w, t, hexec⟩ := h.settled.executes hcontrol
    -- the thread has a piece where it stands
    obtain ⟨th, hth⟩ : ∃ th, ts[c.thread]? = some th := ⟨_, List.getElem?_eq_getElem hexec.below⟩
    obtain ⟨l, hl, hreached⟩ := h.own c.thread th hth
    obtain ⟨t', ht', hjump⟩ := h.enters c hcontrol
    obtain rfl : t = t' := Option.some.inj (hexec.tcb.symm.trans ht')
    have htcb := hl.tcb
    rw [hexec.tcb] at htcb
    obtain ⟨j, hj, rfl⟩ := Option.map_eq_some_iff.mp htcb.symm
    obtain rfl : j = m.here := hjump
    have hnext : Course.next th (fun _ => e.bytes) l ≠ none := by
      rw [Ne, hreached.placed.ended_iff, hj]
      nofun
    obtain ⟨l', hl'⟩ := Option.ne_none_iff_exists'.mp hnext
    obtain ⟨j', piece, hj', hpiece, -⟩ := Course.next_eq_some.mp hl'
    obtain rfl := Option.some.inj (hj.symm.trans hj')
    have hcode : (funcOf ts c.thread).piece m.here e.bytes th.arg l.locals = some piece := by
      have hfunc : funcOf ts c.thread = th.func := by rw [funcOf, hth]; rfl
      rw [hfunc, hpiece]
    obtain ⟨s₁, hcompute, hexec₁, -⟩ := hexec.compute piece.locals
    rw [step_eq hexec] at hstep
    have hcode' : (funcOf ts c.thread).piece m.here e.bytes ((th.tcb c.thread).left c.thread
        l.locals m.here).arg ((th.tcb c.thread).left c.thread l.locals m.here).locals =
          some piece := hcode
    simp only [hcode', hcompute] at hstep
    change (piece.call.exec s₁ e).bind _ = _ at hstep
    cases hx : piece.call.exec s₁ e with
    | error stop' =>
      rw [hx] at hstep
      cases hstep
      exact exec_stops hexec₁ hx
    | ok =>
      rw [hx] at hstep
      cases hstep

end SystemProgramming.Threads
