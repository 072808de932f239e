import SystemProgramming.Threads.Termination

namespace SystemProgramming.Threads

open Program Transition Replay

/-!
# Thread library — `main`

`init_threads` creates up to three threads, one of each function, and `main` returns when all of
them have exited.

* `main_prints` — under each id, `main` prints the values of that thread's function and, when it
  returns, all of them;
* `main_ends` — every execution returns or ends in a `select` that fails or waits in vain.
-/

/-- The arguments of `init_threads`. -/
structure Args where
  fibArg : Int32
  colArg : Int32
  subArg : Int32

/-- What `open` and `malloc` return in the `thread_setup` of a function. -/
structure Setup where
  fd : Func → ℕ
  block : Func → Fin bufSize → UInt8

/-- `thread_create(func, id, arg)` -/
def Setup.thread (setup : Setup) (func : Func) (id arg : Int32) : Thread :=
  ⟨⟨id, arg, setup.fd func, setup.block func⟩, func⟩

/-- `if (arg >= 0) thread_create(func, id, arg);` -/
def Setup.create (setup : Setup) (func : Func) (id arg : Int32) : List Thread :=
  if arg ≥ 0 then [setup.thread func id arg] else []

/-- `init_threads` -/
def initThreads (setup : Setup) (args : Args) : List Thread :=
  setup.create .fibonacci 0 args.fibArg ++ setup.create .collatz 1 args.colArg ++
    setup.create .maxSubarray 2 args.subArg

variable {setup : Setup} {args : Args} {m : Machine} {th : Thread} {p : Ptr} {func : Func}
  {id arg : Int32}

/-- A thread is created unless its argument is negative. -/
theorem mem_create : th ∈ setup.create func id arg ↔
    0 ≤ arg ∧ th = setup.thread func id arg := by
  unfold Setup.create
  split
  · rename_i h
    rw [List.mem_singleton]
    exact (and_iff_right h).symm
  · rename_i h
    exact iff_of_false (List.not_mem_nil) fun h' => h h'.1

/-- A thread is one of the three. -/
theorem mem_initThreads : th ∈ initThreads setup args ↔
    th ∈ setup.create .fibonacci 0 args.fibArg ∨ th ∈ setup.create .collatz 1 args.colArg ∨
      th ∈ setup.create .maxSubarray 2 args.subArg := by
  rw [initThreads, List.mem_append, List.mem_append, or_assoc]

/-- The id of a thread is the one it was created with. -/
theorem map_id_create :
    (setup.create func id arg).map (fun th => th.id) = if arg ≥ 0 then [id] else [] := by
  unfold Setup.create
  split <;> rfl

/-- The threads have the ids `0`, `1` and `2`. -/
theorem nodup_initThreads (setup : Setup) (args : Args) :
    ((initThreads setup args).map fun th => th.id).Nodup := by
  rw [initThreads, List.map_append, List.map_append, map_id_create, map_id_create, map_id_create]
  split <;> split <;> split <;> decide

/-- There are at most three threads. -/
theorem length_initThreads (setup : Setup) (args : Args) :
    (initThreads setup args).length ≤ threadMax := by
  have hlen (func id arg) : (setup.create func id arg).length ≤ 1 := by
    unfold Setup.create
    split <;> simp
  have hfib := hlen .fibonacci 0 args.fibArg
  have hcol := hlen .collatz 1 args.colArg
  have hsub := hlen .maxSubarray 2 args.subArg
  rw [initThreads, List.length_append, List.length_append, threadMax]
  omega

/-- **`main` starts** its threads, if there are any. -/
theorem begin_main (hsome : initThreads setup args ≠ []) :
    ∃ m₀, begin (initThreads setup args) = .ok m₀ ∧ Isolated (initThreads setup args) m₀ := by
  obtain ⟨m₀, hm₀, hisolated, -⟩ :=
    begin_isolated (List.length_pos_iff.mpr hsome) (length_initThreads setup args)
  exact ⟨m₀, hm₀, hisolated⟩

/-- Without a thread, `main` follows a null pointer. -/
theorem begin_nil : begin [] = .error (.fault .null) := rfl

/-! ### What is printed -/

/-- Under `id` the numbers `us` are printed in order, and all of them when `main` returns. -/
structure Complete (m : Machine) (id : Int32) (us : List ℤ) : Prop where
  values : (m.printed id).map Int32.toInt <+: us
  all : m.sched.control = .returned → (m.printed id).map Int32.toInt = us

/-- When `main` returns, every thread has exited. -/
theorem Isolated.exited {ts : List Thread} (h : Isolated ts m) (hk : m.sched.control = .returned)
    (p : Ptr) : m.sched.heap p = none := by
  obtain ⟨r, w, hsound, ⟨c, hc, -⟩ | ⟨-, rfl, rfl⟩⟩ := h.settled
  · cases hc.symm.trans hk
  · by_contra hne
    have halive : (m.sched.heap p).isSome = true := Option.isSome_iff_ne_none.mpr hne
    cases (hsound.alive p).mpr halive

/-- A thread that counts prints its values, whatever the others do. -/
theorem Counts.complete {ts : List Thread} {us : List ℤ} {inv : ℕ → Locals → Prop}
    (h : Counts th us inv) (hth : th ∈ ts) (hm : Isolated ts m) : Complete m th.id us := by
  obtain ⟨p, hp⟩ := List.mem_iff_getElem?.mp hth
  have hprints := h.prints hp hm
  exact ⟨hprints.values, fun hk => hprints.exits.mp (hm.exited hk p)⟩

/-- Among any threads, `max_subarray` prints the running maximum. -/
theorem Delivers.sumsUp {ts : List Thread} {fifo : ℕ → Chunk} {xs : List ℤ}
    (h : Delivers th fifo xs) (hth : ts[p]? = some th) (hm : Isolated ts m)
    (hfeeds : Course.Feeds fifo (m.received p)) : SumsUp m p th xs := by
  obtain ⟨l, hl, hreached⟩ := hm.own p th hth
  rw [hl.received] at hfeeds
  obtain ⟨j, rfl⟩ := hreached fifo hfeeds
  obtain ⟨k, hk | hk⟩ := atHead_or_atRead h j
  · exact hk.sumsUp hl
  · exact hk.sumsUp hl

/-- **What `main` prints.**  However the threads are switched, under the id `0` come the first
    `fib_arg` Fibonacci numbers, under `1` the Collatz sequence of `col_arg` down to one, and under
    `2` the running maxima of the numbers that the FIFO delivers; when `main` returns, all of
    them. -/
theorem main_prints (setup : Setup) (args : Args) (hsome : initThreads setup args ≠ []) :
    ∃ m₀, begin (initThreads setup args) = .ok m₀ ∧
      ∀ es m, runFrom (Machine.stepOk (initThreads setup args)) m₀ es = some m →
        (∀ n : ℕ, args.fibArg.toInt = n → 1 ≤ n → Nat.fib n < 2 ^ 31 → Complete m 0 (fibs n)) ∧
        (∀ c n : ℕ, args.colArg.toInt = c → Descends c n → Complete m 1 (orbit c n)) ∧
        ∀ p th fifo xs, (initThreads setup args)[p]? = some th → Delivers th fifo xs →
          Course.Feeds fifo (m.received p) → Maxima xs (m.printed th.id) ∧
            (m.printed th.id).length ≤ xs.length ∧
            (m.sched.control = .returned → (m.printed th.id).length = xs.length) := by
  obtain ⟨m₀, hm₀, hisolated₀⟩ := begin_main hsome
  refine ⟨m₀, hm₀, fun es m hrun => ?_⟩
  have hm : Isolated (initThreads setup args) m :=
    hisolated₀.reachable (nodup_initThreads setup args) ⟨es, hrun⟩
  -- a thread is only created when its argument is not negative
  have hpos {arg : Int32} {n : ℕ} (harg : arg.toInt = n) : 0 ≤ arg := by
    have hzero : (0 : Int32).toInt = 0 := rfl
    rw [Int32.le_iff_toInt_le, harg, hzero]
    exact Int.natCast_nonneg n
  refine ⟨fun n harg hn hfib => ?_, fun c n harg hdescends => ?_,
    fun p th fifo xs hth hdelivers hfeeds => ?_⟩
  · have hmem := mem_initThreads.mpr (.inl (mem_create.mpr ⟨hpos harg, rfl⟩) :
      _ ∈ setup.create .fibonacci 0 args.fibArg ∨ _)
    exact (fibonacci_counts rfl harg hn hfib).complete hmem hm
  · have hmem := mem_initThreads.mpr (.inr (.inl (mem_create.mpr ⟨hpos harg, rfl⟩)) :
      _ ∨ _ ∈ setup.create .collatz 1 args.colArg ∨ _)
    exact (collatz_counts rfl harg hdescends).complete hmem hm
  · have hsums := hdelivers.sumsUp hth hm hfeeds
    exact ⟨hsums.maxima, hsums.le, fun hk => hsums.exits.mp (hm.exited hk p)⟩

/-- Three Fibonacci numbers and the Collatz sequence of four. -/
def threeAndFour : Args := ⟨3, 4, -1⟩

/-- All FIFOs are open at `5` and nothing was in the blocks. -/
def openAtFive : Setup := ⟨fun _ => 5, fun _ _ => 0⟩

/-- The orbit of four is two and one. -/
theorem descends_four : Descends 4 2 where
  pos := by decide
  one := rfl
  first k hk hlt := by
    obtain rfl : k = 1 := by omega
    decide
  values k hk := by
    obtain rfl | rfl | rfl : k = 0 ∨ k = 1 ∨ k = 2 := by omega
    all_goals decide
  rounds := by decide

/-- Three Fibonacci numbers and the orbit of four, in five pieces. -/
theorem main_prints_threeAndFour :
    ∃ m₀ m, begin (initThreads openAtFive threeAndFour) = .ok m₀ ∧
      runFrom (Machine.stepOk (initThreads openAtFive threeAndFour)) m₀
        (List.replicate 5 (quiet 5 seven)) = some m ∧
      (m.printed 0).map Int32.toInt = fibs 3 ∧ (m.printed 1).map Int32.toInt = orbit 4 2 := by
  obtain ⟨m₀, hm₀, hall⟩ := main_prints openAtFive threeAndFour (by decide)
  have hruns : (((begin (initThreads openAtFive threeAndFour)).toOption.bind fun m =>
      runFrom (Machine.stepOk (initThreads openAtFive threeAndFour)) m
        (List.replicate 5 (quiet 5 seven))).map fun m => m.sched.control) = some .returned := by
    decide +kernel
  rw [hm₀] at hruns
  obtain ⟨m, hm, hreturned⟩ := Option.map_eq_some_iff.mp hruns
  obtain ⟨hfib, hcol, -⟩ := hall _ m hm
  refine ⟨m₀, m, hm₀, hm, ?_, ?_⟩
  · exact (hfib 3 rfl (by decide) (by decide)).all hreturned
  · exact (hcol 4 2 rfl descends_four).all hreturned

/-! ### The end -/

/-- Arguments that leave the loops of the threads: `fib`, `col` and `sub` are their rounds. -/
structure Rounds (args : Args) (fib col sub : ℕ) : Prop where
  fibonacci : 0 ≤ args.fibArg → args.fibArg.toInt = fib ∧ 1 ≤ fib ∧ Nat.fib fib < 2 ^ 31
  collatz : 0 ≤ args.colArg → ∃ c, args.colArg.toInt = (c : ℕ) ∧ Descends c col
  maxSubarray : 0 ≤ args.subArg → args.subArg.toInt = sub ∧ 1 ≤ sub

/-- The pieces of a thread. -/
def Func.pieces (fib col sub : ℕ) : Func → ℕ
  | .fibonacci => fib
  | .collatz => col
  | .maxSubarray => 2 * sub

/-- Every thread comes to the end of its loop. -/
theorem Rounds.lasts {fib col sub : ℕ} (h : Rounds args fib col sub)
    (hth : th ∈ initThreads setup args) : Lasts th (th.func.pieces fib col sub) := by
  rcases mem_initThreads.mp hth with hfib | hcol | hsub
  · obtain ⟨hpos, rfl⟩ := mem_create.mp hfib
    obtain ⟨harg, hn, hrange⟩ := h.fibonacci hpos
    have hcounts : Counts (setup.thread .fibonacci 0 args.fibArg) (fibs fib) FibLocals :=
      fibonacci_counts rfl harg hn hrange
    have hlasts := hcounts.lasts
    rwa [fibs, List.length_map, List.length_range] at hlasts
  · obtain ⟨hpos, rfl⟩ := mem_create.mp hcol
    obtain ⟨c, harg, hdescends⟩ := h.collatz hpos
    have hcounts : Counts (setup.thread .collatz 1 args.colArg) (orbit c col) (CollatzLocals c) :=
      collatz_counts rfl harg hdescends
    have hlasts := hcounts.lasts
    rwa [orbit, List.length_map, List.length_range] at hlasts
  · obtain ⟨hpos, rfl⟩ := mem_create.mp hsub
    obtain ⟨harg, hn⟩ := h.maxSubarray hpos
    exact lasts_maxSubarray rfl harg hn

/-- The pieces of all threads. -/
theorem sum_pieces_le (setup : Setup) (args : Args) (fib col sub : ℕ) :
    ((initThreads setup args).map fun th => th.func.pieces fib col sub).sum ≤
      fib + col + 2 * sub := by
  have hle (func id arg) : ((setup.create func id arg).map
      fun th => th.func.pieces fib col sub).sum ≤ func.pieces fib col sub := by
    unfold Setup.create
    split
    · exact Nat.le_of_eq (Nat.add_zero _)
    · exact Nat.zero_le _
  rw [initThreads, List.map_append, List.map_append, List.sum_append, List.sum_append]
  exact Nat.add_le_add (Nat.add_le_add (hle ..) (hle ..)) (hle ..)

/-- **`main` comes to an end.**  Whatever signals there are, what the FIFO holds and what `select` is
    told: after at most as many pieces as the threads have rounds, twice as many for
    `max_subarray`, `main` has returned, or a `select` fails or waits in vain. -/
theorem main_ends (setup : Setup) (args : Args) {fib col sub : ℕ} (h : Rounds args fib col sub)
    (hsome : initThreads setup args ≠ []) :
    ∃ m₀, begin (initThreads setup args) = .ok m₀ ∧ ∀ inputs : ℕ → Input,
      ∃ k ≤ fib + col + 2 * sub, ∃ m,
        runFrom (Machine.stepOk (initThreads setup args)) m₀ ((List.range k).map inputs) = some m ∧
        (m.sched.control = .returned ∨
          m.step (initThreads setup args) (inputs k) = .error .exit ∨
          m.step (initThreads setup args) (inputs k) = .error .blocked) := by
  have hids := nodup_initThreads setup args
  obtain ⟨m₀, ls, hm₀, hwalks⟩ :=
    begin_walks (List.length_pos_iff.mpr hsome) (length_initThreads setup args)
  refine ⟨m₀, hm₀, fun inputs => ?_⟩
  -- each step is a piece of some thread, and together the threads have so many pieces
  have hbound (k : ℕ) (m : Machine)
      (hrun : runFrom (Machine.stepOk (initThreads setup args)) m₀ ((List.range k).map inputs) =
        some m) : k ≤ fib + col + 2 * sub := by
    obtain ⟨ls', hwalks'⟩ := hwalks.run hids hrun
    have hle := hwalks'.le fun th hth => h.lasts hth
    rw [List.length_map, List.length_range, Nat.zero_add] at hle
    exact hle.trans (sum_pieces_le setup args fib col sub)
  obtain ⟨k, hk, m, hrun, hstuck⟩ := exists_stuck hbound
  refine ⟨k, hk, m, hrun, ?_⟩
  have hisolated : Isolated (initThreads setup args) m := hwalks.isolated.reachable hids ⟨_, hrun⟩
  -- a step fails behind the end, in a `select` that fails or in one that never returns
  cases hstep : m.step (initThreads setup args) (inputs k) with
  | ok m' =>
    rw [Machine.stepOk, hstep] at hstuck
    cases hstuck
  | error stop =>
    rcases hisolated.stuck hstep with hreturned | rfl | rfl
    · exact .inl hreturned
    · exact .inr (.inl rfl)
    · exact .inr (.inr rfl)

/-- Three Fibonacci numbers and the orbit of four: without signals, there are at most five pieces
    before `main` returns or a `select` fails or waits in vain. -/
theorem main_ends_threeAndFour :
    ∃ m₀, begin (initThreads openAtFive threeAndFour) = .ok m₀ ∧ ∃ k ≤ 5, ∃ m,
      runFrom (Machine.stepOk (initThreads openAtFive threeAndFour)) m₀
        ((List.range k).map fun _ => quiet 5 seven) = some m ∧
      (m.sched.control = .returned ∨
        m.step (initThreads openAtFive threeAndFour) (quiet 5 seven) = .error .exit ∨
        m.step (initThreads openAtFive threeAndFour) (quiet 5 seven) = .error .blocked) := by
  have hrounds : Rounds threeAndFour 3 2 0 := by
    refine ⟨fun _ => ⟨rfl, by decide, by decide⟩, fun _ => ⟨4, rfl, descends_four⟩, fun h => ?_⟩
    exact absurd h (by decide)
  obtain ⟨m₀, hm₀, hall⟩ := main_ends openAtFive threeAndFour hrounds (by decide)
  exact ⟨m₀, hm₀, hall fun _ => quiet 5 seven⟩

end SystemProgramming.Threads
