import Mathlib.Data.Nat.Fib.Basic
import SystemProgramming.Threads.MaxSubarray

namespace SystemProgramming.Threads

open Program Transition Replay

/-!
# Thread library — what `main` prints

`fibonacci` and `collatz` go through a round for each value they print, with a `thread_yield`
between two rounds.  `Counts` is the invariant of such a loop, which `fibonacci` and `collatz` each
instantiate; from it, whatever the other threads do and however the threads are switched, a thread
prints its values in order and exits with the last one (`Prints`).
-/

/-! ### Rounds -/

/-- The thread goes through a round for each of the numbers `us`: `inv k` holds of what it keeps
    after `k` rounds, each prints the next number, and the last one exits. -/
structure Counts (th : Thread) (us : List ℤ) (inv : ℕ → Locals → Prop) : Prop where
  pos : 1 ≤ us.length
  start : inv 0 (th.tcb 0).locals
  round : ∀ k u l bytes, us[k]? = some u → inv k l →
    ∃ l' v, th.func.piece (if k = 0 then .setup else .yield) bytes th.arg l =
        some ⟨l', some v, if k + 1 = us.length then .threadExit else .threadYield⟩ ∧
      v.toInt = u ∧ inv (k + 1) l'

/-- The thread stands at the head of its loop after `k` rounds, or has exited. -/
structure AtRound (us : List ℤ) (inv : ℕ → Locals → Prop) (k : ℕ) (l : Course) : Prop where
  printed : l.printed.map Int32.toInt = us.take k
  received : l.received = []
  le : k ≤ us.length
  here : l.here = if k = us.length then none else if k = 0 then some .setup else some .yield
  locals : inv k l.locals

variable {ts : List Thread} {th : Thread} {fifo : ℕ → Chunk} {us : List ℤ}
  {inv : ℕ → Locals → Prop} {l l' : Course} {k : ℕ} {m : Machine} {p : Ptr}

/-- At the start no value has been printed. -/
theorem Counts.init (h : Counts th us inv) : AtRound us inv 0 (.init th) where
  printed := rfl
  received := rfl
  le := Nat.zero_le _
  here := by
    have hpos := h.pos
    rw [if_neg (by omega), if_pos rfl]
    rfl
  locals := h.start

/-- **One round** of the thread by itself prints the next value. -/
theorem Counts.next (h : Counts th us inv) (hl : AtRound us inv k l) (hk : k < us.length) :
    ∃ l', Course.next th fifo l = some l' ∧ AtRound us inv (k + 1) l' := by
  obtain ⟨u, hu⟩ : ∃ u, us[k]? = some u := ⟨_, List.getElem?_eq_getElem hk⟩
  -- the first round enters at `setup`, the later ones at `yield`, and none at `read`
  have hhere : l.here = some (if k = 0 then .setup else .yield) := by
    rw [hl.here, if_neg hk.ne]
    split <;> rfl
  have hread : (if k = 0 then Jump.setup else .yield) ≠ .read := by split <;> nofun
  obtain ⟨l', v, hpiece, hv, hinv⟩ := h.round k u l.locals (fifo l.received.length) hu hl.locals
  refine ⟨_, Course.next_eq_some.mpr ⟨_, _, hhere, hpiece, rfl⟩, ?_, ?_, hk, ?_, hinv⟩
  · show (l.printed ++ [v]).map Int32.toInt = _
    rw [List.map_append, hl.printed, List.take_add_one, hu, List.map_singleton, hv]
    rfl
  · show (if _ = Jump.read then _ else l.received) = []
    rw [if_neg hread, hl.received]
  · show Call.place _ = _
    rw [if_neg k.succ_ne_zero]
    split <;> rfl

/-- The whole course: a piece for each number. -/
theorem Counts.after (h : Counts th us inv) (fifo : ℕ → Chunk) (hk : k ≤ us.length) :
    AtRound us inv k (after (Course.next th fifo) (.init th) k) := by
  induction k with
  | zero => exact h.init
  | succ k ih =>
    obtain ⟨l', hl', hround⟩ := h.next (ih (by omega)) hk
    rwa [after_succ_of_some hl']

/-- The course ends with the last number. -/
theorem Counts.exists_round (h : Counts th us inv) (fifo : ℕ → Chunk) (j : ℕ) :
    ∃ k, AtRound us inv k (Replay.after (Course.next th fifo) (.init th) j) := by
  refine after_invariant (I := fun l => ∃ k, AtRound us inv k l) ?_ ⟨0, h.init⟩ j
  rintro l l' ⟨k, hl⟩ hnext
  rcases hl.le.lt_or_eq with hk | hk
  · obtain ⟨l₁, hl₁, hround⟩ := h.next hl hk
    obtain rfl := Option.some.inj (hl₁.symm.trans hnext)
    exact ⟨k + 1, hround⟩
  · obtain ⟨i, -, hi, -⟩ := Course.next_eq_some.mp hnext
    rw [hl.here, if_pos hk] at hi
    cases hi

/-- The thread `p` of a machine, created as `th`, prints the numbers `us` in order.  It has exited
    when it has printed the last one, and not before. -/
structure Prints (m : Machine) (p : Ptr) (th : Thread) (us : List ℤ) : Prop where
  values : (m.printed th.id).map Int32.toInt <+: us
  exits : m.sched.heap p = none ↔ (m.printed th.id).map Int32.toInt = us

/-- Among others, it has printed as many values. -/
theorem AtRound.prints (hl : AtRound us inv k l) (hm : Follows m p th l) : Prints m p th us where
  values := by
    rw [hm.printed, hl.printed]
    exact List.take_prefix k us
  exits := by
    rw [hm.tcb, Option.map_eq_none_iff, hm.printed, hl.printed, List.take_eq_self_iff, hl.here]
    have hle := hl.le
    split_ifs with hk <;> simp [hk]
    all_goals omega

/-- Among any threads. -/
theorem Counts.prints (h : Counts th us inv) (hth : ts[p]? = some th) (hm : Isolated ts m) :
    Prints m p th us := by
  obtain ⟨l, hl, hreached⟩ := hm.own p th hth
  obtain ⟨j, hj⟩ := hreached _ (Course.feeds_default l.received)
  obtain ⟨k, hround⟩ := h.exists_round _ j
  rw [hj] at hround
  exact hround.prints hl

/-- The counter at the head of the loop. -/
theorem toInt_head {l : Locals} (hi : 0 < k → l.i.toInt = k) (hk : (k : ℤ) + 1 < 2 ^ 31) :
    (l.head (if k = 0 then .setup else .yield)).i.toInt = (k + 1 : ℕ) := by
  have hone : (1 : Int32).toInt = 1 := rfl
  rcases Nat.eq_zero_or_pos k with rfl | hpos
  · rfl
  · have hcounter := hi hpos
    rw [if_neg hpos.ne']
    show (l.i + 1).toInt = _
    rw [toInt_add_of_range] <;> rw [hone, hcounter] <;> push_cast <;> omega

/-- The values of a function, in order. -/
theorem getElem?_map_range {f : ℕ → ℤ} {n : ℕ} {u : ℤ} :
    ((List.range n).map f)[k]? = some u ↔ k < n ∧ f k = u := by
  rw [List.getElem?_map, Option.map_eq_some_iff]
  constructor
  · rintro ⟨j, hj, rfl⟩
    obtain ⟨hk, rfl⟩ := List.getElem?_eq_some_iff.mp hj
    rw [List.length_range] at hk
    exact ⟨hk, by rw [List.getElem_range]⟩
  · rintro ⟨hk, rfl⟩
    exact ⟨k, List.getElem?_range hk, rfl⟩

/-- A thread whose function goes from the head of its loop to `body`. -/
theorem piece_head {f : Func} {body : Locals → Int32 → Piece} {arg : Int32} {bytes : Chunk}
    (hf : f = .fibonacci ∧ body = Locals.fibonacci ∨ f = .collatz ∧ body = Locals.collatz)
    (k : ℕ) (l : Locals) :
    f.piece (if k = 0 then .setup else .yield) bytes arg l =
      some (body (l.head (if k = 0 then .setup else .yield)) arg) := by
  split <;> rcases hf with ⟨rfl, rfl⟩ | ⟨rfl, rfl⟩ <;> rfl

/-! ### `fibonacci` -/

/-- The first `n` Fibonacci numbers. -/
def fibs (n : ℕ) : List ℤ := (List.range n).map fun k => (Nat.fib (k + 1) : ℤ)

/-- What `fibonacci` keeps after `k` rounds. -/
structure FibLocals (k : ℕ) (l : Locals) : Prop where
  counter : 0 < k → l.i.toInt = k
  values : 2 ≤ k → l.x.toInt = Nat.fib (k - 1) ∧ l.y.toInt = Nat.fib k

/-- **One round of `fibonacci`** prints the next Fibonacci number: the first two are special. -/
theorem fibonacci_round {l : Locals} (arg : Int32) (hl : 2 ≤ k → l.x.toInt = Nat.fib (k - 1) ∧
    l.y.toInt = Nat.fib k) (hi : l.i.toInt = (k + 1 : ℕ)) (hfib : Nat.fib (k + 1) < 2 ^ 31) :
    ∃ l' v, l.fibonacci arg =
        ⟨l', some v, if l'.i = arg then .threadExit else .threadYield⟩ ∧
      v.toInt = Nat.fib (k + 1) ∧ FibLocals (k + 1) l' := by
  have htwo : (2 : Int32).toInt = 2 := rfl
  have hle : l.i ≤ 2 ↔ k ≤ 1 := by
    rw [Int32.le_iff_toInt_le, hi, htwo]
    omega
  unfold Locals.fibonacci
  -- the first two numbers are one, the later ones are the sum of the last two
  by_cases hk : k ≤ 1
  · rw [if_pos (hle.mpr hk)]
    obtain rfl | rfl : k = 0 ∨ k = 1 := by omega
    · exact ⟨_, _, rfl, rfl, fun _ => hi, fun h2 => by omega⟩
    · exact ⟨_, _, rfl, rfl, fun _ => hi, fun _ => ⟨rfl, rfl⟩⟩
  · rw [if_neg (hle.not.mpr hk)]
    obtain ⟨hx, hy⟩ := hl (by omega)
    have hsum : Nat.fib (k + 1) = Nat.fib (k - 1) + Nat.fib k := by
      obtain ⟨j, rfl⟩ : ∃ j, k = j + 1 := ⟨k - 1, by omega⟩
      exact Nat.fib_add_two
    have hadd : (l.x + l.y).toInt = Nat.fib (k + 1) := by
      rw [toInt_add_of_range] <;> rw [hx, hy] <;> omega
    exact ⟨_, _, rfl, hadd, fun _ => hi, fun _ => ⟨hy, hadd⟩⟩

/-- `fibonacci` prints the Fibonacci numbers up to its argument. -/
theorem fibonacci_counts {n : ℕ} (hfunc : th.func = .fibonacci) (harg : th.arg.toInt = n)
    (hn : 1 ≤ n) (hfib : Nat.fib n < 2 ^ 31) : Counts th (fibs n) FibLocals where
  pos := by rwa [fibs, List.length_map, List.length_range]
  start := ⟨fun h => absurd h (lt_irrefl 0), fun h => absurd h (by omega)⟩
  round k u l bytes hu hl := by
    obtain ⟨hk, rfl⟩ := getElem?_map_range.mp hu
    have hrange : (n : ℤ) < 2 ^ 31 := harg ▸ th.arg.toInt_lt
    have hle : Nat.fib (k + 1) ≤ Nat.fib n := Nat.fib_mono hk
    obtain ⟨l', v, hpiece, hv, hinv⟩ := fibonacci_round (l := l.head _) th.arg hl.values
      (toInt_head hl.counter (by omega)) (by omega)
    refine ⟨l', v, ?_, hv, hinv⟩
    -- the counter has come to the argument exactly in the last round
    have hexit : l'.i = th.arg ↔ k + 1 = (fibs n).length := by
      rw [← Int32.toInt_inj, hinv.counter k.succ_pos, harg, fibs, List.length_map,
        List.length_range]
      omega
    rw [piece_head (.inl ⟨hfunc, rfl⟩), hpiece]
    simp only [hexit]

/-! ### `collatz` -/

/-- One step of the Collatz sequence. -/
def collatzStep (c : ℕ) : ℕ := if c % 2 = 0 then c / 2 else c * 3 + 1

/-- The first `n` numbers after `c` in its Collatz sequence. -/
def orbit (c n : ℕ) : List ℤ := (List.range n).map fun k => (collatzStep^[k + 1] c : ℤ)

/-- The Collatz sequence of `c` first gets to one with its `n`-th step; no number in between, and
    no count of them, overflows. -/
structure Descends (c n : ℕ) : Prop where
  pos : 1 ≤ n
  one : collatzStep^[n] c = 1
  first : ∀ k, 1 ≤ k → k < n → collatzStep^[k] c ≠ 1
  values : ∀ k ≤ n, collatzStep^[k] c < 2 ^ 31
  rounds : n < 2 ^ 31

/-- What `collatz` keeps after `k` rounds. -/
structure CollatzLocals (c : ℕ) (k : ℕ) (l : Locals) : Prop where
  counter : 0 < k → l.i.toInt = k
  value : 0 < k → l.x.toInt = collatzStep^[k] c

/-- A step of Collatz, without overflow. -/
theorem toInt_collatz {x : Int32} {c : ℕ} (hx : x.toInt = c) (hc : collatzStep c < 2 ^ 31) :
    (if x % 2 = 0 then x / 2 else x * 3 + 1).toInt = collatzStep c := by
  have hlt : (c : ℤ) < 2 ^ 31 := hx ▸ x.toInt_lt
  have heven : x % 2 = 0 ↔ c % 2 = 0 := by
    rw [← Int32.toInt_inj, Int32.toInt_mod, hx]
    show (c : ℤ).tmod 2 = 0 ↔ _
    rw [Int.tmod_eq_emod_of_nonneg (Int.natCast_nonneg c)]
    omega
  unfold collatzStep at hc ⊢
  simp only [heven]
  -- the C quotient truncates, which for these numbers is the floor
  split
  · rw [Int32.toInt_div_of_ne_right _ _ (by decide), hx]
    show (c : ℤ).tdiv 2 = _
    rw [Int.tdiv_eq_ediv_of_nonneg (Int.natCast_nonneg c), Int.natCast_ediv]
    rfl
  · rename_i hodd
    rw [if_neg hodd] at hc
    have hone : (1 : Int32).toInt = 1 := rfl
    have hthree : (3 : Int32).toInt = 3 := rfl
    -- the next number fits, so the product does as well
    have hmul : (x * 3).toInt = c * 3 := by
      rw [Int32.toInt_mul, hx, hthree, Int.bmod_eq_of_le] <;> omega
    rw [toInt_add_of_range] <;> rw [hmul, hone] <;> push_cast <;> omega

/-- **One round of `collatz`** prints the next value of the orbit. -/
theorem collatz_round {c : ℕ} {l : Locals} {arg : Int32} (harg : arg.toInt = c)
    (hl : 0 < k → l.x.toInt = collatzStep^[k] c) (hi : l.i.toInt = (k + 1 : ℕ))
    (hc : collatzStep^[k + 1] c < 2 ^ 31) :
    ∃ l' v, l.collatz arg =
        ⟨l', some v, if l'.x = 1 then .threadExit else .threadYield⟩ ∧
      v.toInt = collatzStep^[k + 1] c ∧ CollatzLocals c (k + 1) l' := by
  have hone : (1 : Int32).toInt = 1 := rfl
  have hfirst : l.i = 1 ↔ k = 0 := by
    rw [← Int32.toInt_inj, hi, hone]
    omega
  -- in the first round the argument is copied, as the counter is one
  set l₁ : Locals := if l.i = 1 then { l with x := arg } else l with hl₁
  have hi₁ : l₁.i = l.i := by
    rw [hl₁]
    split <;> rfl
  have hx : l₁.x.toInt = collatzStep^[k] c := by
    rw [hl₁]
    split
    · rename_i h
      obtain rfl := hfirst.mp h
      exact harg
    · rename_i h
      exact hl (Nat.pos_of_ne_zero (hfirst.not.mp h))
  rw [Function.iterate_succ_apply'] at hc ⊢
  have hnext := toInt_collatz hx hc
  set l' : Locals := if l₁.x % 2 = 0 then { l₁ with x := l₁.x / 2 }
    else { l₁ with x := l₁.x * 3 + 1 } with hl'
  have hx' : l'.x.toInt = collatzStep (collatzStep^[k] c) := by
    rw [← hnext, hl']
    split <;> rfl
  have hi' : l'.i.toInt = (k + 1 : ℕ) := by
    rw [← hi, ← hi₁, hl']
    split <;> rfl
  refine ⟨l', l'.x, rfl, hx', fun _ => hi', fun _ => ?_⟩
  rw [Function.iterate_succ_apply', hx']

/-- `collatz` prints the orbit of its argument. -/
theorem collatz_counts {c n : ℕ} (hfunc : th.func = .collatz) (harg : th.arg.toInt = c)
    (h : Descends c n) : Counts th (orbit c n) (CollatzLocals c) where
  pos := by
    rw [orbit, List.length_map, List.length_range]
    exact h.pos
  start := ⟨fun h => absurd h (lt_irrefl 0), fun h => absurd h (lt_irrefl 0)⟩
  round k u l bytes hu hl := by
    obtain ⟨hk, rfl⟩ := getElem?_map_range.mp hu
    have hrounds := h.rounds
    obtain ⟨l', v, hpiece, hv, hinv⟩ := collatz_round (l := l.head _) harg hl.value
      (toInt_head hl.counter (by omega)) (h.values (k + 1) hk)
    refine ⟨l', v, ?_, hv, hinv⟩
    have hone : (1 : Int32).toInt = 1 := rfl
    have hexit : l'.x = 1 ↔ k + 1 = (orbit c n).length := by
      rw [← Int32.toInt_inj, hinv.value k.succ_pos, hone, orbit, List.length_map,
        List.length_range]
      -- the orbit comes to one at its end and not before
      constructor
      · intro hx
        by_contra hne
        exact h.first (k + 1) k.succ_pos (by omega) (by exact_mod_cast hx)
      · rintro rfl
        exact_mod_cast h.one
    rw [piece_head (.inr ⟨hfunc, rfl⟩), hpiece]
    simp only [hexit]

end SystemProgramming.Threads
