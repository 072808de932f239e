import SystemProgramming.Booking.IdLine
import SystemProgramming.Lib.Segments
import SystemProgramming.Threads.Isolation

namespace SystemProgramming.Threads

open Segments Replay Transition
open Booking (atoi strtol isSpace isDigit digitsValue digitsValue_append decimalValue strtol_digits
  dropWhile_blanks bmod_int)

/-!
# Thread library — what `max_subarray` computes

* `atoi_record` — `atoi` finds the number of a complete record, whatever the buffer held before;
* `round_best` — one round of the loop keeps the best sum that ends here in `y` and the best one in
  `sum`, and no sum overflows;
* `atHead_next` / `atRead_next` — the two pieces of a round;
* `max_subarray_maxima` — **`max_subarray` prints the running maximum**, by itself and among other
  threads, and exits after the last number.
-/

/-! ### Records -/

/-- A number as it may be written: digits, perhaps behind a sign. -/
inductive Signed : List UInt8 → List UInt8 → ℤ → Prop
  | unsigned (digits) : Signed [] digits (decimalValue digits)
  | plus (digits) : Signed [43] digits (decimalValue digits)
  | minus (digits) : Signed [45] digits (-decimalValue digits)

/-- A complete record that `async_read(5)` reads: five bytes, the last of them a newline, that begin
    with the number `x`, perhaps behind blanks. -/
def Record (bytes : Chunk) (x : ℤ) : Prop :=
  bytes.val.length = 5 ∧ ∃ pad sign digits tail,
    bytes.val = pad ++ (sign ++ (digits ++ (tail ++ [10]))) ∧
    (∀ c ∈ pad, isSpace c = true) ∧ digits ≠ [] ∧ (∀ c ∈ digits, isDigit c = true) ∧
    (∀ c ∈ tail.head?, isDigit c = false) ∧ Signed sign digits x

/-- `strtol` on a number with or without a sign: its value, up to the bounds of a `long`. -/
theorem strtol_signed {pad sign digits t : List UInt8} {x : ℤ} (hpad : ∀ c ∈ pad, isSpace c = true)
    (hdigits : ∀ c ∈ digits, isDigit c = true) (hne : digits ≠ [])
    (ht : ∀ c ∈ t.head?, isDigit c = false) (hx : Signed sign digits x)
    (hlo : -2 ^ 63 ≤ x) (hhi : x < 2 ^ 63) :
    strtol (pad ++ (sign ++ (digits ++ t))) = x := by
  have hvalue : digitsValue (digits ++ t) 0 = decimalValue digits := digitsValue_append hdigits ht 0
  -- the sign is taken off first, and what is left is read as digits
  cases hx with
  | unsigned =>
    rw [List.nil_append, strtol_digits hpad hdigits hne ht]
    omega
  | plus =>
    have hdrop : (pad ++ 43 :: (digits ++ t)).dropWhile isSpace = 43 :: (digits ++ t) := by
      apply dropWhile_blanks hpad
      rintro c ⟨⟩
      decide
    show strtol (pad ++ 43 :: (digits ++ t)) = _
    unfold strtol
    rw [hdrop]
    show min (2 ^ 63 - 1) (digitsValue (digits ++ t) 0 : ℤ) = _
    rw [hvalue]
    omega
  | minus =>
    have hdrop : (pad ++ 45 :: (digits ++ t)).dropWhile isSpace = 45 :: (digits ++ t) := by
      apply dropWhile_blanks hpad
      rintro c ⟨⟩
      decide
    show strtol (pad ++ 45 :: (digits ++ t)) = _
    unfold strtol
    rw [hdrop]
    show max (-2 ^ 63) (-(digitsValue (digits ++ t) 0 : ℤ)) = _
    rw [hvalue]
    omega

/-- A read of five bytes replaces the beginning of the buffer. -/
theorem ofFn_read {bytes : Chunk} (h : bytes.val.length = 5) (l : Locals) :
    List.ofFn (l.read bytes).buf = bytes.val ++ (List.ofFn l.buf).drop 5 := by
  apply List.ext_getElem
  · simp only [List.length_ofFn, List.length_append, h, List.length_drop]
    decide
  · intro k h₁ h₂
    rw [List.getElem_ofFn]
    show bytes.val.getD k (l.buf _) = _
    -- the five bytes of the record, and behind them what was in the buffer before
    rw [List.getD_eq_getElem?_getD]
    by_cases hk : k < bytes.val.length
    · rw [List.getElem?_eq_getElem hk, List.getElem_append_left hk]
      rfl
    · rw [List.getElem?_eq_none (not_lt.mp hk), List.getElem_append_right (not_lt.mp hk),
        List.getElem_drop, List.getElem_ofFn]
      show l.buf _ = l.buf _
      congr 2
      omega

/-- **`atoi` finds the number of a complete record**, whatever the buffer held before. -/
theorem atoi_record {bytes : Chunk} {x : ℤ} (h : Record bytes x) (hlo : -2 ^ 31 ≤ x)
    (hhi : x < 2 ^ 31) (l : Locals) : atoi (List.ofFn (l.read bytes).buf) = x := by
  obtain ⟨hlen, pad, sign, digits, tail, hbytes, hpad, hne, hdigits, htail, hx⟩ := h
  rw [ofFn_read hlen, hbytes]
  simp only [List.append_assoc]
  rw [atoi, strtol_signed hpad hdigits hne ?_ hx (by omega) (by omega)]
  · exact bmod_int hlo hhi
  · -- the newline is no digit
    cases tail with
    | nil =>
      rintro c ⟨⟩
      decide
    | cons d tail => exact htail

/-! ### One round of the loop -/

/-- No sum of a subarray overflows an `int`. -/
def InRange (xs : List ℤ) : Prop := ∀ v ∈ subarraySums xs, -2 ^ 31 ≤ v ∧ v < 2 ^ 31

/-- The sums of a part are in range. -/
theorem InRange.of_infix {xs ys : List ℤ} (h : InRange ys) (hsub : xs <:+: ys) : InRange xs :=
  fun v hv => h v (subarraySums_mono hsub hv)

/-- A sum in range does not overflow. -/
theorem toInt_add_of_range {a b : Int32} (hlo : -2 ^ 31 ≤ a.toInt + b.toInt)
    (hhi : a.toInt + b.toInt < 2 ^ 31) : (a + b).toInt = a.toInt + b.toInt := by
  rw [Int32.toInt_add]
  exact bmod_int hlo hhi

/-- `y` after a round with the number `t`. -/
def roundY (l : Locals) (t : Int32) : Int32 := if t < t + l.y then l.y + t else t

/-- `sum` after that round. -/
def roundSum (l : Locals) (t : Int32) : Int32 :=
  if roundY l t > l.sum then roundY l t else l.sum

/-- One round of `max_subarray`, on the number that was read. -/
theorem maxSubarray_eq (l : Locals) (arg : Int32) {t : Int32}
    (ht : Int32.ofInt (atoi (List.ofFn l.buf)) = t) :
    l.maxSubarray arg = ⟨{ l with x := t, y := roundY l t, sum := roundSum l t },
      some (roundSum l t), if l.i = arg then .threadExit else .threadYield⟩ := by
  unfold Locals.maxSubarray roundSum roundY
  rw [ht]
  by_cases hy : t < t + l.y
  · simp only [if_pos hy]
    split <;> rfl
  · simp only [if_neg hy]
    split <;> rfl

/-- **One round** with the number `x`: `y` is the best sum that ends there, `sum` the best one so
    far. -/
theorem round_best {l : Locals} {xs : List ℤ} {x : ℤ} (h : Best xs l.y.toInt l.sum.toInt)
    (hrange : InRange (xs ++ [x])) :
    Best (xs ++ [x]) (roundY l (Int32.ofInt x)).toInt (roundSum l (Int32.ofInt x)).toInt := by
  -- neither the number nor what it is added to overflows
  have hends {v : ℤ} (hv : v ∈ insert 0 (endingSums xs)) : -2 ^ 31 ≤ v + x ∧ v + x < 2 ^ 31 := by
    apply hrange
    apply endingSums_subset
    rw [endingSums_concat]
    exact ⟨v, hv, rfl⟩
  have hx := hends (.inl rfl)
  rw [Int.zero_add] at hx
  have hsum := hends h.ends
  have ht : (Int32.ofInt x).toInt = x := Int32.toInt_ofInt_of_le hx.1 hx.2
  generalize Int32.ofInt x = t at ht
  subst ht
  have hadd : (l.y + t).toInt = l.y.toInt + t.toInt := toInt_add_of_range hsum.1 hsum.2
  -- the two tests of the round take the two maxima
  have hy : (roundY l t).toInt = max 0 l.y.toInt + t.toInt := by
    have hlt : t < t + l.y ↔ 0 < l.y.toInt := by
      rw [Int32.lt_iff_toInt_lt, Int32.add_comm, hadd]
      omega
    unfold roundY
    split
    · rename_i hpos
      rw [hadd, max_eq_right (hlt.mp hpos).le]
    · rename_i hneg
      rw [max_eq_left (not_lt.mp fun hpos => hneg (hlt.mpr hpos)), Int.zero_add]
  have hbest : (roundSum l t).toInt = max l.sum.toInt (roundY l t).toInt := by
    unfold roundSum
    split
    · rename_i hgt
      exact (max_eq_right (Int32.lt_iff_toInt_lt.mp hgt).le).symm
    · rename_i hle
      exact (max_eq_left (not_lt.mp fun hgt => hle (Int32.lt_iff_toInt_lt.mpr hgt))).symm
  rw [hbest, hy]
  exact h.concat t.toInt

/-- The same for the piece from the `read` of a record on. -/
theorem maxSubarray_round {l : Locals} {bytes : Chunk} {xs : List ℤ} {x : ℤ} (hx : Record bytes x)
    (h : Best xs l.y.toInt l.sum.toInt) (hrange : InRange (xs ++ [x])) (arg : Int32) :
    ∃ y sum, Best (xs ++ [x]) y.toInt sum.toInt ∧
      (l.read bytes).maxSubarray arg =
        ⟨{ l.read bytes with x := Int32.ofInt x, y := y, sum := sum }, some sum,
          if l.i = arg then .threadExit else .threadYield⟩ := by
  have hmem : x ∈ subarraySums (xs ++ [x]) := by
    apply endingSums_subset
    rw [endingSums_concat]
    exact ⟨0, .inl rfl, Int.zero_add x⟩
  have hbuf : atoi (List.ofFn (l.read bytes).buf) = x :=
    atoi_record hx (hrange x hmem).1 (hrange x hmem).2 l
  exact ⟨_, _, round_best (l := l.read bytes) h hrange,
    maxSubarray_eq (l.read bytes) arg (congrArg Int32.ofInt hbuf)⟩

/-! ### The rounds -/

/-- The thread `th` runs `max_subarray` for as many rounds as there are numbers in `xs`, and its FIFO
    holds a complete record for each of them. -/
structure Delivers (th : Thread) (fifo : ℕ → Chunk) (xs : List ℤ) : Prop where
  func : th.func = .maxSubarray
  arg : th.arg.toInt = xs.length
  pos : 1 ≤ xs.length
  records : ∀ k x, xs[k]? = some x → Record (fifo k) x
  range : InRange xs

/-- Each value is the maximum of zero and the sums of the subarrays of the numbers up to it. -/
def Maxima (xs : List ℤ) (printed : List Int32) : Prop :=
  ∀ k v, printed[k]? = some v → IsGreatest (insert 0 (subarraySums (xs.take (k + 1)))) v.toInt

/-- One number more, and the maximum over all numbers so far. -/
theorem Maxima.concat {xs : List ℤ} {printed : List Int32} {v : Int32} (h : Maxima xs printed)
    (hv : IsGreatest (insert 0 (subarraySums (xs.take (printed.length + 1)))) v.toInt) :
    Maxima xs (printed ++ [v]) := by
  intro k u hu
  rcases Nat.lt_or_ge k printed.length with hk | hk
  · rw [List.getElem?_append_left hk] at hu
    exact h k u hu
  · obtain ⟨hk', hu'⟩ := List.getElem?_eq_some_iff.mp hu
    rw [List.length_append, List.length_singleton] at hk'
    obtain rfl : k = printed.length := by omega
    rw [List.getElem_concat_length rfl] at hu'
    rwa [← hu']

/-- The thread has added up the first `k` numbers. -/
structure Summing (xs : List ℤ) (k : ℕ) (l : Course) : Prop where
  received : l.received.length = k
  printed : l.printed.length = k
  maxima : Maxima xs l.printed
  best : Best (xs.take k) l.locals.y.toInt l.locals.sum.toInt

/-- The thread stands at the head of its loop after `k` rounds, or has exited. -/
structure AtHead (xs : List ℤ) (k : ℕ) (l : Course) : Prop extends Summing xs k l where
  le : k ≤ xs.length
  here : l.here = if k = xs.length then none else if k = 0 then some .setup else some .yield
  counter : 0 < k → l.locals.i.toInt = k

/-- The thread stands behind the `setjmp` of `async_read`, in its round `k + 1`. -/
structure AtRead (xs : List ℤ) (k : ℕ) (l : Course) : Prop extends Summing xs k l where
  lt : k < xs.length
  here : l.here = some .read
  counter : l.locals.i.toInt = k + 1

variable {ts : List Thread} {th : Thread} {fifo : ℕ → Chunk} {xs : List ℤ} {l : Course} {k : ℕ}
  {m : Machine} {p : Ptr}

/-- At the start no number has been read. -/
theorem atHead_init (h : Delivers th fifo xs) : AtHead xs 0 (.init th) where
  received := rfl
  printed := rfl
  maxima := fun _ _ hv => by cases hv
  best := Best.nil
  le := Nat.zero_le _
  here := by
    have hpos := h.pos
    rw [if_neg (by omega)]
    rfl
  counter hk := absurd hk (lt_irrefl 0)

/-- The counter of the loop does not overflow. -/
theorem Delivers.length_lt (h : Delivers th fifo xs) : (xs.length : ℤ) < 2 ^ 31 := by
  rw [← h.arg]
  exact th.arg.toInt_lt

/-- From the head of the loop to the `read`. -/
theorem atHead_next (h : Delivers th fifo xs) (hl : AtHead xs k l) (hk : k < xs.length) :
    ∃ l', Course.next th fifo l = some l' ∧ AtRead xs k l' := by
  have hlen := h.length_lt
  -- the first round comes from `setup`, the later ones from `yield`, and both go to the read
  obtain ⟨j, hj, hread, hcode, hi⟩ : ∃ j, l.here = some j ∧ j ≠ .read ∧
      th.func.piece j (fifo l.received.length) th.arg l.locals =
        some ⟨l.locals.head j, none, .asyncRead⟩ ∧ (l.locals.head j).i.toInt = k + 1 := by
    rw [h.func, hl.here, if_neg hk.ne]
    rcases Nat.eq_zero_or_pos k with rfl | hpos
    · exact ⟨.setup, rfl, nofun, rfl, rfl⟩
    · refine ⟨.yield, if_neg hpos.ne', nofun, rfl, ?_⟩
      have hone : (1 : Int32).toInt = 1 := rfl
      show (l.locals.i + 1).toInt = _
      rw [toInt_add_of_range] <;> rw [hone, hl.counter hpos] <;> omega
  refine ⟨_, Course.next_eq_some.mpr ⟨j, _, hj, hcode, rfl⟩, ?_⟩
  refine ⟨⟨?_, ?_, ?_, hl.best⟩, hk, rfl, hi⟩
  · show (if j = .read then _ else l.received).length = k
    rw [if_neg hread, hl.received]
  · show (l.printed ++ []).length = k
    rw [List.append_nil, hl.printed]
  · show Maxima xs (l.printed ++ [])
    rw [List.append_nil]
    exact hl.maxima

/-- From the `read` to the end of the round. -/
theorem atRead_next (h : Delivers th fifo xs) (hl : AtRead xs k l) :
    ∃ l', Course.next th fifo l = some l' ∧ AtHead xs (k + 1) l' := by
  have hlt := hl.lt
  obtain ⟨x, hx⟩ : ∃ x, xs[k]? = some x := ⟨_, List.getElem?_eq_getElem hlt⟩
  have htake : xs.take (k + 1) = xs.take k ++ [x] := by
    rw [List.take_add_one, hx]
    rfl
  have hrange : InRange (xs.take k ++ [x]) := by
    rw [← htake]
    exact h.range.of_infix (List.take_prefix _ _).isInfix
  -- the record that is read holds the next number
  have hrecord : Record (fifo l.received.length) x := by
    rw [hl.received]
    exact h.records k x hx
  obtain ⟨y, sum, hbest, hpiece⟩ := maxSubarray_round hrecord hl.best hrange th.arg
  have hexit : l.locals.i = th.arg ↔ k + 1 = xs.length := by
    rw [← Int32.toInt_inj, hl.counter, h.arg]
    omega
  have hcode : th.func.piece .read (fifo l.received.length) th.arg l.locals = some
      ⟨{ l.locals.read (fifo l.received.length) with x := Int32.ofInt x, y := y, sum := sum },
        some sum, if l.locals.i = th.arg then .threadExit else .threadYield⟩ := by
    rw [h.func]
    exact congrArg some hpiece
  refine ⟨_, Course.next_eq_some.mpr ⟨.read, _, hl.here, hcode, rfl⟩, ?_⟩
  refine ⟨⟨?_, ?_, ?_, ?_⟩, hlt, ?_, fun _ => hl.counter⟩
  · show (l.received ++ [_]).length = _
    rw [List.length_append, hl.received, List.length_singleton]
  · show (l.printed ++ [sum]).length = _
    rw [List.length_append, hl.printed, List.length_singleton]
  · refine hl.maxima.concat ?_
    rw [hl.printed, htake]
    exact hbest.whole
  · rw [htake]
    exact hbest
  · show (if l.locals.i = th.arg then Call.threadExit else .threadYield).place = _
    simp only [hexit, if_neg k.succ_ne_zero]
    split <;> rfl

/-- The whole course: two pieces a round. -/
theorem after_rounds (h : Delivers th fifo xs) (hk : k ≤ xs.length) :
    AtHead xs k (after (Course.next th fifo) (.init th) (2 * k)) := by
  induction k with
  | zero => exact atHead_init h
  | succ k ih =>
    obtain ⟨l₁, hl₁, hread⟩ := atHead_next h (ih (by omega)) hk
    obtain ⟨l₂, hl₂, hhead⟩ := atRead_next h hread
    have hnext : after (Course.next th fifo) (.init th) (2 * k + 1) = l₁ := after_succ_of_some hl₁
    rw [← hnext] at hl₂
    have hnext₂ : after (Course.next th fifo) (.init th) (2 * (k + 1)) = l₂ :=
      after_succ_of_some hl₂
    rwa [hnext₂]

/-- Every place of the course is one of these two. -/
theorem atHead_or_atRead (h : Delivers th fifo xs) (j : ℕ) :
    ∃ k, AtHead xs k (after (Course.next th fifo) (.init th) j) ∨
      AtRead xs k (after (Course.next th fifo) (.init th) j) := by
  refine after_invariant (I := fun l => ∃ k, AtHead xs k l ∨ AtRead xs k l) ?_
    ⟨0, .inl (atHead_init h)⟩ j
  rintro l l' ⟨k, hl | hl⟩ hnext
  · rcases hl.le.lt_or_eq with hk | hk
    · obtain ⟨l₁, hl₁, hread⟩ := atHead_next h hl hk
      obtain rfl := Option.some.inj (hl₁.symm.trans hnext)
      exact ⟨k, .inr hread⟩
    · -- it has exited
      obtain ⟨i, -, hi, -⟩ := Course.next_eq_some.mp hnext
      rw [hl.here, if_pos hk] at hi
      cases hi
  · obtain ⟨l₁, hl₁, hhead⟩ := atRead_next h hl
    obtain rfl := Option.some.inj (hl₁.symm.trans hnext)
    exact ⟨k + 1, .inl hhead⟩

/-! ### The machine -/

/-- What the thread `p` of a machine, created as `th`, has printed of `xs`: a value after each read,
    the running maximum.  It has exited when it has printed the last one, and not before. -/
structure SumsUp (m : Machine) (p : Ptr) (th : Thread) (xs : List ℤ) : Prop where
  maxima : Maxima xs (m.printed th.id)
  reads : (m.printed th.id).length = (m.received p).length
  le : (m.printed th.id).length ≤ xs.length
  exits : m.sched.heap p = none ↔ (m.printed th.id).length = xs.length

/-- At the head of the loop, one maximum has been printed for each number. -/
theorem AtHead.sumsUp (hl : AtHead xs k l) (hm : Follows m p th l) : SumsUp m p th xs where
  maxima := hm.printed ▸ hl.maxima
  reads := by rw [hm.printed, hm.received, hl.printed, hl.received]
  le := by
    rw [hm.printed, hl.printed]
    exact hl.le
  exits := by
    rw [hm.tcb, Option.map_eq_none_iff, hm.printed, hl.printed, hl.here]
    split_ifs with hk <;> simp [hk]

/-- At the read, too. -/
theorem AtRead.sumsUp (hl : AtRead xs k l) (hm : Follows m p th l) : SumsUp m p th xs where
  maxima := hm.printed ▸ hl.maxima
  reads := by rw [hm.printed, hm.received, hl.printed, hl.received]
  le := by
    rw [hm.printed, hl.printed]
    exact hl.lt.le
  exits := by
    rw [hm.tcb, Option.map_eq_none_iff, hm.printed, hl.printed, hl.here]
    exact iff_of_false nofun hl.lt.ne

/-- **`max_subarray` prints the running maximum.**  After each of its reads the thread prints the
    maximum of zero and the sums of the subarrays of the numbers so far, and it exits with the last
    value.  By itself it gets to all of them; and whatever other threads there are, and however they
    are switched, it prints these values only. -/
theorem max_subarray_maxima (th : Thread) (fifo : ℕ → Chunk) (xs : List ℤ)
    (h : Delivers th fifo xs) :
    (∀ k ≤ xs.length, ∃ m, Alone th fifo m ∧ SumsUp m 0 th xs ∧ (m.printed th.id).length = k) ∧
    ∀ (ts : List Thread) (p : Ptr), ts[p]? = some th → ts.length ≤ threadMax →
      (ts.map fun th => th.id).Nodup →
      ∃ m₀, begin ts = .ok m₀ ∧ ∀ es m, runFrom (Machine.stepOk ts) m₀ es = some m →
        Course.Feeds fifo (m.received p) → SumsUp m p th xs := by
  constructor
  · intro k hk
    obtain ⟨m, halone, hm⟩ := alone_course th fifo (2 * k)
    have hl := after_rounds h hk
    exact ⟨m, halone, hl.sumsUp hm, by rw [hm.printed, hl.printed]⟩
  · intro ts p hth hmax hids
    obtain ⟨hp, -⟩ := List.getElem?_eq_some_iff.mp hth
    obtain ⟨m₀, hm₀, hisolated₀, -⟩ := begin_isolated (by omega) hmax
    refine ⟨m₀, hm₀, fun es m hrun hfeeds => ?_⟩
    have hisolated : Isolated ts m := hisolated₀.reachable hids ⟨es, hrun⟩
    -- the thread stands somewhere on its own course
    obtain ⟨l, hm, hreached⟩ := hisolated.own p th hth
    rw [hm.received] at hfeeds
    obtain ⟨j, rfl⟩ := hreached fifo hfeeds
    obtain ⟨k, hl | hl⟩ := atHead_or_atRead h j
    · exact hl.sumsUp hm
    · exact hl.sumsUp hm

/-- The third thread, for two numbers. -/
def adder : Thread := ⟨⟨2, 2, 5, fun _ => 0⟩, .maxSubarray⟩

/-- The records of `-3` and `5`. -/
def twoRecords (k : ℕ) : Chunk :=
  if k = 0 then ⟨[32, 45, 51, 32, 10], by decide⟩ else ⟨[53, 10, 32, 32, 10], by decide⟩

/-- The two records are the numbers `-3` and `5`. -/
theorem delivers_twoRecords : Delivers adder twoRecords [-3, 5] where
  func := rfl
  arg := by decide
  pos := by decide
  records k x hx := by
    match k, hx with
    | 0, hx =>
      cases hx
      refine ⟨rfl, [32], [45], [51], [32], rfl, ?_, List.cons_ne_nil _ _, ?_, ?_, .minus [51]⟩
      · exact List.forall_mem_singleton.mpr rfl
      · exact List.forall_mem_singleton.mpr rfl
      · rintro c ⟨⟩
        rfl
    | 1, hx =>
      cases hx
      refine ⟨rfl, [], [], [53], [10, 32, 32], rfl, ?_, List.cons_ne_nil _ _, ?_, ?_,
        .unsigned [53]⟩
      · exact List.forall_mem_nil _
      · exact List.forall_mem_singleton.mpr rfl
      · rintro c ⟨⟩
        rfl
  range := by
    have hsums : subarraySums ([-3, 5] : List ℤ) = {5, 2, -3} := by
      have happend : ([-3, 5] : List ℤ) = ([] ++ [-3]) ++ [5] := rfl
      rw [happend, subarraySums_concat, endingSums_concat, subarraySums_concat, endingSums_concat]
      simp [Set.image_pair]
    rw [InRange, hsums]
    rintro v (rfl | rfl | rfl) <;> decide

/-- The running maxima of two numbers. -/
theorem max_subarray_maxima_twoRecords :
    ∃ m, Alone adder twoRecords m ∧ SumsUp m 0 adder [-3, 5] ∧ (m.printed 2).length = 2 :=
  (max_subarray_maxima adder twoRecords [-3, 5] delivers_twoRecords).1 2 le_rfl

end SystemProgramming.Threads
