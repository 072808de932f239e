import SystemProgramming.Lib.ByteFile

namespace SystemProgramming.Booking

open ByteFile

/-!
# Booking servers — records, ids and booking commands

The pure part of the booking server: the record stored for one user, the test of the id line
(`checkid`) and the decoding and application of a booking command (`checkcommand`).

* `Record.decode_encode` — a record is recovered from its 16 bytes;
* `checkid_atoi` — an accepted id line is one of `902001 … 902020`;
* `scanCommand` — the right-to-left scan of the command line, as the loop of `checkcommand`
  performs it: it yields the three deltas, or fails on a character the loop rejects;
* `judge` — the bound checks of `checkcommand`, in `int` arithmetic;
* `WellFormed` — the lines of three numbers, as a client should write them.
-/

/-! ### Records -/

/-- `int bookingState[OBJ_NUM]`: the booking numbers of food, concerts and electronics. -/
structure BookingState where
  food : Int32
  concert : Int32
  elecs : Int32
  deriving DecidableEq, Repr

namespace BookingState

/-- Componentwise `int` addition (`bookingState[i] += ch`). -/
def add (x y : BookingState) : BookingState :=
  ⟨x.food + y.food, x.concert + y.concert, x.elecs + y.elecs⟩

def zero : BookingState := ⟨0, 0, 0⟩

theorem add_zero (x : BookingState) : x.add zero = x := by
  simp [add, zero]

theorem add_assoc (x y z : BookingState) : (x.add y).add z = x.add (y.add z) := by
  simp [add, Int32.add_assoc]

end BookingState

/-- `record`: the user's id and booking numbers. -/
structure Record where
  id : Int32
  bookingState : BookingState
  deriving DecidableEq, Repr

/-- `sizeof(record)`. -/
def recordSize : ℕ := 16

/-- The memory image of a `record`. -/
def Record.encode (r : Record) : List UInt8 :=
  encode32 r.id ++ (encode32 r.bookingState.food ++ (encode32 r.bookingState.concert ++
    encode32 r.bookingState.elecs))

/-- The `record` at the start of a byte string. -/
def Record.decode (b : List UInt8) : Record :=
  ⟨decode32 b, decode32 (b.drop 4), decode32 (b.drop 8), decode32 (b.drop 12)⟩

@[simp] theorem Record.length_encode (r : Record) : r.encode.length = recordSize := rfl

theorem Record.decode_encode (r : Record) : Record.decode r.encode = r := by
  have h (x : Int32) (l : List UInt8) (n : ℕ) :
      (encode32 x ++ l).drop (n + 4) = l.drop n := by
    rw [List.drop_append, length_encode32, List.drop_of_length_le (by rw [length_encode32]; omega)]
    simp
  have h3 : decode32 (encode32 r.bookingState.elecs) = r.bookingState.elecs := by
    simpa using decode32_encode32_append r.bookingState.elecs []
  simp only [decode, encode, h _ _ 0, h _ _ 4, h _ _ 8, List.drop_zero, decode32_encode32_append,
    h3]

/-- The bytes of an ASCII string. -/
def ascii (s : String) : List UInt8 := s.toList.map fun c => UInt8.ofNat c.toNat

/-! ### `checkid` -/

/-- `isspace` in the C locale. -/
def isSpace (c : UInt8) : Bool := c == 32 || (9 ≤ c && c ≤ 13)

/-- `'0' <= c && c <= '9'`. -/
def isDigit (c : UInt8) : Bool := 48 ≤ c && c ≤ 57

/-- The value of the digits a string starts with. -/
def digitsValue : List UInt8 → ℕ → ℕ
  | [], acc => acc
  | c :: cs, acc => if isDigit c then digitsValue cs (10 * acc + (c.toNat - 48)) else acc

/-- glibc's `strtol(s, NULL, 10)`, with its saturation at the bounds of a 64-bit `long`. -/
def strtol (s : List UInt8) : ℤ :=
  match s.dropWhile isSpace with
  | 45 :: cs => max (-2 ^ 63) (-(digitsValue cs 0 : ℤ))
  | 43 :: cs => min (2 ^ 63 - 1) (digitsValue cs 0 : ℤ)
  | cs => min (2 ^ 63 - 1) (digitsValue cs 0 : ℤ)

/-- `atoi`: the `long` cut down to an `int`. -/
def atoi (s : List UInt8) : ℤ := (strtol s).bmod (2 ^ 32)

/-- `checkid`, on the text of the request. -/
def checkid (buf : List UInt8) : Bool :=
  if buf.any (fun c => c < 48 || 57 < c) then false
  else
    let idnum := atoi buf
    !(idnum < 902001 || 902020 < idnum)

/-- The number `k` of the record of an id line: the line denotes `902000 + k`. -/
theorem checkid_atoi {buf : List UInt8} (h : checkid buf = true) :
    ∃ k : ℕ, 1 ≤ k ∧ k ≤ 20 ∧ atoi buf = 902000 + k := by
  unfold checkid at h
  split at h
  · cases h
  · simp only [Bool.not_eq_true', Bool.or_eq_false_iff, decide_eq_false_iff_not, not_lt] at h
    exact ⟨(atoi buf - 902000).toNat, by omega, by omega, by omega⟩

/-- `id % 100`, the index of the id in `book`, `readlc` and `samewr`. -/
def bookIndex (id : ℤ) : ℕ := (id.tmod 100).toNat

@[simp] theorem bookIndex_id {k : ℕ} (hk : k ≤ 20) : bookIndex (902000 + k) = k := by
  have h : ((902000 : ℤ) + k).tmod 100 = k := by
    rw [Int.tmod_eq_emod_of_nonneg (by omega)]
    omega
  simp [bookIndex, h]

/-! ### `checkcommand` -/

/-- `(int)d` for a non-negative integral `double`: the value if it is an `int`, else the
    "integer indefinite" value of the x86 conversion instruction. -/
def doubleToInt (d : ℕ) : Int32 := if d < 2 ^ 31 then Int32.ofNat d else Int32.minValue

/-- The local variables of the loop of `checkcommand`. -/
structure Scan where
  s : ℕ
  time : ℕ
  chF : Int32
  chC : Int32
  chE : Int32
  new : Int32
  deriving DecidableEq, Repr

/-- `new += val * (int)d` for the digit `c` at position `i`, with `d = 10 ^ (s - i)`. -/
def Scan.addDigit (st : Scan) (c : UInt8) (i : ℕ) : Scan :=
  { st with new := st.new + Int32.ofNat (c.toNat - 48) * doubleToInt (10 ^ (st.s - i)) }

/-- One iteration of the loop of `checkcommand`; `none` is its `return -1`. -/
def scanChar (buf : List UInt8) (i : ℕ) (st : Scan) : Option Scan :=
  let c := buf.getD i 0
  -- the leftmost character completes the first number: with its sign or its highest digit
  if i = 0 then
    if c = 45 then
      some { st with chF := st.new * (-1), new := 0 }
    else if c = 32 then none
    else if c < 48 || 57 < c then none
    else
      let st := st.addDigit c i
      some { st with chF := st.new, new := 0 }
  -- a space closes a number; the scan runs right to left, so electronics come first
  else if c = 32 then
    some { st with
      s := i - 1
      chE := if st.time = 1 then st.new else st.chE
      chC := if st.time = 2 then st.new else st.chC
      new := 0
      time := st.time + 1 }
  -- a minus sign needs a space in front of it, but at index 1 the test is not made
  else if c = 45 then
    if i - 1 > 0 ∧ buf.getD (i - 1) 0 ≠ 32 then none
    else some { st with new := st.new * (-1) }
  else if c < 48 || 57 < c then none
  else some (st.addDigit c i)

/-- The iterations `i - 1, …, 0` of the loop. -/
def scanFrom (buf : List UInt8) : ℕ → Scan → Option Scan
  | 0, st => some st
  | i + 1, st => (scanChar buf i st).bind (scanFrom buf i)

/-- The loop of `checkcommand`: the deltas `(ch_f, ch_c, ch_e)` of a command line. -/
def scanCommand (buf : List UInt8) : Option BookingState :=
  (scanFrom buf buf.length ⟨buf.length - 1, 1, 0, 0, 0, 0⟩).map fun st =>
    ⟨st.chF, st.chC, st.chE⟩

/-- What `checkcommand` returns. -/
inductive Verdict where
  /-- `-1` -/
  | malformed
  /-- `1` -/
  | exceeds
  /-- `2` -/
  | below
  /-- `0` -/
  | accepted
  deriving DecidableEq, Repr

/-- The bound checks of `checkcommand`, in the order of the source. -/
def judge (b ch : BookingState) : Verdict :=
  let ori := b.food + b.concert + b.elecs
  if ori + ch.food + ch.concert + ch.elecs > 15 then .exceeds
  else if b.food + ch.food < 0 then .below
  else if b.concert + ch.concert < 0 then .below
  else if b.elecs + ch.elecs < 0 then .below
  else .accepted

/-- `checkcommand` on the record it has read: its return value, and the record it writes. -/
def checkcommand (buf : List UInt8) (input : Record) : Verdict × Option Record :=
  match scanCommand buf with
  | none => (.malformed, none)
  | some ch =>
    match judge input.bookingState ch with
    | .accepted => (.accepted, some { input with bookingState := input.bookingState.add ch })
    | v => (v, none)

/-- A command is accepted iff the scan yields deltas that pass the bound checks; the record
    is written in that case only, with the deltas added. -/
theorem checkcommand_cases (buf : List UInt8) (input : Record) :
    (∃ ch, scanCommand buf = some ch ∧ judge input.bookingState ch = .accepted ∧
      checkcommand buf input =
        (.accepted, some { input with bookingState := input.bookingState.add ch })) ∨
    ((checkcommand buf input).1 ≠ .accepted ∧ (checkcommand buf input).2 = none) := by
  cases hs : scanCommand buf with
  | none => right; simp [checkcommand, hs]
  | some ch =>
    cases hj : judge input.bookingState ch with
    | accepted => left; exact ⟨ch, rfl, hj, by simp [checkcommand, hs, hj]⟩
    | malformed | exceeds | below => right; simp [checkcommand, hs, hj]

/-! ### Lines of three numbers -/

/-- An optional `-` followed by one or more digits. -/
structure Token where
  minus : Bool
  digits : List UInt8
  nonempty : digits ≠ []
  isDigit : ∀ c ∈ digits, isDigit c = true

namespace Token

/-- The characters of a token. -/
def bytes (t : Token) : List UInt8 := if t.minus then 45 :: t.digits else t.digits

/-- The line of three tokens separated by single spaces. -/
def line (f c e : Token) : List UInt8 := f.bytes ++ 32 :: (c.bytes ++ 32 :: e.bytes)

end Token

/-- The line is exactly three tokens separated by single spaces. -/
def WellFormed (l : List UInt8) : Prop := ∃ f c e : Token, l = Token.line f c e

end SystemProgramming.Booking
