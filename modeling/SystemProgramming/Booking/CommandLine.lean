import Mathlib.Algebra.Order.Group.Abs
import Mathlib.Algebra.Order.Group.Int
import SystemProgramming.Booking.Bounds

namespace SystemProgramming.Booking

/-!
# Booking servers — the command line

The loop of `checkcommand` reads a line from right to left.  On a line of three numbers it decodes
them, but it judges each character by itself and its left neighbour only, and so it accepts more
lines than those.

* `scanCommand_line` — on a line of three numbers the loop computes their values;
* `checkcommand_decimal` — on the decimal rendering of three integers that are not too large,
  `checkcommand` decides and books exactly as the integers say;
* `scanCommand_eq_none_iff` — the loop rejects exactly the lines with a character that is not
  `Allowed` at its position;
* `checkcommand_rejects_iff` — so these, and no others, are the malformed lines it rejects.
-/

/-! ### The loop on the digits of a number -/

/-- What the digits of a number add to `new`, in `int` arithmetic. -/
def weigh : List UInt8 → Int32
  | [] => 0
  | c :: cs => Int32.ofNat (c.toNat - 48) * doubleToInt (10 ^ cs.length) + weigh cs

/-- The value the loop computes for a token. -/
def Token.value (t : Token) : Int32 := if t.minus then weigh t.digits * (-1) else weigh t.digits

/-- The range test of the loop, on a digit. -/
theorem outside_eq_false {c : UInt8} (h : isDigit c = true) :
    (decide (c < 48) || decide (57 < c)) = false := by
  simp only [isDigit, Bool.and_eq_true, decide_eq_true_eq] at h
  rw [Bool.or_eq_false_iff, decide_eq_false_iff_not, decide_eq_false_iff_not]
  exact ⟨UInt8.not_lt.mpr h.1, UInt8.not_lt.mpr h.2⟩

/-- A digit is neither a minus nor a space. -/
theorem ne_of_isDigit {c : UInt8} (h : isDigit c = true) : c ≠ 45 ∧ c ≠ 32 := by
  constructor
  · rintro rfl
    exact absurd h (by decide)
  · rintro rfl
    exact absurd h (by decide)

section Characters

variable {buf : List UInt8} {i : ℕ} {st : Scan}

/-- A digit is added to the number that is being read. -/
theorem scanChar_digit (hi : i ≠ 0) (hd : isDigit (buf.getD i 0) = true) :
    scanChar buf i st = some (st.addDigit (buf.getD i 0) i) := by
  obtain ⟨h45, h32⟩ := ne_of_isDigit hd
  simp only [scanChar, if_neg hi, if_neg h45, if_neg h32, outside_eq_false hd,
    Bool.false_eq_true, ↓reduceIte]

/-- The first character of the line ends its first number. -/
theorem scanChar_first_digit (hd : isDigit (buf.getD 0 0) = true) :
    scanChar buf 0 st =
      some { st with chF := (st.addDigit (buf.getD 0 0) 0).new, new := 0 } := by
  obtain ⟨h45, h32⟩ := ne_of_isDigit hd
  simp only [scanChar, ↓reduceIte, if_neg h45, if_neg h32, outside_eq_false hd,
    Bool.false_eq_true, Scan.addDigit]

/-- So does a minus there, which negates it. -/
theorem scanChar_first_minus (h : buf.getD 0 0 = 45) :
    scanChar buf 0 st = some { st with chF := st.new * (-1), new := 0 } := by
  simp only [scanChar, ↓reduceIte, h]

/-- A space ends a number, the third or the second one. -/
theorem scanChar_space (hi : i ≠ 0) (h : buf.getD i 0 = 32) :
    scanChar buf i st = some { st with
      s := i - 1
      chE := if st.time = 1 then st.new else st.chE
      chC := if st.time = 2 then st.new else st.chC
      new := 0
      time := st.time + 1 } := by
  simp only [scanChar, if_neg hi, h, ↓reduceIte]

/-- A minus behind a space negates the number. -/
theorem scanChar_minus (hi : i ≠ 0) (h : buf.getD i 0 = 45) (hl : buf.getD (i - 1) 0 = 32) :
    scanChar buf i st = some { st with new := st.new * (-1) } := by
  have h32 : (45 : UInt8) ≠ 32 := by decide
  simp only [scanChar, if_neg hi, h, if_neg h32, ↓reduceIte, hl, ne_eq, not_true_eq_false,
    and_false]

end Characters

/-- The loop over the digits `t` of a number that does not start the line. -/
theorem scanFrom_digits {t : List UInt8} (ht : ∀ c ∈ t, isDigit c = true) (q : List UInt8) :
    ∀ (p : List UInt8) (st : Scan), p ≠ [] → st.s + 1 = p.length + t.length →
      scanFrom (p ++ (t ++ q)) (p.length + t.length) st =
        scanFrom (p ++ (t ++ q)) p.length { st with new := st.new + weigh t } := by
  induction t with
  | nil =>
    intro p st _ _
    simp [weigh]
  | cons c t ih =>
    intro p st hp hs
    -- the digits to the right of `c` come first; then `c`, at position `p.length`
    have hpc : p ++ (c :: t ++ q) = (p ++ [c]) ++ (t ++ q) := by simp
    have hlen : p.length + (c :: t).length = (p ++ [c]).length + t.length := by
      simp; omega
    have hget : ((p ++ [c]) ++ (t ++ q)).getD p.length 0 = c := by simp
    have hstep : scanChar ((p ++ [c]) ++ (t ++ q)) p.length { st with new := st.new + weigh t } =
        some { st with new := st.new + weigh (c :: t) } := by
      have hweight : st.s - p.length = t.length := by
        simp at hs; omega
      rw [scanChar_digit (by simpa using hp) (by rw [hget]; exact ht c (by simp)), hget]
      simp only [Scan.addDigit, weigh, hweight]
      rw [Int32.add_assoc, Int32.add_comm (weigh t)]
    rw [hpc, hlen,
      ih (fun d hd => ht d (by simp [hd])) (p ++ [c]) st (by simp) (by simp at hs ⊢; omega)]
    rw [List.length_append, List.length_singleton, scanFrom, hstep, Option.bind_some]

/-- The loop over a number that follows a space. -/
theorem scanFrom_token (t : Token) (p q : List UInt8) {st : Scan} (hnew : st.new = 0)
    (hs : st.s + 1 = p.length + 1 + t.bytes.length) :
    scanFrom (p ++ 32 :: (t.bytes ++ q)) (p.length + 1 + t.bytes.length) st =
      scanFrom (p ++ 32 :: (t.bytes ++ q)) (p.length + 1) { st with new := t.value } := by
  cases hm : t.minus with
  | false =>
    have hb : t.bytes = t.digits := by simp [Token.bytes, hm]
    have hbuf : p ++ 32 :: (t.bytes ++ q) = (p ++ [32]) ++ (t.digits ++ q) := by simp [hb]
    have hdigits := scanFrom_digits t.isDigit q (p ++ [32]) st (by simp) (by simpa [hb] using hs)
    rw [hbuf, hb]
    simpa [hnew, Token.value, hm] using hdigits
  | true =>
    have hb : t.bytes = 45 :: t.digits := by simp [Token.bytes, hm]
    have hbuf : p ++ 32 :: (t.bytes ++ q) = (p ++ [32, 45]) ++ (t.digits ++ q) := by simp [hb]
    have hlen : p.length + 1 + t.bytes.length = (p ++ [32, 45]).length + t.digits.length := by
      simp [hb]; omega
    -- the digits are weighed first, and the sign in front of them comes last
    have hminus : scanChar ((p ++ [32, 45]) ++ (t.digits ++ q)) (p.length + 1)
        { st with new := weigh t.digits } = some { st with new := t.value } := by
      rw [scanChar_minus (by omega) (by simp) (by simp)]
      simp [Token.value, hm]
    rw [hbuf, hlen, scanFrom_digits t.isDigit q _ st (by simp) (by omega), hnew, Int32.zero_add]
    rw [List.length_append]
    exact congrArg (Option.bind · _) hminus

/-- The loop over the number that starts the line. -/
theorem scanFrom_first (t : Token) (q : List UInt8) {st : Scan} (hnew : st.new = 0)
    (hs : st.s + 1 = t.bytes.length) :
    scanFrom (t.bytes ++ q) t.bytes.length st = some { st with chF := t.value, new := 0 } := by
  cases hm : t.minus with
  | false =>
    have hb : t.bytes = t.digits := by simp [Token.bytes, hm]
    obtain ⟨d, ds, hds⟩ := List.exists_cons_of_ne_nil t.nonempty
    have hd := t.isDigit
    rw [hds] at hd
    have hbuf : t.bytes ++ q = [d] ++ (ds ++ q) := by simp [hb, hds]
    have hlen : t.bytes.length = [d].length + ds.length := by
      simp [hb, hds]; omega
    -- the digit at index 0 ends the scan and is weighed on its own
    have hfirst : scanChar ([d] ++ (ds ++ q)) 0 { st with new := weigh ds } =
        some { st with chF := t.value, new := 0 } := by
      have hweight : st.s = ds.length := by
        simp at hlen; omega
      rw [scanChar_first_digit (by simpa using hd d (by simp))]
      simp [Token.value, hm, hds, weigh, Scan.addDigit, hweight, Int32.add_comm]
    rw [hbuf, hlen, scanFrom_digits (fun c hc => hd c (by simp [hc])) q [d] st (by simp) (by omega),
      hnew, Int32.zero_add, List.length_singleton, scanFrom, hfirst]
    rfl
  | true =>
    have hb : t.bytes = 45 :: t.digits := by simp [Token.bytes, hm]
    have hbuf : t.bytes ++ q = [45] ++ (t.digits ++ q) := by simp [hb]
    have hlen : t.bytes.length = ([45] : List UInt8).length + t.digits.length := by
      simp [hb]; omega
    rw [hbuf, hlen, scanFrom_digits t.isDigit q [45] st (by simp) (by omega), hnew, Int32.zero_add,
      List.length_singleton, scanFrom, scanChar_first_minus (by simp)]
    simp [Token.value, hm, scanFrom]

/-- A token is not empty. -/
theorem Token.length_bytes_pos (t : Token) : 0 < t.bytes.length := by
  have h := List.length_pos_of_ne_nil t.nonempty
  unfold Token.bytes
  split
  · simp
  · exact h

/-- **The loop decodes three numbers.** -/
theorem scanCommand_line (f c e : Token) :
    scanCommand (Token.line f c e) = some ⟨f.value, c.value, e.value⟩ := by
  have hf := f.length_bytes_pos
  have hc := c.length_bytes_pos
  have he := e.length_bytes_pos
  -- the line, as seen from the third number, from its space and from the second number
  have hthird : Token.line f c e = (f.bytes ++ 32 :: c.bytes) ++ 32 :: (e.bytes ++ []) := by
    simp [Token.line]
  have hlen : (Token.line f c e).length =
      (f.bytes ++ 32 :: c.bytes).length + 1 + e.bytes.length := by
    simp [Token.line]; omega
  have hmid : (f.bytes ++ 32 :: c.bytes).length = f.bytes.length + 1 + c.bytes.length := by
    simp; omega
  unfold scanCommand
  rw [hlen, hthird, scanFrom_token e _ [] rfl (by simp only; omega), scanFrom,
    scanChar_space (by omega) (by simp), Option.bind_some, ← hthird, hmid, Token.line]
  rw [scanFrom_token c f.bytes _ rfl (by simp only; omega), scanFrom,
    scanChar_space (by omega) (by simp), Option.bind_some,
    scanFrom_first f _ rfl (by simp only; omega)]
  simp

/-! ### Decimal renderings -/

/-- The decimal value of digits that follow a number `acc`. -/
theorem digitsValue_acc {t : List UInt8} (ht : ∀ c ∈ t, isDigit c = true) (acc : ℕ) :
    digitsValue t acc = acc * 10 ^ t.length + digitsValue t 0 := by
  induction t generalizing acc with
  | nil => simp [digitsValue]
  | cons c t ih =>
    have hc : isDigit c = true := ht c (by simp)
    have ih := ih fun d hd => ht d (by simp [hd])
    simp only [digitsValue, hc, ↓reduceIte, List.length_cons]
    rw [ih (10 * acc + _), ih (10 * 0 + _)]
    ring

/-- The weights `(int)d` are exact for a number that is an `int`. -/
theorem weigh_eq {t : List UInt8} (ht : ∀ c ∈ t, isDigit c = true)
    (hv : digitsValue t 0 < 2 ^ 31) : weigh t = Int32.ofNat (digitsValue t 0) := by
  induction t with
  | nil => rfl
  | cons c t ih =>
    have htail : ∀ d ∈ t, isDigit d = true := fun d hd => ht d (by simp [hd])
    have hvalue : digitsValue (c :: t) 0 = (c.toNat - 48) * 10 ^ t.length + digitsValue t 0 := by
      rw [digitsValue, if_pos (ht c (by simp)), Nat.mul_zero, Nat.zero_add, digitsValue_acc htail]
    rw [hvalue] at hv ⊢
    rw [weigh, ih htail (by omega), Int32.ofNat_add, Int32.ofNat_mul]
    congr 1
    rcases Nat.eq_zero_or_pos (c.toNat - 48) with h0 | hpos
    · simp [h0]
    · -- a digit other than `0` is at least its weight
      have hle := Nat.le_mul_of_pos_left (10 ^ t.length) hpos
      rw [doubleToInt, if_pos (by omega)]

/-- The characters of `Nat.toDigits`, as bytes. -/
theorem digitsValue_map {l : List Char} (hl : ∀ c ∈ l, c.isDigit = true) (acc : ℕ) :
    (∀ b ∈ l.map fun c => UInt8.ofNat c.toNat, isDigit b = true) ∧
      digitsValue (l.map fun c => UInt8.ofNat c.toNat) acc = Nat.ofDigitChars 10 l acc := by
  induction l generalizing acc with
  | nil => simp [digitsValue]
  | cons c l ih =>
    have hc := hl c (by simp)
    -- the digit at the head goes into the accumulator, hence the induction over all of them
    have ih := ih (fun d hd => hl d (by simp [hd])) (10 * acc + (c.toNat - 48))
    have hrange : 48 ≤ c.toNat ∧ c.toNat ≤ 57 := by
      simpa [Char.isDigit, UInt32.le_iff_toNat_le] using hc
    have hnat : (UInt8.ofNat c.toNat).toNat = c.toNat := by
      rw [UInt8.toNat_ofNat']; omega
    have hdigit : isDigit (UInt8.ofNat c.toNat) = true := by
      simp only [isDigit, Bool.and_eq_true, decide_eq_true_eq, UInt8.le_iff_toNat_le, hnat]
      exact hrange
    refine ⟨?_, ?_⟩
    · simpa [hdigit] using ih.1
    · rw [List.map_cons, digitsValue, if_pos hdigit, hnat, ih.2, Nat.ofDigitChars_cons]
      rfl

/-- The token of an integer: the characters `toString` gives it. -/
def Token.ofInt (n : ℤ) : Token where
  minus := decide (n < 0)
  digits := ascii (Nat.repr n.natAbs)
  nonempty := by simp [ascii, Nat.toList_repr, Nat.toDigits_ne_nil]
  isDigit := by
    rw [ascii, Nat.toList_repr]
    exact (digitsValue_map (fun c hc => Nat.isDigit_of_mem_toDigits (by decide) (by decide) hc)
      0).1

/-- The bytes of a text are those of its parts. -/
theorem ascii_append (s t : String) : ascii (s ++ t) = ascii s ++ ascii t := by
  simp [ascii]

/-- The token of an integer is its decimal rendering. -/
theorem Token.bytes_ofInt (n : ℤ) : (Token.ofInt n).bytes = ascii (toString n) := by
  rw [Int.toString_eq_repr, Int.repr_eq_if, Token.bytes]
  rcases lt_or_ge n 0 with h | h
  · have habs : (-n).toNat = n.natAbs := by omega
    rw [if_neg (not_le.mpr h), ascii_append, habs]
    simp only [Token.ofInt, h, decide_true, ↓reduceIte]
    rfl
  · have habs : n.toNat = n.natAbs := by omega
    rw [if_pos h, habs]
    simp only [Token.ofInt, not_lt.mpr h, decide_false, Bool.false_eq_true, ↓reduceIte]

/-- The digits of the token have its absolute value. -/
theorem Token.digitsValue_ofInt (n : ℤ) : digitsValue (Token.ofInt n).digits 0 = n.natAbs := by
  have hd : ∀ c ∈ Nat.toDigits 10 n.natAbs, c.isDigit = true :=
    fun c hc => Nat.isDigit_of_mem_toDigits (by decide) (by decide) hc
  simp only [Token.ofInt, ascii, Nat.toList_repr]
  rw [(digitsValue_map hd 0).2, Nat.ofDigitChars_ten_toDigits]

/-- An `int` sum that does not overflow. -/
theorem bmod_int {x : ℤ} (hlo : -2 ^ 31 ≤ x) (hhi : x < 2 ^ 31) : x.bmod (2 ^ 32) = x :=
  Int.bmod_eq_of_le (by omega) (by omega)

/-- The loop computes the integer a decimal rendering stands for. -/
theorem Token.value_ofInt {n : ℤ} (hn : |n| < 2 ^ 31) : (Token.ofInt n).value.toInt = n := by
  have habs : (n.natAbs : ℤ) < 2 ^ 31 := by
    rw [Int.natCast_natAbs]; exact hn
  have hweigh : weigh (Token.ofInt n).digits = Int32.ofNat n.natAbs := by
    rw [weigh_eq (Token.ofInt n).isDigit (by rw [digitsValue_ofInt]; omega), digitsValue_ofInt]
  have hnat : (Int32.ofNat n.natAbs).toInt = n.natAbs := by
    rw [Int32.toInt_ofNat']
    exact bmod_int (by omega) (by omega)
  rw [Token.value, hweigh]
  rcases lt_or_ge n 0 with h | h
  · have hneg : (-1 : Int32).toInt = -1 := by decide
    simp only [Token.ofInt, h, decide_true, ↓reduceIte, Int32.toInt_mul, hnat, hneg]
    rw [bmod_int (by omega) (by omega)]
    omega
  · simp only [Token.ofInt, not_lt.mpr h, decide_false, Bool.false_eq_true, ↓reduceIte, hnat]
    omega

/-- The line `<f> <c> <e>` of three integers. -/
def commandText (f c e : ℤ) : List UInt8 :=
  ascii (toString f ++ " " ++ toString c ++ " " ++ toString e)

/-- The decimal rendering of a command is a line of three tokens. -/
theorem commandText_eq (f c e : ℤ) :
    commandText f c e = Token.line (Token.ofInt f) (Token.ofInt c) (Token.ofInt e) := by
  have hspace : ascii " " = [32] := by decide
  simp only [commandText, Token.line, ascii_append, hspace, Token.bytes_ofInt, List.append_assoc,
    List.cons_append, List.nil_append]

/-- The bound checks on counts and deltas whose sums are `int`s. -/
theorem judge_eq {b : BookingState} (hb : b.InBounds) (ch : BookingState)
    (hsize : |ch.food.toInt| + |ch.concert.toInt| + |ch.elecs.toInt| + 15 < 2 ^ 31) :
    judge b ch =
      if 15 < b.food.toInt + b.concert.toInt + b.elecs.toInt + ch.food.toInt + ch.concert.toInt +
          ch.elecs.toInt then .exceeds
      else if b.food.toInt + ch.food.toInt < 0 ∨ b.concert.toInt + ch.concert.toInt < 0 ∨
          b.elecs.toInt + ch.elecs.toInt < 0 then .below
      else .accepted := by
  -- the sizes keep every sum inside 32 bits, so the comparisons are those of the integers
  obtain ⟨hf, hc, he, hsum⟩ := hb
  have af := abs_le.mp (le_refl |ch.food.toInt|)
  have ac := abs_le.mp (le_refl |ch.concert.toInt|)
  have ae := abs_le.mp (le_refl |ch.elecs.toInt|)
  have h15 : (15 : Int32).toInt = 15 := by decide
  have h0 : (0 : Int32).toInt = 0 := by decide
  simp only [judge, gt_iff_lt, Int32.lt_iff_toInt_lt, Int32.toInt_add, Int.bmod_add_bmod, h15, h0]
  rw [bmod_int (by omega) (by omega), bmod_int (by omega) (by omega),
    bmod_int (by omega) (by omega),
    bmod_int (by omega) (by omega)]
  split
  · rfl
  · split_ifs <;> first | rfl | omega

/-- Where the bound checks do not overflow, neither do the new counts. -/
theorem add_toInt {b : BookingState} (hb : b.InBounds) (ch : BookingState)
    (hsize : |ch.food.toInt| + |ch.concert.toInt| + |ch.elecs.toInt| + 15 < 2 ^ 31) :
    (b.add ch).food.toInt = b.food.toInt + ch.food.toInt ∧
      (b.add ch).concert.toInt = b.concert.toInt + ch.concert.toInt ∧
      (b.add ch).elecs.toInt = b.elecs.toInt + ch.elecs.toInt := by
  obtain ⟨hf, hc, he, hsum⟩ := hb
  have af := abs_le.mp (le_refl |ch.food.toInt|)
  have ac := abs_le.mp (le_refl |ch.concert.toInt|)
  have ae := abs_le.mp (le_refl |ch.elecs.toInt|)
  simp only [BookingState.add, Int32.toInt_add]
  refine ⟨?_, ?_, ?_⟩
  · exact bmod_int (by omega) (by omega)
  · exact bmod_int (by omega) (by omega)
  · exact bmod_int (by omega) (by omega)

/-- **Well-formed commands are decided and booked exactly.**  On a record in bounds and a line
    `<f> <c> <e>` of integers that are not too large, `checkcommand` answers that the total would
    exceed 15, else that a count would fall below 0, else it books; and it writes the record with
    the exact new counts in this last case only. -/
theorem checkcommand_decimal (input : Record) (hb : input.bookingState.InBounds) (f c e : ℤ)
    (hsize : |f| + |c| + |e| + 15 < 2 ^ 31) :
    let b := input.bookingState
    let r := checkcommand (commandText f c e) input
    let exceeds := b.food.toInt + b.concert.toInt + b.elecs.toInt + f + c + e > 15
    let below := b.food.toInt + f < 0 ∨ b.concert.toInt + c < 0 ∨ b.elecs.toInt + e < 0
    (r.1 = .exceeds ↔ exceeds) ∧
    (r.1 = .below ↔ ¬ exceeds ∧ below) ∧
    (r.1 = .accepted ↔ ¬ exceeds ∧ ¬ below) ∧
    (r.1 = .accepted → ∃ out, r.2 = some out ∧ out.id = input.id ∧
      out.bookingState.food.toInt = b.food.toInt + f ∧
      out.bookingState.concert.toInt = b.concert.toInt + c ∧
      out.bookingState.elecs.toInt = b.elecs.toInt + e) ∧
    (r.1 ≠ .accepted → r.2 = none) := by
  intro b r exceeds below
  -- the scan finds the three numbers, and from there only the tests of `judge` are left
  have hf0 := abs_nonneg f
  have hc0 := abs_nonneg c
  have he0 := abs_nonneg e
  obtain ⟨ch, hscan, hf, hc, he⟩ : ∃ ch : BookingState, scanCommand (commandText f c e) = some ch ∧
      ch.food.toInt = f ∧ ch.concert.toInt = c ∧ ch.elecs.toInt = e := by
    refine ⟨_, by rw [commandText_eq, scanCommand_line], ?_, ?_, ?_⟩
    · exact Token.value_ofInt (by omega)
    · exact Token.value_ofInt (by omega)
    · exact Token.value_ofInt (by omega)
  have hjudge := judge_eq hb ch (by rw [hf, hc, he]; exact hsize)
  rw [hf, hc, he] at hjudge
  by_cases hx : exceeds
  · have hr : r = (.exceeds, none) := by
      simp only [r, checkcommand, hscan]
      rw [hjudge, if_pos hx]
    simp [hr, hx]
  · by_cases hbelow : below
    · have hr : r = (.below, none) := by
        simp only [r, checkcommand, hscan]
        rw [hjudge, if_neg hx, if_pos hbelow]
      simp [hr, hx, hbelow]
    · have hr : r = (.accepted, some { input with bookingState := b.add ch }) := by
        simp only [r, checkcommand, hscan]
        rw [hjudge, if_neg hx, if_neg hbelow]
      have hexact := add_toInt hb ch (by rw [hf, hc, he]; exact hsize)
      rw [hf, hc, he] at hexact
      simpa [hr, hx, hbelow] using hexact

/-- One meal, one concert and two devices fewer: from an empty record this falls below 0. -/
theorem checkcommand_decimal_below :
    (checkcommand (commandText 1 1 (-2)) ⟨902002, .zero⟩).1 = .below :=
  (checkcommand_decimal ⟨902002, .zero⟩ (by decide) 1 1 (-2) (by decide)).2.1.mpr (by decide)

/-! ### The lines the loop rejects -/

/-- The character at position `i` passes the tests of the loop: a digit; a space that is not the
    first character; or a `-` that follows a space, is the first character or is the second one,
    whose left neighbour the loop does not test. -/
def Allowed (l : List UInt8) (i : ℕ) : Prop :=
  isDigit (l.getD i 0) = true ∨ (l.getD i 0 = 32 ∧ i ≠ 0) ∨
    (l.getD i 0 = 45 ∧ (i ≤ 1 ∨ l.getD (i - 1) 0 = 32))

instance (l : List UInt8) (i : ℕ) : Decidable (Allowed l i) := by
  unfold Allowed; infer_instance

/-- One iteration fails on a character that is not allowed, whatever was scanned before. -/
theorem scanChar_eq_none_iff (l : List UInt8) (i : ℕ) (st : Scan) :
    scanChar l i st = none ↔ ¬ Allowed l i := by
  unfold scanChar Allowed
  generalize l.getD i 0 = c
  have hout : (decide (c < 48) || decide (57 < c)) = !isDigit c := by
    simp [isDigit, ← UInt8.not_lt]
  simp only [hout]
  by_cases hd : isDigit c = true
  · obtain ⟨h45, h32⟩ := ne_of_isDigit hd
    by_cases h0 : i = 0
    · simp [hd, h45, h32, h0]
    · simp [hd, h45, h32, h0]
  · by_cases h32 : c = 32
    · subst h32
      simp [hd]
    · by_cases h45 : c = 45
      · subst h45
        -- the loop tests `i - 1 > 0` before it looks at the left neighbour
        by_cases hi : i ≤ 1
        · by_cases h0 : i = 0
          · simp [h0]
          · simp [h0, hi]
        · simp [show i - 1 > 0 by omega, show i ≠ 0 by omega, hi, hd]
      · simp [hd, h32, h45]

/-- The loop fails exactly if some character is not allowed at its position. -/
theorem scanFrom_eq_none_iff (l : List UInt8) (n : ℕ) (st : Scan) :
    scanFrom l n st = none ↔ ∃ i, i < n ∧ ¬ Allowed l i := by
  induction n generalizing st with
  | zero => simp [scanFrom]
  | succ n ih =>
    rw [scanFrom]
    cases hc : scanChar l n st with
    | none =>
      have hn := (scanChar_eq_none_iff l n st).mp hc
      exact iff_of_true rfl ⟨n, Nat.lt_succ_self n, hn⟩
    | some st' =>
      have hn : Allowed l n := by
        -- the character at `n` is allowed, so a bad one lies strictly below
        by_contra h
        rw [(scanChar_eq_none_iff l n st).mpr h] at hc
        cases hc
      rw [Option.bind_some, ih]
      constructor
      · rintro ⟨i, hi, hbad⟩
        exact ⟨i, by omega, hbad⟩
      · rintro ⟨i, hi, hbad⟩
        have hne : i ≠ n := by
          rintro rfl
          exact hbad hn
        exact ⟨i, by omega, hbad⟩

/-- **The loop rejects** exactly the lines with a character that is not allowed. -/
theorem scanCommand_eq_none_iff (l : List UInt8) :
    scanCommand l = none ↔ ∃ i, i < l.length ∧ ¬ Allowed l i := by
  rw [scanCommand, Option.map_eq_none_iff, scanFrom_eq_none_iff]

/-- `checkcommand` returns `-1`, and writes nothing, exactly on the lines its loop rejects. -/
theorem checkcommand_malformed_iff (l : List UInt8) (input : Record) :
    checkcommand l input = (.malformed, none) ↔ ∃ i, i < l.length ∧ ¬ Allowed l i := by
  rw [← scanCommand_eq_none_iff]
  cases hs : scanCommand l with
  | none => simp [checkcommand, hs]
  | some ch =>
    have hj : judge input.bookingState ch ≠ .malformed := by
      simp only [judge]
      split_ifs <;> simp
    cases hv : judge input.bookingState ch with
    | malformed => exact absurd hv hj
    | exceeds | below | accepted => simp [checkcommand, hs, hv]

/-- **The malformed lines that are rejected.**  `checkcommand` keeps to "a line that is not three
    numbers separated by single spaces returns `-1` and leaves the record" exactly on the lines
    that are three numbers or have a character that is not allowed at its position. -/
theorem checkcommand_rejects_iff (l : List UInt8) (input : Record) :
    (¬ WellFormed l → checkcommand l input = (.malformed, none)) ↔
      WellFormed l ∨ ∃ i, i < l.length ∧ ¬ Allowed l i := by
  rw [checkcommand_malformed_iff, or_iff_not_imp_left]

/-- A line of three numbers has at least five characters. -/
theorem WellFormed.length {l : List UInt8} (h : WellFormed l) : 5 ≤ l.length := by
  obtain ⟨f, c, e, rfl⟩ := h
  have hf := f.length_bytes_pos
  have hc := c.length_bytes_pos
  have he := e.length_bytes_pos
  simp only [Token.line, List.length_append, List.length_cons]
  omega

/-- **A malformed line is booked.**  The line `5` is not three numbers, but `checkcommand` takes it
    for a command that books five meals. -/
theorem checkcommand_accepts_malformed : ¬ ∀ (l : List UInt8) (input : Record), l.length ≤ 511 →
    0 ∉ l → ¬ WellFormed l → checkcommand l input = (.malformed, none) := by
  intro h
  have hbad := h (ascii "5") ⟨902001, .zero⟩ (by decide) (by decide)
    (fun hw => absurd hw.length (by decide))
  have hbooked : checkcommand (ascii "5") ⟨902001, .zero⟩ =
      (.accepted, some ⟨902001, ⟨5, 0, 0⟩⟩) := by decide +kernel
  rw [hbooked] at hbad
  cases hbad

end SystemProgramming.Booking
