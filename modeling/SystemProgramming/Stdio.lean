import SystemProgramming.Lib.Scanner
import SystemProgramming.Threads.MaxSubarray

namespace SystemProgramming.Stdio

open Scanner
open Booking (isSpace isDigit digitsValue atoi ascii digit_starts digitsValue_eq bmod_int Token)
open Threads (Signed strtol_signed)

/-!
# The numbers of a format

The conversions of `scanf` for integers, on bytes.

* `Numeral` — an `int` as it may be written;
* `finds_decimal` / `finds_unsigned` — `%d` and `%u` take such a text for its number.
-/

/-- The sign of a number. -/
def isSign (c : UInt8) : Bool := c == 43 || c == 45

/-- `%d`: a `long` that is cut down to an `int`. -/
def decimal : Conversion UInt8 ℤ := (number isSpace isSign isDigit).map atoi

/-- glibc's `strtoul` on a sign or none, and digits: a negative number is taken from `2 ^ 64`. -/
def strtoul (l : List UInt8) : ℕ :=
  let v := digitsValue (l.dropWhile isSign) 0
  if 2 ^ 64 ≤ v then 2 ^ 64 - 1
  else if l.head? = some 45 then (2 ^ 64 - v) % 2 ^ 64
  else v

/-- `%u` into an `int`. -/
def unsigned : Conversion UInt8 ℤ :=
  (number isSpace isSign isDigit).map fun l => (strtoul l : ℤ).bmod (2 ^ 32)

/-- The blanks, signs and digits of C. -/
theorem numeric : Numeric isSpace isSign isDigit where
  sign_space c hc := by
    simp only [isSign, Bool.or_eq_true, beq_iff_eq] at hc
    rcases hc with rfl | rfl <;> decide
  digit_space c hc := (digit_starts hc).1
  digit_sign c hc := by
    obtain ⟨-, hminus, hplus⟩ := digit_starts hc
    simp [isSign, hminus, hplus]

/-- An `int` as it may be written: digits, perhaps behind a sign. -/
def Numeral (text : List UInt8) (x : ℤ) : Prop :=
  ∃ sign digits, text = sign ++ digits ∧ digits ≠ [] ∧ (∀ c ∈ digits, isDigit c = true) ∧
    Signed sign digits x ∧ -2 ^ 31 ≤ x ∧ x < 2 ^ 31

variable {pad text rest : List UInt8} {x : ℤ}

/-- A number has a digit. -/
theorem Numeral.ne_nil (h : Numeral text x) : text ≠ [] := by
  obtain ⟨sign, digits, rfl, hne, -⟩ := h
  simp [hne]

/-- There is at most one sign. -/
theorem sign_of_signed {sign digits : List UInt8} (h : Signed sign digits x) :
    sign.length ≤ 1 ∧ ∀ c ∈ sign, isSign c = true := by
  cases h <;> exact ⟨by decide, List.all_eq_true.mp rfl⟩

/-- The characters of a number. -/
theorem Numeral.mem (h : Numeral text x) {c : UInt8} (hc : c ∈ text) :
    isSign c = true ∨ isDigit c = true := by
  obtain ⟨sign, digits, rfl, -, hdigits, hsigned, -⟩ := h
  rcases List.mem_append.mp hc with hc | hc
  · exact .inl ((sign_of_signed hsigned).2 c hc)
  · exact .inr (hdigits c hc)

/-- There is no blank in a number. -/
theorem Numeral.not_space (h : Numeral text x) {c : UInt8} (hc : c ∈ text) : isSpace c = false := by
  rcases h.mem hc with hc | hc
  · exact numeric.sign_space c hc
  · exact numeric.digit_space c hc

/-- A number starts with no blank. -/
theorem Numeral.stops_space (h : Numeral text x) : Stops isSpace text :=
  stops_of_forall fun _ hc => h.not_space hc

/-- The characters that a number is taken for. -/
theorem finds_numeral (hpad : ∀ c ∈ pad, isSpace c = true) (h : Numeral text x)
    (hrest : Stops isDigit rest) :
    Finds (number isSpace isSign isDigit) (pad ++ text) rest text := by
  obtain ⟨sign, digits, rfl, hne, hdigits, hsigned, -⟩ := h
  obtain ⟨hs, hsign⟩ := sign_of_signed hsigned
  exact finds_number numeric hpad hs hsign hne hdigits hrest

/-- `atoi` of a number that is an `int`. -/
theorem Numeral.atoi (h : Numeral text x) : atoi text = x := by
  obtain ⟨sign, digits, rfl, hne, hdigits, hsigned, hlo, hhi⟩ := h
  have hvalue := @strtol_signed [] sign digits [] x (by simp) hdigits hne (by simp) hsigned
    (by omega) (by omega)
  rw [List.append_nil, List.nil_append] at hvalue
  rw [Booking.atoi, hvalue, bmod_int hlo hhi]

/-- `strtoul` of a number that is an `int`, cut down to an `int`: for a negative one, the two powers
    of two cancel. -/
theorem Numeral.strtoul (h : Numeral text x) : (strtoul text : ℤ).bmod (2 ^ 32) = x := by
  obtain ⟨sign, digits, rfl, hne, hdigits, hsigned, hlo, hhi⟩ := h
  have hdrop : (sign ++ digits).dropWhile isSign = digits :=
    dropWhile_append_stops (sign_of_signed hsigned).2
      (stops_of_forall fun c hc => numeric.digit_sign c (hdigits c hc))
  have hhead : digits.head? ≠ some 45 := by
    intro h
    exact (digit_starts (hdigits 45 (List.mem_of_mem_head? h))).2.1 rfl
  have hsmall : Booking.decimalValue digits ≤ 2 ^ 31 := by
    cases hsigned <;> omega
  unfold Stdio.strtoul
  rw [hdrop, digitsValue_eq hdigits]
  dsimp only
  rw [if_neg (by omega)]
  cases hsigned with
  | unsigned =>
    rw [List.nil_append, if_neg hhead]
    exact bmod_int hlo hhi
  | plus =>
    rw [if_neg (by simp)]
    exact bmod_int hlo hhi
  | minus =>
    -- `2 ^ 64` is a multiple of `2 ^ 32`
    rw [if_pos (by simp), Int.bmod_def]
    omega

/-- **`%d`** finds the number, behind any blanks. -/
theorem finds_decimal (hpad : ∀ c ∈ pad, isSpace c = true) (h : Numeral text x)
    (hrest : Stops isDigit rest) : Finds decimal (pad ++ text) rest x := by
  have hfinds := (finds_numeral hpad h hrest).map atoi
  rwa [h.atoi] at hfinds

/-- **`%u`** finds the same number. -/
theorem finds_unsigned (hpad : ∀ c ∈ pad, isSpace c = true) (h : Numeral text x)
    (hrest : Stops isDigit rest) : Finds unsigned (pad ++ text) rest x := by
  have hfinds := (finds_numeral hpad h hrest).map fun l => (strtoul l : ℤ).bmod (2 ^ 32)
  rwa [h.strtoul] at hfinds

/-! ### Formats -/

section Format

variable {σ : Type*} {fmt : List (Conversion UInt8 (σ → σ))} {v : σ}

/-- White space in a format, before the next field. -/
theorem scan_white (hpad : ∀ c ∈ pad, isSpace c = true) (hrest : Stops isSpace rest) :
    scan ((white isSpace).map (fun _ => id) :: fmt) (pad ++ rest, v) = scan fmt (rest, v) :=
  scan_cons ((finds_white hpad hrest).map _)

/-- A field is read for its value and assigned. -/
theorem scan_field {β : Type*} {c : Conversion UInt8 β} {y : β} (assign : β → σ → σ)
    (h : Finds c (pad ++ text) rest y) :
    scan (c.map assign :: fmt) (pad ++ (text ++ rest), v) = scan fmt (rest, assign y v) := by
  rw [← List.append_assoc]
  exact scan_cons (h.map assign)

/-- `%d` in a format. -/
theorem scan_decimal (assign : ℤ → σ → σ) (hpad : ∀ c ∈ pad, isSpace c = true)
    (h : Numeral text x) (hrest : Stops isDigit rest) :
    scan (decimal.map assign :: fmt) (pad ++ (text ++ rest), v) = scan fmt (rest, assign x v) :=
  scan_field assign (finds_decimal hpad h hrest)

/-- `%u` in a format. -/
theorem scan_unsigned (assign : ℤ → σ → σ) (hpad : ∀ c ∈ pad, isSpace c = true)
    (h : Numeral text x) (hrest : Stops isDigit rest) :
    scan (unsigned.map assign :: fmt) (pad ++ (text ++ rest), v) = scan fmt (rest, assign x v) :=
  scan_field assign (finds_unsigned hpad h hrest)

/-- `%s` in a format, with a word that the width has room for. -/
theorem scan_word (width : Option ℕ) (assign : List UInt8 → σ → σ) (hne : text ≠ [])
    (htext : ∀ c ∈ text, isSpace c = false) (hwidth : ∀ n ∈ width, text.length ≤ n)
    (hrest : Stops (fun c => !isSpace c) rest) :
    scan ((word isSpace width).map assign :: fmt) (text ++ rest, v) =
      scan fmt (rest, assign text v) := by
  have hfinds : Finds (word isSpace width) ([] ++ text) rest text :=
    finds_word (by simp) hne htext hwidth hrest
  exact scan_field assign hfinds

end Format

/-! ### Blanks -/

/-- Blanks between fields. -/
abbrev Blanks := { pad : List UInt8 // ∀ c ∈ pad, isSpace c = true }

/-- A single space. -/
def Blanks.one : Blanks := ⟨[32], List.all_eq_true.mp rfl⟩

/-- It is a blank. -/
theorem Blanks.one_ne_nil : Blanks.one.val ≠ [] := List.cons_ne_nil 32 []

/-- A blank is no digit. -/
theorem stops_digit_of_blank (h : Stops (fun c => !isSpace c) rest) : Stops isDigit rest := by
  intro c hc
  have hspace : isSpace c = true := by simpa using h c hc
  by_contra hdigit
  rw [numeric.digit_space c (by simpa using hdigit)] at hspace
  cases hspace

/-- Behind a field there is something else. -/
theorem Blanks.stops (pad : Blanks) (hne : pad.val ≠ []) :
    Stops isDigit (pad.val ++ rest) ∧ Stops (fun c => !isSpace c) (pad.val ++ rest) := by
  obtain ⟨pad, hpad⟩ := pad
  have hblank : Stops (fun c => !isSpace c) pad :=
    stops_of_forall fun c hc => by rw [hpad c hc]; rfl
  have hstops : Stops (fun c => !isSpace c) (pad ++ rest) := hblank.append hne
  exact ⟨stops_digit_of_blank hstops, hstops⟩

/-- With or without blanks, no digit follows. -/
theorem Blanks.stops_digit (pad : Blanks) (h : Stops isDigit rest) :
    Stops isDigit (pad.val ++ rest) := by
  by_cases hne : pad.val = []
  · rwa [hne, List.nil_append]
  · exact (pad.stops hne).1

/-! ### Decimal numbers -/

/-- The decimal rendering of an `int`. -/
theorem numeral_toString (hlo : -2 ^ 31 ≤ x) (hhi : x < 2 ^ 31) :
    Numeral (ascii (toString x)) x := by
  have hdigits := (Token.ofInt x).isDigit
  have hvalue : (Booking.decimalValue (Token.ofInt x).digits : ℤ) = x.natAbs := by
    rw [← digitsValue_eq hdigits, Token.digitsValue_ofInt]
  rw [← Token.bytes_ofInt, Token.bytes]
  -- a minus sign in front of the digits of the absolute value, or the digits alone
  by_cases hneg : x < 0
  · have hx : x = -(Booking.decimalValue (Token.ofInt x).digits : ℤ) := by omega
    have hsigned := Signed.minus (Token.ofInt x).digits
    rw [← hx] at hsigned
    rw [if_pos (by simpa [Token.ofInt] using hneg)]
    exact ⟨_, _, rfl, (Token.ofInt x).nonempty, hdigits, hsigned, hlo, hhi⟩
  · have hx : x = Booking.decimalValue (Token.ofInt x).digits := by omega
    have hsigned := Signed.unsigned (Token.ofInt x).digits
    rw [← hx] at hsigned
    rw [if_neg (by simpa [Token.ofInt] using hneg)]
    exact ⟨[], _, rfl, (Token.ofInt x).nonempty, hdigits, hsigned, hlo, hhi⟩

end SystemProgramming.Stdio
