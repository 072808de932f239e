import SystemProgramming.Booking.CommandLine
import SystemProgramming.Booking.Server

namespace SystemProgramming.Booking

/-!
# Booking servers — the id line

`checkid` tests the characters of a line and the number that `atoi` makes of it, and `atoi` cuts a
64-bit `long` down to an `int`.  So a line that is too large by a multiple of `2 ^ 32` passes.

* `digitsValue_append` — `strtol` reads the digits up to the first other character;
* `checkid_eq_true_iff` — the lines that `checkid` accepts;
* `checkid_exact_iff` — on all lines but those that wrap around, these are the lines of the ids
  `902001 … 902020`, and the session that is opened has the id of its line.
-/

/-! ### The value of a line -/

/-- The value of decimal digits, leading zeros included. -/
def decimalValue (l : List UInt8) : ℕ := l.foldl (fun n c => 10 * n + (c.toNat - 48)) 0

/-- `strtol` reads digits up to the first character that is none. -/
theorem digitsValue_append {l t : List UInt8} (hl : ∀ c ∈ l, isDigit c = true)
    (ht : ∀ c ∈ t.head?, isDigit c = false) (acc : ℕ) :
    digitsValue (l ++ t) acc = l.foldl (fun n c => 10 * n + (c.toNat - 48)) acc := by
  induction l generalizing acc with
  | nil =>
    cases t with
    | nil => rfl
    | cons c t =>
      have hc : isDigit c = false := ht c rfl
      simp only [List.nil_append, digitsValue, hc, Bool.false_eq_true, ↓reduceIte, List.foldl_nil]
  | cons c l ih =>
    have hc : isDigit c = true := hl c (by simp)
    rw [List.cons_append, digitsValue, if_pos hc, ih fun d hd => hl d (by simp [hd])]
    rfl

theorem digitsValue_eq {l : List UInt8} (hl : ∀ c ∈ l, isDigit c = true) :
    digitsValue l 0 = decimalValue l := by
  have happend := digitsValue_append (t := []) hl (by simp) 0
  rwa [List.append_nil] at happend

/-- A digit is neither a blank nor a sign. -/
theorem digit_starts {c : UInt8} (h : isDigit c = true) : isSpace c = false ∧ c ≠ 45 ∧ c ≠ 43 := by
  simp only [isDigit, Bool.and_eq_true, decide_eq_true_eq, UInt8.le_iff_toNat_le] at h
  have h48 : 48 ≤ c.toNat := h.1
  refine ⟨?_, ?_, ?_⟩
  · simp only [isSpace, Bool.or_eq_false_iff, beq_eq_false_iff_ne, Bool.and_eq_false_iff,
      decide_eq_false_iff_not, UInt8.le_iff_toNat_le, ne_eq, ← UInt8.toNat_inj]
    exact ⟨fun h32 => absurd (h32 ▸ h48) (by decide),
      .inr fun h13 => absurd (h48.trans h13) (by decide)⟩
  · rintro rfl
    exact absurd h48 (by decide)
  · rintro rfl
    exact absurd h48 (by decide)

/-- Blanks before a number are skipped. -/
theorem dropWhile_blanks {pad l : List UInt8} (hpad : ∀ c ∈ pad, isSpace c = true)
    (hl : ∀ c ∈ l.head?, isSpace c = false) : (pad ++ l).dropWhile isSpace = l := by
  induction pad with
  | nil =>
    cases l with
    | nil => rfl
    | cons c l =>
      have hc : isSpace c = false := hl c rfl
      rw [List.nil_append, List.dropWhile_cons, hc]
      rfl
  | cons c pad ih =>
    rw [List.cons_append, List.dropWhile_cons, hpad c (by simp)]
    exact ih fun d hd => hpad d (by simp [hd])

/-- `strtol` on a number without a sign: its value, up to the largest `long`. -/
theorem strtol_digits {pad l t : List UInt8} (hpad : ∀ c ∈ pad, isSpace c = true)
    (hl : ∀ c ∈ l, isDigit c = true) (hne : l ≠ []) (ht : ∀ c ∈ t.head?, isDigit c = false) :
    strtol (pad ++ (l ++ t)) = min (2 ^ 63 - 1) (decimalValue l : ℤ) := by
  obtain ⟨c, l, rfl⟩ := List.exists_cons_of_ne_nil hne
  obtain ⟨hspace, hminus, hplus⟩ := digit_starts (hl c (by simp))
  -- the blanks go first, and a digit is neither a blank nor a sign
  have hdrop : (pad ++ ((c :: l) ++ t)).dropWhile isSpace = (c :: l) ++ t := by
    apply dropWhile_blanks hpad
    rintro d ⟨⟩
    exact hspace
  have hvalue : digitsValue ((c :: l) ++ t) 0 = decimalValue (c :: l) := digitsValue_append hl ht 0
  unfold strtol
  rw [hdrop, ← hvalue]
  split
  · rename_i heq
    exact absurd (List.cons.inj heq).1 hminus
  · rename_i heq
    exact absurd (List.cons.inj heq).1 hplus
  · rfl

/-! ### `checkid` -/

/-- The line of an id: decimal digits whose value is one of `902001 … 902020`. -/
def ValidId (l : List UInt8) : Prop :=
  l ≠ [] ∧ (∀ c ∈ l, isDigit c = true) ∧ 902001 ≤ decimalValue l ∧ decimalValue l ≤ 902020

/-- A line of digits that `atoi` takes for an id that it is too large for. -/
def IdWraps (l : List UInt8) : Prop :=
  (∀ c ∈ l, isDigit c = true) ∧ 2 ^ 32 ≤ decimalValue l ∧ decimalValue l < 2 ^ 63 ∧
    902001 ≤ decimalValue l % 2 ^ 32 ∧ decimalValue l % 2 ^ 32 ≤ 902020

/-- The character test of `checkid`. -/
theorem any_outside {l : List UInt8} :
    l.any (fun c => c < 48 || 57 < c) = false ↔ ∀ c ∈ l, isDigit c = true := by
  rw [List.any_eq_false]
  refine forall₂_congr fun c _ => ?_
  simp [isDigit, ← UInt8.not_lt]

theorem atoi_digits {l : List UInt8} (hl : ∀ c ∈ l, isDigit c = true) (hne : l ≠ []) :
    atoi l = (min (2 ^ 63 - 1) (decimalValue l : ℤ)).bmod (2 ^ 32) := by
  have hstrtol := @strtol_digits [] l [] (by simp) hl hne (by simp)
  rw [List.nil_append, List.append_nil] at hstrtol
  rw [atoi, hstrtol]

/-- **The lines that `checkid` accepts**: the value is compared after `atoi` has cut it down. -/
theorem checkid_eq_true_iff {l : List UInt8} :
    checkid l = true ↔ (∀ c ∈ l, isDigit c = true) ∧ decimalValue l < 2 ^ 63 ∧
      902001 ≤ decimalValue l % 2 ^ 32 ∧ decimalValue l % 2 ^ 32 ≤ 902020 := by
  unfold checkid
  split
  · rename_i hany
    refine iff_of_false (by simp) fun h => ?_
    rw [any_outside.mpr h.1] at hany
    cases hany
  · rename_i hany
    have hl := any_outside.mp (Bool.eq_false_iff.mpr hany)
    -- all characters are digits: the bound on `long` and the wrap to `int` remain
    rw [and_iff_right hl]
    simp only [Bool.not_eq_true', Bool.or_eq_false_iff, decide_eq_false_iff_not, not_lt]
    rcases eq_or_ne l [] with rfl | hne
    · decide
    · rw [atoi_digits hl hne]
      generalize decimalValue l = v
      rw [Int.bmod_def]
      split <;> omega

/-- `checkid` is exact on all lines but those that wrap around. -/
theorem checkid_iff_validId (l : List UInt8) : (checkid l = true ↔ ValidId l) ↔ ¬ IdWraps l := by
  rw [checkid_eq_true_iff]
  constructor
  · rintro hiff ⟨hl, hlarge, hbound, hlo, hhi⟩
    have hvalid := hiff.mp ⟨hl, hbound, hlo, hhi⟩
    have hle := hvalid.2.2.2
    omega
  · intro hwraps
    constructor
    · rintro ⟨hl, hbound, hlo, hhi⟩
      -- below `2 ^ 32` the wrap changes nothing
      have hsmall : decimalValue l < 2 ^ 32 := by
        by_contra hlarge
        exact hwraps ⟨hl, not_lt.mp hlarge, hbound, hlo, hhi⟩
      rw [Nat.mod_eq_of_lt hsmall] at hlo hhi
      refine ⟨?_, hl, hlo, hhi⟩
      rintro rfl
      exact absurd hlo (by decide)
    · rintro ⟨-, hl, hlo, hhi⟩
      exact ⟨hl, by omega, by omega, by omega⟩

theorem ValidId.atoi_eq {l : List UInt8} (h : ValidId l) : atoi l = decimalValue l := by
  obtain ⟨hne, hl, hlo, hhi⟩ := h
  rw [atoi_digits hl hne, min_eq_right (by omega)]
  exact bmod_int (by omega) (by omega)

theorem ValidId.bookIndex_mem {l : List UInt8} (h : ValidId l) :
    1 ≤ bookIndex (decimalValue l) ∧ bookIndex (decimalValue l) ≤ 20 := by
  obtain ⟨-, -, hlo, hhi⟩ := h
  have hk : (decimalValue l : ℤ) = 902000 + (decimalValue l - 902000 : ℕ) := by omega
  rw [hk, bookIndex_id (by omega)]
  omega

/-! ### The id of a session -/

section Session

variable {P : Type} [DecidableEq P] [Fintype P]

omit [DecidableEq P] [Fintype P] in
theorem hangUp_state (a : Active P) (fd : ℕ) : (a.hangUp fd).proc.state = a.proc.state := by
  simp only [Active.hangUp, Active.fdClr, Active.freeRequest, Active.close]
  split <;> rfl

omit [DecidableEq P] [Fintype P] in
theorem lseekBack_requestP (a : Active P) (k : ℕ) :
    (a.lseekBack k).proc.requestP = a.proc.requestP := by
  unfold Active.lseekBack
  split <;> rfl

theorem setlk_proc {a t : Active P} {p : P} {kind : RecordLock.LockKind} {k : ℕ}
    (h : a.setlk p kind k = some t) : t.proc = a.proc := by
  obtain ⟨locks, -, rfl⟩ := Option.map_eq_some_iff.mp h
  rfl

/-- A session that a line opens has the number of that line as its id. -/
theorem opened_id {a : Active P} {b : Build} {p : P} {fd : ℕ} {l : List UInt8}
    (hid : a.proc.state fd = .id)
    (hopen : (((a.storeLine fd l).onLine b p fd).proc.state fd).leId = false) :
    checkid l = true ∧ (((a.storeLine fd l).onLine b p fd).proc.requestP fd).id = atoi l := by
  have hbuf : ((a.storeLine fd l).proc.requestP fd).buf = l := by simp [Active.storeLine]
  have hstate : (a.storeLine fd l).proc.state fd = .id := hid
  -- the connection stays in state `ID` on a bad line, and goes back to `HI` when it is refused
  cases b with
  | readServer =>
    simp only [Active.onLine, hstate, Active.readId, hbuf] at hopen ⊢
    by_cases hcheck : checkid l = false
    · rw [if_pos hcheck, hangUp_state, Active.write, hstate] at hopen
      cases hopen
    · rw [if_neg hcheck] at hopen ⊢
      refine ⟨by simpa using hcheck, ?_⟩
      split at hopen
      · simp [Active.setState, SessionState.leId] at hopen
      · rename_i t hlk
        simp only [Active.setState, Active.write, lseekBack_requestP, Active.advance,
          Active.setReadlc, setlk_proc hlk]
        simp [Active.setId]
  | writeServer =>
    simp only [Active.onLine, hstate, Active.writeId, hbuf] at hopen ⊢
    by_cases hcheck : checkid l = false
    · rw [if_pos hcheck, hangUp_state, Active.write, hstate] at hopen
      cases hopen
    · rw [if_neg hcheck] at hopen ⊢
      refine ⟨by simpa using hcheck, ?_⟩
      split at hopen
      · simp [Active.setState, SessionState.leId] at hopen
      · rename_i t hlk
        split at hopen
        · simp [Active.setState, SessionState.leId] at hopen
        · rename_i hone
          rw [if_neg hone]
          simp only [Active.setState, Active.write, lseekBack_requestP, Active.advance,
            Active.setSamewr, setlk_proc hlk]
          simp [Active.setId]

end Session

/-- What `checkid` is for: it accepts exactly the lines of the ids, and the number that `main` then
    stores, for the lock and for the session that it opens, is the value of the line. -/
def ChecksId (P : Type) [DecidableEq P] [Fintype P] (l : List UInt8) : Prop :=
  (checkid l = true ↔ ValidId l) ∧
    (checkid l = true → atoi l = decimalValue l ∧ 1 ≤ bookIndex (atoi l) ∧ bookIndex (atoi l) ≤ 20) ∧
    ∀ (a : Active P) (b : Build) (p : P) (fd : ℕ), a.proc.state fd = .id →
      (((a.storeLine fd l).onLine b p fd).proc.state fd).leId = false →
      (((a.storeLine fd l).onLine b p fd).proc.requestP fd).id = decimalValue l

/-- **`checkid` is exact on all lines but those that wrap around**: numbers from `2 ^ 32` to
    `2 ^ 63 - 1` that `atoi` cuts down to an id. -/
theorem checkid_exact_iff (P : Type) [DecidableEq P] [Fintype P] (l : List UInt8) :
    ChecksId P l ↔ ¬ IdWraps l := by
  constructor
  · intro h
    exact (checkid_iff_validId l).mp h.1
  · intro hwraps
    have hiff := (checkid_iff_validId l).mpr hwraps
    refine ⟨hiff, fun hcheck => ?_, fun a b p fd hid hopen => ?_⟩
    · rw [(hiff.mp hcheck).atoi_eq]
      exact ⟨rfl, (hiff.mp hcheck).bookIndex_mem⟩
    · obtain ⟨hcheck, heq⟩ := opened_id hid hopen
      rw [heq, (hiff.mp hcheck).atoi_eq]

/-- **A number that is no id opens a session.**  The line `4295869297`, which is `2 ^ 32 + 902001`,
    passes. -/
theorem checkid_accepts_large :
    ¬ ∀ l : List UInt8, l.length ≤ 511 → 0 ∉ l → ChecksId Unit l := by
  intro h
  have hvalid := (h (ascii "4295869297") (by decide) (by decide)).1.mp (by decide)
  exact absurd hvalid.2.2.2 (by decide)

end SystemProgramming.Booking
