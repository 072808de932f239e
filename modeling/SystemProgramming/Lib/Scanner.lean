import Mathlib.Data.List.TakeWhile
import Mathlib.Dynamics.FixedPoints.Basic

namespace SystemProgramming.Scanner

/-!
# Reading text

Formatted input, tokens and lines as the C library reads them, from a text over an arbitrary
alphabet.  A class of characters is a predicate.

* `Conversion` — a directive of a format: it finds a value or fails, and leaves the rest of a text;
* `scan` — the directives of a format, up to the first that fails;
* `iterate_scan` — a loop over a text of records has the last record that it has come to;
* `tokens_eq` — repeated calls of `strtok` find the non-empty pieces between the delimiters;
* `fgetsAll_lines` — a loop over a text of short lines finds its lines.
-/

variable {α β γ σ ρ : Type*} {p : α → Bool} {l text rest pad w : List α}

/-! ### Classes of characters -/

/-- The text does not go on with a character of the class. -/
def Stops (p : α → Bool) (l : List α) : Prop := ∀ c ∈ l.head?, p c = false

/-- At its end a text stops. -/
@[simp] theorem stops_nil : Stops p [] := by
  rintro c ⟨⟩

/-- A text stops where its first character is outside the class. -/
@[simp] theorem stops_cons {c : α} : Stops p (c :: l) ↔ p c = false := by
  simp [Stops]

/-- Behind the characters of a class, the text does not go on with one. -/
theorem stops_dropWhile (p : α → Bool) (l : List α) : Stops p (l.dropWhile p) := by
  intro c hc
  have hnot := List.head?_dropWhile_not p l
  rw [Option.mem_def.mp hc] at hnot
  simpa using hnot

/-- There is nothing to skip. -/
theorem Stops.dropWhile (h : Stops p l) : l.dropWhile p = l := by
  cases l with
  | nil => rfl
  | cons c l => rw [List.dropWhile_cons, stops_cons.mp h]; rfl

/-- There is nothing to take. -/
theorem Stops.takeWhile (h : Stops p l) : l.takeWhile p = [] := by
  cases l with
  | nil => rfl
  | cons c l => rw [List.takeWhile_cons, stops_cons.mp h]; rfl

/-- A text that starts with some characters outside the class. -/
theorem Stops.append (h : Stops p text) (hne : text ≠ []) : Stops p (text ++ rest) := by
  obtain ⟨c, text, rfl⟩ := List.exists_cons_of_ne_nil hne
  exact stops_cons.mpr (stops_cons.mp h)

/-- A text without characters of the class. -/
theorem stops_of_forall (h : ∀ c ∈ l, p c = false) : Stops p l :=
  fun c hc => h c (List.mem_of_mem_head? hc)

/-- Exactly the characters in front are skipped. -/
theorem dropWhile_append_stops (hpad : ∀ c ∈ pad, p c = true) (h : Stops p l) :
    (pad ++ l).dropWhile p = l := by
  rw [List.dropWhile_append_of_pos hpad, h.dropWhile]

/-- Exactly the characters in front are taken. -/
theorem takeWhile_append_stops (hw : ∀ c ∈ w, p c = true) (h : Stops p l) :
    (w ++ l).takeWhile p = w := by
  rw [List.takeWhile_append_of_pos hw, h.takeWhile, List.append_nil]

/-! ### Conversions -/

/-- A directive of a format: the value it finds, if it does not fail, and what it leaves. -/
abbrev Conversion (α β : Type*) := List α → Option β × List α

/-- A conversion whose value is used. -/
def Conversion.map (f : β → γ) (c : Conversion α β) : Conversion α γ :=
  fun l => ((c l).1.map f, (c l).2)

variable (space sign digit : α → Bool)

/-- White space in a format: it skips blanks and never fails. -/
def white : Conversion α Unit := fun l => (some (), l.dropWhile space)

/-- `%c` -/
def char : Conversion α α
  | [] => (none, [])
  | c :: l => (some c, l)

/-- `%s`, with a width or without -/
def word (width : Option ℕ) : Conversion α (List α) := fun l =>
  let l := l.dropWhile space
  let w := l.takeWhile fun c => !space c
  let w := width.elim w fun n => w.take n
  if w.isEmpty then (none, l) else (some w, l.drop w.length)

/-- The sign that a number starts with, if it has one. -/
def signOf (l : List α) : List α := (l.take 1).takeWhile sign

/-- The characters that `%d` takes: behind blanks, a sign or none, and digits. -/
def number : Conversion α (List α) := fun l =>
  let l := l.dropWhile space
  let s := signOf sign l
  let l := l.drop s.length
  let ds := l.takeWhile digit
  if ds.isEmpty then (none, l) else (some (s ++ ds), l.drop ds.length)

/-- Before `rest` the conversion takes exactly `text`, for the value `v`. -/
def Finds (c : Conversion α β) (text rest : List α) (v : β) : Prop :=
  c (text ++ rest) = (some v, rest)

variable {space sign digit} {c : Conversion α β} {v : β}

/-- A conversion finds what is made of its value. -/
theorem Finds.map (f : β → γ) (h : Finds c text rest v) : Finds (c.map f) text rest (f v) := by
  rw [Finds, Conversion.map, show c (text ++ rest) = _ from h]
  rfl

/-- White space in a format takes all blanks. -/
theorem finds_white (hpad : ∀ c ∈ pad, space c = true) (hrest : Stops space rest) :
    Finds (white space) pad rest () := by
  rw [Finds, white, dropWhile_append_stops hpad hrest]

/-- `%c` takes one character, also a blank. -/
theorem finds_char (c : α) : Finds char [c] rest c := rfl

/-- What `%s` takes. -/
theorem finds_word {width : Option ℕ} (hpad : ∀ c ∈ pad, space c = true) (hne : w ≠ [])
    (hw : ∀ c ∈ w, space c = false) (hwidth : ∀ n ∈ width, w.length ≤ n)
    (hrest : Stops (fun c => !space c) rest) : Finds (word space width) (pad ++ w) rest w := by
  have hdrop : (pad ++ (w ++ rest)).dropWhile space = w ++ rest :=
    dropWhile_append_stops hpad ((stops_of_forall hw).append hne)
  have htake : (w ++ rest).takeWhile (fun c => !space c) = w :=
    takeWhile_append_stops (fun c hc => by rw [hw c hc]; rfl) hrest
  have hlimit : (width.elim w fun n => w.take n) = w := by
    cases width with
    | none => rfl
    | some n => exact List.take_of_length_le (hwidth n rfl)
  simp only [Finds, word, List.append_assoc, hdrop, htake, hlimit]
  rw [if_neg (by simpa using hne), List.drop_left]

/-- The classes of the characters of numbers. -/
structure Numeric (space sign digit : α → Bool) : Prop where
  sign_space : ∀ c, sign c = true → space c = false
  digit_space : ∀ c, digit c = true → space c = false
  digit_sign : ∀ c, digit c = true → sign c = false

variable {s ds : List α}

/-- The sign in front of a number, or that there is none. -/
theorem signOf_append (hs : s.length ≤ 1) (hsign : ∀ c ∈ s, sign c = true)
    (h : s = [] → Stops sign l) : signOf sign (s ++ l) = s := by
  match s, hs with
  | [], _ =>
    cases l with
    | nil => rfl
    | cons c l => simp [signOf, stops_cons.mp (h rfl)]
  | [c], _ => simp [signOf, hsign c (by simp)]

/-- What `%d` takes. -/
theorem finds_number (hclass : Numeric space sign digit) (hpad : ∀ c ∈ pad, space c = true)
    (hs : s.length ≤ 1) (hsign : ∀ c ∈ s, sign c = true) (hne : ds ≠ [])
    (hds : ∀ c ∈ ds, digit c = true) (hrest : Stops digit rest) :
    Finds (number space sign digit) (pad ++ (s ++ ds)) rest (s ++ ds) := by
  -- neither a sign nor a digit is a blank, so the blanks end where the number starts
  have hspace : Stops space (s ++ ds) := by
    apply stops_of_forall
    intro c hc
    rcases List.mem_append.mp hc with hc | hc
    · exact hclass.sign_space c (hsign c hc)
    · exact hclass.digit_space c (hds c hc)
  have hdrop : (pad ++ (s ++ (ds ++ rest))).dropWhile space = s ++ (ds ++ rest) := by
    rw [← List.append_assoc s]
    exact dropWhile_append_stops hpad (hspace.append (by simp [hne]))
  have hsignOf : signOf sign (s ++ (ds ++ rest)) = s :=
    signOf_append hs hsign fun _ =>
      (stops_of_forall fun c hc => hclass.digit_sign c (hds c hc)).append hne
  have htake : (ds ++ rest).takeWhile digit = ds := takeWhile_append_stops hds hrest
  simp only [Finds, number, List.append_assoc, hdrop, hsignOf, List.drop_left, htake]
  rw [if_neg (by simpa using hne)]

/-- `%d` fails where no number starts, and leaves what is there. -/
theorem number_fails (hsign : Stops sign (l.dropWhile space))
    (hdigit : Stops digit (l.dropWhile space)) :
    number space sign digit l = (none, l.dropWhile space) := by
  have hnone : signOf sign (l.dropWhile space) = [] := by
    have happend := signOf_append (s := []) (by simp) (by simp) fun _ => hsign
    rwa [List.nil_append] at happend
  simp only [number, hnone, List.length_nil, List.drop_zero, hdigit.takeWhile, List.isEmpty_nil,
    ↓reduceIte]

/-! ### Formats -/

/-- The directives of a format, each with the assignment it makes, up to the first that fails. -/
def scan : List (Conversion α (σ → σ)) → List α × σ → List α × σ
  | [], s => s
  | c :: fmt, s =>
    match (c s.1).1 with
    | some assign => scan fmt ((c s.1).2, assign s.2)
    | none => ((c s.1).2, s.2)

variable {fmt : List (Conversion α (σ → σ))} {d : Conversion α (σ → σ)} {x : σ}

/-- A directive that finds its value makes its assignment, and the format goes on. -/
theorem scan_cons {assign : σ → σ} (h : Finds d text rest assign) :
    scan (d :: fmt) (text ++ rest, x) = scan fmt (rest, assign x) := by
  simp only [scan]
  rw [show d (text ++ rest) = _ from h]

/-- A directive that fails ends the format without an assignment. -/
theorem scan_fails (h : d l = (none, rest)) : scan (d :: fmt) (l, x) = (rest, x) := by
  simp only [scan, h]

/-- However often the format is used, it assigns nothing. -/
def Stuck (fmt : List (Conversion α (σ → σ))) (l : List α) : Prop :=
  ∀ n x, ((scan fmt)^[n] (l, x)).2 = x

/-- A directive that fails at the same place again. -/
theorem stuck_of_fails (h : d l = (none, rest)) (hrest : d rest = (none, rest)) :
    Stuck (d :: fmt) l := by
  intro n x
  have hfix : Function.IsFixedPt (scan (d :: fmt)) (rest, x) := scan_fails hrest
  cases n with
  | zero => rfl
  | succ n => rw [Function.iterate_succ_apply, scan_fails h, hfix.iterate n]

/-- A text of records, each of which is read with one use of the format, and a tail that is not. -/
inductive Records (fmt : List (Conversion α (σ → σ))) (vars : ρ → σ) : List ρ → List α → Prop
  | tail {l : List α} (h : Stuck fmt l) : Records fmt vars [] l
  | cons {r : ρ} {rs : List ρ} {l rest : List α} (h : ∀ x, scan fmt (l, x) = (rest, vars r))
      (hrest : Records fmt vars rs rest) : Records fmt vars (r :: rs) l

/-- **A loop over records.**  After `n` rounds the variables are those of the last of the first `n`
    records; where there are none, they have not been assigned. -/
theorem iterate_scan {vars : ρ → σ} {rs : List ρ} (h : Records fmt vars rs l) (n : ℕ) (x : σ) :
    ((scan fmt)^[n] (l, x)).2 = ((rs.take n).map vars).getLastD x := by
  induction h generalizing n x with
  | tail h => rw [h, List.take_nil]; rfl
  | cons h hrest ih =>
    cases n with
    | zero => rfl
    | succ n =>
      rw [Function.iterate_succ_apply, h, ih, List.take_succ_cons, List.map_cons,
        List.getLastD_cons]

/-! ### Tokens -/

/-- `strtok`: the next token, if there is one, and what is behind the delimiter after it. -/
def strtok (delim : α → Bool) (l : List α) : Option (List α × List α) :=
  let l := l.dropWhile delim
  if l.isEmpty then none
  else some (l.takeWhile fun c => !delim c, (l.dropWhile fun c => !delim c).tail)

/-- The first `n` tokens, if there are as many. -/
def tokens (delim : α → Bool) : ℕ → List α → Option (List (List α))
  | 0, _ => some []
  | n + 1, l =>
    match strtok delim l with
    | none => none
    | some (w, rest) => (tokens delim n rest).map (w :: ·)

/-- The non-empty pieces of a text between its delimiters. -/
def pieces (delim : α → Bool) (l : List α) : List (List α) :=
  (l.splitOnP delim).filter fun w => !w.isEmpty

variable {delim : α → Bool}

/-- A delimiter in front makes no piece. -/
theorem pieces_delim {a : α} (ha : delim a = true) (l : List α) :
    pieces delim (a :: l) = pieces delim l := by
  have hsplit := List.splitOnP_append_cons (p := delim) [] l ha
  rw [List.nil_append] at hsplit
  rw [pieces, hsplit]
  simp [pieces]

/-- Nor do any number of them. -/
theorem pieces_dropWhile (l : List α) : pieces delim (l.dropWhile delim) = pieces delim l := by
  induction l with
  | nil => rfl
  | cons a l ih =>
    rw [List.dropWhile_cons]
    split
    · rename_i ha
      rw [ih, pieces_delim ha]
    · rfl

/-- A text without delimiters is one piece. -/
theorem pieces_single (hw : ∀ c ∈ w, delim c = false) (hne : w ≠ []) : pieces delim w = [w] := by
  rw [pieces, List.splitOnP_eq_singleton hw]
  simp [hne]

/-- The first piece ends at the first delimiter. -/
theorem pieces_cons {a : α} (hw : ∀ c ∈ w, delim c = false) (hne : w ≠ []) (ha : delim a = true)
    (l : List α) : pieces delim (w ++ a :: l) = w :: pieces delim l := by
  rw [pieces, List.splitOnP_append_cons_of_forall_mem hw a ha, List.filter_cons_of_pos]
  · rfl
  · simpa using hne

/-- A token ends at the first delimiter, which is taken with it. -/
theorem strtok_cons {a : α} (hw : ∀ c ∈ w, delim c = false) (hne : w ≠ []) (ha : delim a = true) :
    strtok delim (w ++ a :: rest) = some (w, rest) := by
  have hdrop : (w ++ a :: rest).dropWhile delim = w ++ a :: rest :=
    ((stops_of_forall hw).append hne).dropWhile
  have hnot : ∀ c ∈ w, (!delim c) = true := fun c hc => by rw [hw c hc]; rfl
  have hstop : Stops (fun c => !delim c) (a :: rest) := by simp [ha]
  simp only [strtok, hdrop, takeWhile_append_stops hnot hstop, dropWhile_append_stops hnot hstop]
  rw [if_neg (by simp), List.tail_cons]

/-- A token is the first of the pieces, and the others are behind it. -/
theorem pieces_of_strtok {t : List α × List α} (h : strtok delim l = some t) :
    pieces delim l = t.1 :: pieces delim t.2 := by
  unfold strtok at h
  have hstops := stops_dropWhile delim l
  -- leading delimiters are no part of a piece, so both sides may start behind them
  rw [← pieces_dropWhile l]
  generalize l.dropWhile delim = l at h hstops
  dsimp only at h
  split at h
  · cases h
  · rename_i hne
    obtain rfl := Option.some.inj h
    rw [List.isEmpty_iff] at hne
    have hsplit := List.takeWhile_append_dropWhile (p := fun c => !delim c) (l := l)
    have hw : ∀ c ∈ l.takeWhile fun c => !delim c, delim c = false := fun c hc => by
      simpa using List.mem_takeWhile_imp hc
    have hwne : (l.takeWhile fun c => !delim c) ≠ [] := by
      obtain ⟨c, l, rfl⟩ := List.exists_cons_of_ne_nil hne
      simp [stops_cons.mp hstops]
    -- the token ends with the text or at a delimiter, which is skipped
    cases hrest : l.dropWhile fun c => !delim c with
    | nil =>
      rw [hrest, List.append_nil] at hsplit
      conv_lhs => rw [← hsplit]
      rw [pieces_single hw hwne]
      rfl
    | cons a rest =>
      have ha : delim a = true := by
        have hstop := stops_dropWhile (fun c => !delim c) l
        rw [hrest, stops_cons] at hstop
        simpa using hstop
      rw [hrest] at hsplit
      conv_lhs => rw [← hsplit]
      rw [pieces_cons hw hwne ha]
      rfl

/-- Where there is no token, there is no piece. -/
theorem pieces_of_strtok_none (h : strtok delim l = none) : pieces delim l = [] := by
  unfold strtok at h
  dsimp only at h
  split at h
  · rename_i hempty
    rw [← pieces_dropWhile, List.isEmpty_iff.mp hempty]
    rfl
  · cases h

/-- **The tokens of a text** are its non-empty pieces. -/
theorem tokens_eq (n : ℕ) (l : List α) :
    tokens delim n l =
      if n ≤ (pieces delim l).length then some ((pieces delim l).take n) else none := by
  induction n generalizing l with
  | zero => simp [tokens]
  | succ n ih =>
    unfold tokens
    cases h : strtok delim l with
    -- no token is left, and no piece either
    | none => simp [pieces_of_strtok_none h]
    | some t =>
      rw [pieces_of_strtok h, List.length_cons]
      dsimp only
      rw [ih]
      by_cases hn : n ≤ (pieces delim t.2).length
      · rw [if_pos hn, if_pos (by omega)]
        rfl
      · rw [if_neg hn, if_neg (by omega)]
        rfl

/-- What the fields and the delimiter consist of, the joined text consists of. -/
theorem forall_mem_intercalate {P : α → Prop} {a : α} (ha : P a) {fields : List (List α)}
    (hfields : ∀ w ∈ fields, ∀ c ∈ w, P c) : ∀ c ∈ [a].intercalate fields, P c := by
  induction fields with
  | nil => simp
  | cons w fields ih =>
    have ih := ih fun w hw => hfields w (by simp [hw])
    cases fields with
    | nil =>
      rw [List.intercalate_singleton]
      exact hfields w (by simp)
    | cons w' fields =>
      intro c hc
      rw [List.intercalate_cons_cons] at hc
      rcases List.mem_append.mp hc with hc | hc
      · rcases List.mem_append.mp hc with hc | hc
        · exact hfields w (by simp) c hc
        · -- the character that joins the fields
          rw [List.mem_singleton.mp hc]
          exact ha
      · exact ih c hc

/-- What is made of the fields of a list with delimiters, where what follows the last one makes no
    difference. -/
theorem map_pieces {a : α} (ha : delim a = true) {fields : List (List α)} (hne : fields ≠ [])
    (hfields : ∀ w ∈ fields, w ≠ [] ∧ ∀ c ∈ w, delim c = false)
    (hrest : ∀ c ∈ rest, delim c = false) {f : List α → β}
    (hf : ∀ w ∈ fields, f (w ++ rest) = f w) :
    (pieces delim ([a].intercalate fields ++ rest)).map f = fields.map f := by
  induction fields with
  | nil => exact absurd rfl hne
  | cons w fields ih =>
    obtain ⟨hwne, hw⟩ := hfields w (by simp)
    cases fields with
    -- `rest` may stick to the last field, where `f` does not see it
    | nil =>
      have hlast : ∀ c ∈ w ++ rest, delim c = false := by
        intro c hc
        rcases List.mem_append.mp hc with hc | hc
        · exact hw c hc
        · exact hrest c hc
      rw [List.intercalate_singleton, pieces_single hlast (by simp [hwne])]
      simp [hf w (by simp)]
    | cons w' fields =>
      have hjoin : [a].intercalate (w :: w' :: fields) ++ rest =
          w ++ a :: ([a].intercalate (w' :: fields) ++ rest) := by
        rw [List.intercalate_cons_cons]
        simp
      rw [hjoin, pieces_cons hw hwne ha, List.map_cons, List.map_cons,
        ih (by simp) (fun w hw => hfields w (by simp [hw])) fun w hw => hf w (by simp [hw])]

/-! ### Lines -/

/-- `fgets`: at most `size - 1` characters, up to the first newline. -/
def fgets (newline : α → Bool) (size : ℕ) (l : List α) : Option (List α × List α) :=
  if l.isEmpty then none
  else
    let n := min (size - 1) ((l.takeWhile fun c => !newline c).length + 1)
    some (l.take n, l.drop n)

/-- What a loop over `fgets` finds, in at most `n` rounds. -/
def fgetsAll (newline : α → Bool) (size : ℕ) : ℕ → List α → List (List α)
  | 0, _ => []
  | n + 1, l =>
    match fgets newline size l with
    | none => []
    | some (line, rest) => line :: fgetsAll newline size n rest

variable {newline : α → Bool} {size : ℕ} {a : α}

/-- A line that fits is read with its newline. -/
theorem fgets_line (hl : ∀ c ∈ l, newline c = false) (ha : newline a = true)
    (hsize : l.length + 2 ≤ size) (rest : List α) :
    fgets newline size (l ++ a :: rest) = some (l ++ [a], rest) := by
  have htake : (l ++ a :: rest).takeWhile (fun c => !newline c) = l :=
    takeWhile_append_stops (fun c hc => by rw [hl c hc]; rfl) (by simp [ha])
  have hmin : min (size - 1) (l.length + 1) = (l ++ [a]).length := by
    rw [List.length_append, List.length_singleton]
    omega
  have happend : l ++ a :: rest = (l ++ [a]) ++ rest := by simp
  unfold fgets
  rw [if_neg (by simp), htake]
  dsimp only
  rw [hmin, happend, List.take_left, List.drop_left]

/-- The last line, which has no newline. -/
theorem fgets_last (hl : ∀ c ∈ l, newline c = false) (hne : l ≠ []) (hsize : l.length < size) :
    fgets newline size l = some (l, []) := by
  have htake : l.takeWhile (fun c => !newline c) = l :=
    List.takeWhile_eq_self_iff.mpr fun c hc => by rw [hl c hc]; rfl
  have hlength : l.length ≤ min (size - 1) (l.length + 1) := by omega
  unfold fgets
  rw [if_neg (by simpa using hne), htake]
  dsimp only
  rw [List.take_of_length_le hlength, List.drop_of_length_le hlength]

/-- A text has no more lines than characters. -/
theorem length_le_lines (ls : List (List α)) (a : α) :
    ls.length ≤ (ls.flatMap (· ++ [a])).length := by
  induction ls with
  | nil => rfl
  | cons l ls ih =>
    rw [List.flatMap_cons, List.length_append, List.length_append, List.length_cons,
      List.length_singleton]
    omega

/-- **A loop over short lines** finds the lines; the last one may lack its newline. -/
theorem fgetsAll_lines (ha : newline a = true) {ls : List (List α)} {last : List α}
    (hls : ∀ l ∈ ls, (∀ c ∈ l, newline c = false) ∧ l.length + 2 ≤ size)
    (hlast : ∀ c ∈ last, newline c = false) (hsize : last.length < size) {n : ℕ}
    (hn : ls.length + 1 < n) :
    fgetsAll newline size n (ls.flatMap (· ++ [a]) ++ last) =
      ls.map (· ++ [a]) ++ if last.isEmpty then [] else [last] := by
  induction ls generalizing n with
  | nil =>
    obtain ⟨n, rfl⟩ : ∃ m, n = m + 2 := ⟨n - 2, by simp at hn; omega⟩
    by_cases hne : last = []
    · rw [hne]
      rfl
    · -- the last line has no newline and is read all the same
      have hend : fgetsAll newline size (n + 1) [] = [] := rfl
      rw [List.flatMap_nil, List.nil_append, fgetsAll, fgets_last hlast hne hsize]
      dsimp only
      rw [hend, if_neg (by simpa using hne)]
      rfl
  | cons l ls ih =>
    obtain ⟨n, rfl⟩ : ∃ m, n = m + 1 := ⟨n - 1, by simp at hn; omega⟩
    -- one call of `fgets` takes one line with its newline
    obtain ⟨hl, hline⟩ := hls l (by simp)
    have hcons : (l :: ls).flatMap (· ++ [a]) ++ last =
        l ++ a :: (ls.flatMap (· ++ [a]) ++ last) := by simp
    rw [hcons]
    unfold fgetsAll
    rw [fgets_line hl ha hline]
    dsimp only
    rw [ih (fun l hl => hls l (by simp [hl])) (by simpa using hn), List.map_cons]
    rfl

end SystemProgramming.Scanner
