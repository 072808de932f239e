import SystemProgramming.Movies.Input
import SystemProgramming.Movies.PlainSort

namespace SystemProgramming.Movies

open Scanner Stdio Program
open CMath (strtod)
open Booking (isSpace isDigit digitsValue strtol ascii)

/-!
# Movie recommendation — the input files

How the dataset and the requests may be written, and what the server makes of them.

* `Profile` / `MovieLine` / `RequestText` — a profile, a movie and a request as they may be written;
* `readMovie_line` / `readRequest_text` — each is read as it is meant if its profile has
  `NUM_OF_GENRE` numbers, and stops the server if it has fewer;
* `input_files` — so the server reads all of the two texts or stops, and what `tserver` writes for
  them is a plain sort of the movies in the dataset.
-/

variable {α : Type} [Score α] [Div α] [CMath α]

/-! ### Profiles -/

/-- The numbers of a profile, with commas between them. -/
structure Profile where
  numbers : List CString
  ne_nil : numbers ≠ []
  number : ∀ w ∈ numbers, w ≠ [] ∧ ∀ c ∈ w, isNumeric c = true

/-- The numbers with commas between them. -/
def Profile.text (p : Profile) : CString := [44].intercalate p.numbers

/-- There are enough numbers; the others are ignored. -/
def Profile.Enough (p : Profile) : Prop := numOfGenre ≤ p.numbers.length

instance (p : Profile) : Decidable p.Enough := inferInstanceAs (Decidable (_ ≤ _))

/-- The profile that is meant. -/
def Profile.values (p : Profile) : Fin numOfGenre → α :=
  normalize fun i => strtod (p.numbers.getD i [])

variable {p : Profile} {c : UInt8} {rest : CString}

/-- The characters of numbers are no blanks, commas or terminators. -/
theorem numeric_spec (h : isNumeric c = true) :
    isSpace c = false ∧ isComma c = false ∧ c ≠ 0 := by
  obtain ⟨⟨f⟩⟩ := c
  revert f
  decide +kernel

/-- The characters of a profile. -/
theorem Profile.mem_text (hc : c ∈ p.text) : isComma c = true ∨ isNumeric c = true := by
  have hall : ∀ c ∈ p.text, isComma c = true ∨ isNumeric c = true :=
    forall_mem_intercalate (.inl rfl) fun w hw d hd => .inr ((p.number w hw).2 d hd)
  exact hall c hc

/-- **A profile** is read if it has enough numbers, whatever is behind it. -/
theorem readProfile_text (hcomma : ∀ c ∈ rest, isComma c = false) (hrest : Stops isNumeric rest) :
    readProfile (p.text ++ rest) = if p.Enough then .ok (p.values (α := α)) else .error .null := by
  -- the brace behind the profile sticks to the last number, where `strtod` stops
  have hmap : (pieces isComma (p.text ++ rest)).map (strtod (α := α)) = p.numbers.map strtod := by
    refine map_pieces rfl p.ne_nil (fun w hw => ⟨(p.number w hw).1, fun c hc => ?_⟩) hcomma ?_
    · exact (numeric_spec ((p.number w hw).2 c hc)).2.1
    · exact fun w hw => CMath.strtod_append (p.number w hw).1 (p.number w hw).2 hrest
  have hlength : (pieces isComma (p.text ++ rest)).length = p.numbers.length := by
    simpa using congrArg List.length hmap
  unfold readProfile
  rw [tokens_eq, hlength]
  -- with too few numbers `strtok` returns NULL and `strtod` is called on it
  by_cases henough : numOfGenre ≤ p.numbers.length
  · rw [if_pos henough, if_pos (show p.Enough from henough)]
    refine congrArg (fun profile => Except.ok (normalize profile)) (funext fun i => ?_)
    have hi : i.val < p.numbers.length := i.isLt.trans_le henough
    have hget := congrArg (fun l => l[i.val]?) hmap
    rw [List.getElem?_map, List.getElem?_map, List.getElem?_eq_getElem hi,
      List.getElem?_eq_getElem (hlength ▸ hi)] at hget
    rw [List.getD_eq_getElem?_getD, List.getD_eq_getElem?_getD, List.getElem?_take_of_lt i.isLt,
      List.getElem?_eq_getElem hi, List.getElem?_eq_getElem (hlength ▸ hi)]
    exact Option.some.inj hget
  · rw [if_neg henough, if_neg (show ¬ p.Enough from henough)]

/-! ### Movies -/

/-- A line of the dataset, without its newline. -/
structure MovieLine where
  movieId : ℤ
  id : List UInt8
  id_numeral : Numeral id movieId
  title : CString
  title_ok : ∀ c ∈ title, c ≠ 0 ∧ c ≠ 10 ∧ c ≠ 123
  profile : Profile

/-- `id title {n₁,…,nₖ}` -/
def MovieLine.text (m : MovieLine) : List UInt8 :=
  m.id ++ 32 :: ((m.title ++ [32]) ++ 123 :: (m.profile.text ++ [125]))

/-- The movie that is meant. -/
def MovieLine.entry (m : MovieLine) : MovieEntry α :=
  { title := m.title, profile := m.profile.values, movieId := m.movieId }

variable {m : MovieLine}

/-- A buffer without a terminator is a string as it is. -/
theorem cString_eq {buf : List UInt8} (h : ∀ c ∈ buf, c ≠ 0) : cString buf = buf :=
  List.takeWhile_eq_self_iff.mpr fun c hc => by simpa using h c hc

/-- The characters of a line. -/
theorem MovieLine.mem_text (hc : c ∈ m.text) : c ≠ 0 ∧ c ≠ 10 := by
  simp only [text, List.mem_append, List.mem_cons, List.not_mem_nil, or_false] at hc
  rcases hc with hc | rfl | (hc | rfl) | rfl | hc | rfl
  · constructor <;> rintro rfl <;> exact absurd (m.id_numeral.mem hc) (by decide)
  · decide
  · exact ⟨(m.title_ok c hc).1, (m.title_ok c hc).2.1⟩
  · decide
  · decide
  · constructor <;> rintro rfl <;> exact absurd (Profile.mem_text hc) (by decide)
  · decide

/-- `strtok` on a field that a delimiter ends. -/
theorem token_eq {delim : UInt8 → Bool} {w : CString} {a : UInt8}
    (hw : ∀ c ∈ w, delim c = false) (hne : w ≠ []) (ha : delim a = true) :
    token delim (w ++ a :: rest) = .ok (w, rest) := by
  rw [token, strtok_cons hw hne ha]

/-- **A line of the dataset** is read as it is meant, if its profile has enough numbers. -/
theorem readMovie_line {e : List UInt8} (he : e = [] ∨ e = [10]) :
    readMovie (cString (m.text ++ e)) =
      if m.profile.Enough then .ok (m.entry (α := α)) else .error .null := by
  -- `strtok` cuts at the blank, at the opening brace and at the closing one
  have hstring : cString (m.text ++ e) = m.id ++ 32 :: ((m.title ++ [32]) ++
      123 :: (m.profile.text ++ 125 :: e)) := by
    rw [cString_eq]
    · simp [MovieLine.text]
    · intro c hc
      rcases List.mem_append.mp hc with hc | hc
      · exact (MovieLine.mem_text hc).1
      · rcases he with rfl | rfl
        · cases hc
        · rw [List.mem_singleton.mp hc]
          decide
  have hid : ∀ c ∈ m.id, (c == 32) = false := by
    intro c hc
    rw [beq_eq_false_iff_ne]
    rintro rfl
    exact absurd (m.id_numeral.mem hc) (by decide)
  -- the title ends with the blank in front of the brace, which the code removes
  have htitle : ∀ c ∈ m.title ++ [32], (c == 123) = false := by
    intro c hc
    rw [beq_eq_false_iff_ne]
    rcases List.mem_append.mp hc with hc | hc
    · exact (m.title_ok c hc).2.2
    · rw [List.mem_singleton.mp hc]
      decide
  have hprofile : readProfile (m.profile.text ++ 125 :: e) =
      if m.profile.Enough then .ok (m.profile.values (α := α)) else .error .null := by
    apply readProfile_text
    · rcases he with rfl | rfl <;> simp [isComma]
    · exact stops_cons.mpr (by decide)
  rw [hstring, readMovie, token_eq hid m.id_numeral.ne_nil rfl]
  show (token _ _).bind _ = _
  rw [token_eq htitle (by simp) rfl]
  show (readProfile _).bind _ = _
  rw [hprofile]
  by_cases henough : m.profile.Enough
  · rw [if_pos henough, if_pos henough]
    show Except.ok _ = _
    rw [List.dropLast_concat, m.id_numeral.atoi]
    rfl
  · rw [if_neg henough, if_neg henough]
    rfl

/-! ### The dataset -/

/-- A dataset: a first line that is skipped, and short lines; the last one may lack its newline. -/
structure Dataset where
  header : List UInt8
  header_ok : (∀ c ∈ header, c ≠ 10) ∧ header.length + 2 ≤ maxLen
  lines : List MovieLine
  last : Option MovieLine
  short : ∀ m ∈ lines ++ last.toList, m.text.length + 2 ≤ maxLen

namespace Dataset

/-- The bytes of the file. -/
def text (d : Dataset) : List UInt8 :=
  (d.header :: d.lines.map MovieLine.text).flatMap (· ++ [10]) ++ d.last.elim [] MovieLine.text

/-- All movies, the last of which may lack its newline. -/
def movies (d : Dataset) : List MovieLine := d.lines ++ d.last.toList

end Dataset

variable {d : Dataset}

/-- What `fgets` finds of a line. -/
def IsChunk (chunk : List UInt8) (m : MovieLine) : Prop :=
  ∃ e, (e = [] ∨ e = [10]) ∧ chunk = m.text ++ e

/-- `fgets` finds the lines of a dataset. -/
theorem fgetsAll_dataset (d : Dataset) : ∃ chunks,
    fgetsAll (· == 10) maxLen (d.text.length + 2) d.text = (d.header ++ [10]) :: chunks ∧
      List.Forall₂ IsChunk chunks d.movies := by
  -- every line is short enough for one call of `fgets`
  have hline (m : MovieLine) (hm : m ∈ d.lines ++ d.last.toList) :
      (∀ c ∈ m.text, (c == 10) = false) ∧ m.text.length + 2 ≤ maxLen :=
    ⟨fun c hc => beq_eq_false_iff_ne.mpr (MovieLine.mem_text hc).2, d.short m hm⟩
  have hheader : (∀ c ∈ d.header, (c == 10) = false) ∧ d.header.length + 2 ≤ maxLen :=
    ⟨fun c hc => beq_eq_false_iff_ne.mpr (d.header_ok.1 c hc), d.header_ok.2⟩
  have hlines : ∀ l ∈ d.header :: d.lines.map MovieLine.text,
      (∀ c ∈ l, (c == 10) = false) ∧ l.length + 2 ≤ maxLen := by
    refine List.forall_mem_cons.mpr ⟨hheader, fun l hl => ?_⟩
    obtain ⟨m, hm, rfl⟩ := List.mem_map.mp hl
    exact hline m (by simp [hm])
  have hlast : (∀ c ∈ d.last.elim [] MovieLine.text, (c == 10) = false) ∧
      (d.last.elim [] MovieLine.text).length < maxLen := by
    cases hlast : d.last with
    | none => exact ⟨by simp, by decide⟩
    | some m =>
      obtain ⟨hm, hlength⟩ := hline m (by simp [hlast])
      exact ⟨hm, by simp only [Option.elim_some]; omega⟩
  -- each line takes at least its newline of the text, so there are calls enough
  have hfuel : (d.header :: d.lines.map MovieLine.text).length + 1 < d.text.length + 2 := by
    have hle := length_le_lines (d.header :: d.lines.map MovieLine.text) 10
    rw [Dataset.text, List.length_append]
    omega
  refine ⟨_, fgetsAll_lines rfl hlines hlast.1 hlast.2 hfuel, List.rel_append ?_ ?_⟩
  · rw [List.map_map, List.forall₂_map_left_iff, List.forall₂_same]
    exact fun m _ => ⟨[10], .inr rfl, rfl⟩
  · -- the last line may come without a newline
    cases d.last with
    | none => exact .nil
    | some m =>
      have hne : m.text ≠ [] := by simp [MovieLine.text]
      rw [Option.elim_some, if_neg (by simpa using hne)]
      exact .cons ⟨[], .inl rfl, (List.append_nil _).symm⟩ .nil

/-- **The loop over the lines** reads all movies, if there are not too many and each has enough
    numbers; otherwise the server stops. -/
theorem readMovies_chunks {chunks : List (List UInt8)} {movies : List MovieLine}
    (h : List.Forall₂ IsChunk chunks movies) {cnt : ℕ} (hcnt : cnt ≤ maxMovies)
    (ms : List (MovieEntry α)) :
    readMovies cnt chunks = .ok ms ↔
      (cnt + movies.length ≤ maxMovies ∧ ∀ m ∈ movies, m.profile.Enough) ∧
        ms = movies.map MovieLine.entry := by
  -- the induction follows the lines; the counter says how many movies there are so far
  induction h generalizing cnt ms with
  | nil =>
    rw [readMovies, Except.ok.injEq]
    simp [hcnt, eq_comm]
  | @cons chunk m chunks movies hchunk h ih =>
    obtain ⟨e, he, rfl⟩ := hchunk
    rw [List.length_cons, List.forall_mem_cons, readMovies]
    -- the table holds `maxMovies` entries, and the next one does not fit
    by_cases hlt : cnt < maxMovies
    · rw [if_pos hlt, readMovie_line he]
      by_cases henough : m.profile.Enough
      · rw [if_pos henough]
        show (readMovies (cnt + 1) chunks).bind _ = _ ↔ _
        have ih := @ih (cnt + 1) (by omega)
        constructor
        · intro hok
          obtain ⟨rest, hrest, heq⟩ := bind_eq_ok hok
          obtain ⟨⟨hcount, hall⟩, rfl⟩ := (ih rest).mp hrest
          cases heq
          exact ⟨⟨by omega, henough, hall⟩, rfl⟩
        · rintro ⟨⟨hcount, -, hall⟩, rfl⟩
          rw [(ih _).mpr ⟨⟨by omega, hall⟩, rfl⟩]
          rfl
      · rw [if_neg henough]
        exact iff_of_false (by rintro ⟨⟩) fun hall => henough hall.1.2.1
    · rw [if_neg hlt]
      exact iff_of_false (by rintro ⟨⟩) fun hall => hlt (by omega)

/-! ### The requests -/

/-- A request: three fields with blanks before them. -/
structure RequestText where
  start : Blanks
  start_ne : start.val ≠ []
  id : ℤ
  idText : List UInt8
  id_numeral : Numeral idText id
  afterId : Blanks
  afterId_ne : afterId.val ≠ []
  keywords : CString
  keywords_ne : keywords ≠ []
  keywords_ok : ∀ c ∈ keywords, isSpace c = false ∧ c ≠ 0
  keywords_short : keywords.length ≤ 254
  afterKeywords : Blanks
  afterKeywords_ne : afterKeywords.val ≠ []
  profile : Profile
  profile_short : profile.text.length ≤ 254

/-- The bytes of a request. -/
def RequestText.text (r : RequestText) : List UInt8 :=
  r.start.val ++ (r.idText ++ (r.afterId.val ++ (r.keywords ++
    (r.afterKeywords.val ++ r.profile.text))))

/-- The request that is meant. -/
def RequestText.entry (r : RequestText) : RequestEntry α :=
  { keywords := r.keywords, profile := r.profile.values, id := r.id }

variable {r : RequestText} {v : Fields}

/-- A profile is not empty. -/
theorem Profile.text_ne_nil (p : Profile) : p.text ≠ [] := by
  obtain ⟨w, numbers, hnumbers⟩ := List.exists_cons_of_ne_nil p.ne_nil
  have hw : w ≠ [] := (p.number w (by simp [hnumbers])).1
  rw [Profile.text, hnumbers]
  cases numbers with
  | nil => rwa [List.intercalate_singleton]
  | cons w' numbers => simp [List.intercalate_cons_cons]

/-- `%s` takes a profile as a whole. -/
theorem Profile.mem_spec (hc : c ∈ p.text) : isSpace c = false ∧ c ≠ 0 := by
  rcases p.mem_text hc with h | h
  · rw [isComma, beq_iff_eq] at h
    rw [h]
    decide
  · exact ⟨(numeric_spec h).1, (numeric_spec h).2.2⟩

/-- The format takes the three fields. -/
theorem scan_request (hrest : Stops (fun c => !isSpace c) rest) :
    scan requestFormat (r.text ++ rest, v) = (rest, ⟨r.id, r.keywords, r.profile.text⟩) := by
  have hkeywords : Stops isSpace r.keywords := stops_of_forall fun c hc => (r.keywords_ok c hc).1
  have hprofile : Stops isSpace r.profile.text :=
    stops_of_forall fun c hc => (Profile.mem_spec hc).1
  simp only [RequestText.text, requestFormat, List.append_assoc]
  rw [scan_unsigned _ r.start.property r.id_numeral (r.afterId.stops r.afterId_ne).1,
    scan_white r.afterId.property (hkeywords.append r.keywords_ne),
    scan_word _ _ r.keywords_ne (fun c hc => (r.keywords_ok c hc).1)
      (by simpa using r.keywords_short) (r.afterKeywords.stops r.afterKeywords_ne).2,
    scan_white r.afterKeywords.property (hprofile.append r.profile.text_ne_nil),
    scan_word _ _ r.profile.text_ne_nil (fun c hc => (Profile.mem_spec hc).1)
      (by simpa using r.profile_short) hrest]
  rfl

/-- **A request** is read as it is meant, if its profile has enough numbers. -/
theorem readRequest_text (hrest : Stops (fun c => !isSpace c) rest) :
    readRequest v (r.text ++ rest) =
      if r.profile.Enough then .ok (r.entry (α := α), rest) else .error .null := by
  -- a field has no NUL, so the string that is read is the field
  have hkeywords : cString r.keywords = r.keywords :=
    cString_eq fun c hc => (r.keywords_ok c hc).2
  have hprofile := @readProfile_text α _ _ _ r.profile [] (by simp) (by simp)
  rw [List.append_nil] at hprofile
  rw [readRequest, scan_request hrest]
  show (readProfile (cString r.profile.text)).bind _ = _
  rw [cString_eq fun c hc => (Profile.mem_spec hc).2, hprofile]
  by_cases henough : r.profile.Enough
  · rw [if_pos henough, if_pos henough]
    show Except.ok _ = _
    rw [hkeywords]
    rfl
  · rw [if_neg henough, if_neg henough]
    rfl

/-- The standard input: a count, the requests, and something that starts with a blank. -/
structure Requests where
  start : Blanks
  count : List UInt8
  requests : List RequestText
  count_numeral : Numeral count requests.length
  rest : List UInt8
  rest_stops : Stops (fun c => !isSpace c) rest

/-- The bytes of the standard input. -/
def Requests.text (q : Requests) : List UInt8 :=
  q.start.val ++ (q.count ++ (q.requests.flatMap RequestText.text ++ q.rest))

/-- Behind a field there is a blank, or nothing. -/
theorem stops_requests {reqs : List RequestText} (hrest : Stops (fun c => !isSpace c) rest) :
    Stops (fun c => !isSpace c) (reqs.flatMap RequestText.text ++ rest) := by
  cases reqs with
  | nil => exact hrest
  | cons r reqs =>
    rw [List.flatMap_cons, List.append_assoc, RequestText.text, List.append_assoc]
    exact (r.start.stops r.start_ne).2

/-- **The loop over the requests** reads all of them, if each has enough numbers. -/
theorem readRequests_text {reqs : List RequestText} (hrest : Stops (fun c => !isSpace c) rest)
    (v : ℕ → Fields) (rs : List (RequestEntry α)) :
    readRequests v reqs.length (reqs.flatMap RequestText.text ++ rest) = .ok rs ↔
      (∀ r ∈ reqs, r.profile.Enough) ∧ rs = reqs.map RequestText.entry := by
  -- the induction follows the requests, one call of `fscanf` for each
  induction reqs generalizing rs with
  | nil =>
    rw [List.length_nil, readRequests, Except.ok.injEq]
    simp [eq_comm]
  | cons r reqs ih =>
    rw [List.length_cons, List.forall_mem_cons, readRequests, List.flatMap_cons, List.append_assoc,
      readRequest_text (stops_requests hrest)]
    by_cases henough : r.profile.Enough
    · rw [if_pos henough]
      show (readRequests v reqs.length _).bind _ = _ ↔ _
      constructor
      · intro hok
        obtain ⟨tail, htail, heq⟩ := bind_eq_ok hok
        obtain ⟨hall, rfl⟩ := (ih tail).mp htail
        cases heq
        exact ⟨⟨henough, hall⟩, rfl⟩
      · rintro ⟨⟨-, hall⟩, rfl⟩
        rw [(ih _).mpr ⟨hall, rfl⟩]
        rfl
    · rw [if_neg henough]
      exact iff_of_false (by rintro ⟨⟩) fun hall => henough hall.1.1

/-! ### The server -/

/-- What the server needs of its input. -/
structure Readable (d : Dataset) (q : Requests) : Prop where
  movies : d.movies.length ≤ maxMovies
  requests : q.requests.length ≤ maxReq
  movie : ∀ m ∈ d.movies, m.profile.Enough
  request : ∀ r ∈ q.requests, r.profile.Enough

/-- The count of the requests. -/
theorem scan_count (q : Requests) :
    scan countFormat (q.text, 0) =
      (q.requests.flatMap RequestText.text ++ q.rest, (q.requests.length : ℤ)) := by
  rw [Requests.text, countFormat, scan_decimal _ q.start.property q.count_numeral
    (stops_digit_of_blank (stops_requests q.rest_stops))]
  rfl

/-- **The input is read** as it is meant, or the server stops. -/
theorem initializeFrom_eq_ok_iff (d : Dataset) (q : Requests) (v : ℕ → Fields)
    (input : List (MovieEntry α) × List (RequestEntry α)) :
    initializeFrom v d.text q.text = .ok input ↔
      Readable d q ∧ input = (d.movies.map MovieLine.entry, q.requests.map RequestText.entry) := by
  obtain ⟨chunks, hchunks, hmovies⟩ := fgetsAll_dataset d
  have hread := readMovies_chunks (α := α) hmovies (Nat.zero_le _)
  -- the count is stored in an unsigned number, where it fits
  have hcount : ((q.requests.length : ℤ) % 2 ^ 32).toNat = q.requests.length := by
    obtain ⟨-, -, -, -, -, -, -, hlt⟩ := q.count_numeral
    omega
  unfold initializeFrom
  rw [hchunks]
  dsimp only
  constructor
  · -- the movies are read before the requests, and each part may fail by itself
    intro h
    obtain ⟨movies, hm, h⟩ := bind_eq_ok h
    obtain ⟨⟨hlength, henough⟩, rfl⟩ := (hread movies).mp hm
    rw [scan_count] at h
    dsimp only at h
    rw [hcount] at h
    split at h
    · rename_i hreqs
      obtain ⟨reqs, hr, h⟩ := bind_eq_ok h
      obtain ⟨hall, rfl⟩ := (readRequests_text q.rest_stops v reqs).mp hr
      cases h
      exact ⟨⟨by omega, hreqs, henough, hall⟩, rfl⟩
    · cases h
  · rintro ⟨h, rfl⟩
    rw [(hread _).mpr ⟨⟨by have := h.movies; omega, h.movie⟩, rfl⟩, scan_count]
    show (if ((q.requests.length : ℤ) % 2 ^ 32).toNat ≤ maxReq then _ else _) = _
    rw [hcount, if_pos h.requests, (readRequests_text q.rest_stops v _).mpr ⟨h.request, rfl⟩]
    rfl

/-- The movies and the requests that the input files mean. -/
def Dataset.profiles (d : Dataset) : List (MovieProfile α) :=
  d.movies.map fun m => m.entry.toMovieProfile

/-- The requests that are meant. -/
def Requests.wanted (q : Requests) : List (Request α) :=
  q.requests.map fun r => r.entry.toRequest

/-- **From the input files to the output.**  The server reads all of the dataset and of the requests,
    or it stops, for too many of them or too few numbers in a profile.  When the movies and requests
    that are meant are valid, `tserver` writes for each request a plain sort of the matching movies,
    in whatever order its threads are executed. -/
theorem input_files (d : Dataset) (q : Requests) (v : ℕ → Fields) :
    (∀ input : List (MovieEntry α) × List (RequestEntry α),
      initializeFrom v d.text q.text = .ok input ↔
        Readable d q ∧
          input = (d.movies.map MovieLine.entry, q.requests.map RequestText.entry)) ∧
    (Readable d q → ValidInput (α := α) d.profiles q.wanted →
      ∃ input : List (MovieEntry α) × List (RequestEntry α),
        initializeFrom v d.text q.text = .ok input ∧
        ∀ o : Orders, o.Valid (input.1.map (·.toMovieProfile)) (input.2.map (·.toRequest)) →
          tserver (input.1.map (·.toMovieProfile)) (input.2.map (·.toRequest)) o =
            .ok (q.wanted.map (plainLines (α := α) d.profiles))) := by
  refine ⟨initializeFrom_eq_ok_iff d q v, fun hread hvalid => ?_⟩
  -- what was read is, without the ids, the table and the requests of the two files
  refine ⟨_, (initializeFrom_eq_ok_iff d q v _).mpr ⟨hread, rfl⟩, fun o ho => ?_⟩
  have hmovies : (d.movies.map MovieLine.entry).map (fun m => m.toMovieProfile) =
      d.profiles (α := α) := List.map_map ..
  have hreqs : (q.requests.map RequestText.entry).map (fun r => r.toRequest) =
      q.wanted (α := α) := List.map_map ..
  dsimp only at ho ⊢
  rw [hmovies, hreqs] at ho ⊢
  exact tserver_eq hvalid ho

/-! ### An input -/

/-- What follows the digits makes no difference to their value. -/
theorem digitsValue_append_stops (w : CString) (hrest : Stops isDigit rest) (acc : ℕ) :
    digitsValue (w ++ rest) acc = digitsValue w acc := by
  induction w generalizing acc with
  | nil =>
    cases rest with
    | nil => rfl
    | cons c rest =>
      show (if isDigit c then _ else acc) = acc
      rw [stops_cons.mp hrest]
      rfl
  | cons c w ih => rw [List.cons_append, digitsValue, digitsValue, ih]

/-- `strtol` where there is no blank in front: on its sign or its first digit. -/
theorem strtol_cons (hspace : isSpace c = false) (l : CString) :
    strtol (c :: l) =
      if c = 45 then max (-2 ^ 63) (-(digitsValue l 0 : ℤ))
      else if c = 43 then min (2 ^ 63 - 1) (digitsValue l 0 : ℤ)
      else min (2 ^ 63 - 1) (digitsValue (c :: l) 0 : ℤ) := by
  have hdrop : (c :: l).dropWhile isSpace = c :: l := (stops_cons.mpr hspace).dropWhile
  unfold strtol
  rw [hdrop]
  -- a minus sign, a plus sign or none
  split
  · rename_i cs heq
    obtain ⟨rfl, rfl⟩ := List.cons.inj heq
    rw [if_pos rfl]
  · rename_i cs heq
    obtain ⟨rfl, rfl⟩ := List.cons.inj heq
    rw [if_neg (by decide), if_pos rfl]
  · rename_i hminus hplus
    rw [if_neg fun h => hminus l (by rw [h]), if_neg fun h => hplus l (by rw [h])]

/-- Integers, as far as they have the functions of the library. -/
instance : CMath ℤ where
  strtod := strtol
  sqrt x := (Nat.sqrt x.toNat : ℤ)
  strtod_append {w rest} hne hw hrest := by
    obtain ⟨c, w, rfl⟩ := List.exists_cons_of_ne_nil hne
    have hspace : isSpace c = false := (numeric_spec (hw c (by simp))).1
    have hdigits : Stops isDigit rest := by
      intro c hc
      have hnumeric := hrest c hc
      simp only [isNumeric, Bool.or_eq_false_iff] at hnumeric
      exact hnumeric.1.1.1
    have hcons := digitsValue_append_stops (c :: w) hdigits 0
    rw [List.cons_append] at hcons ⊢
    rw [strtol_cons hspace, strtol_cons hspace, hcons, digitsValue_append_stops w hdigits]

/-- A profile of one genre. -/
def oneGenre : Profile where
  numbers := [49] :: List.replicate 18 [48]
  ne_nil := by decide
  number w hw := by
    have hw : w = [49] ∨ w = [48] := by simpa using hw
    rcases hw with rfl | rfl <;> exact ⟨by decide, List.all_eq_true.mp rfl⟩

/-- The lines `1 AB {1,0,…}` and `2 A {1,0,…}`, the second without a newline. -/
def sampleDataset : Dataset where
  header := ascii "movieId title genres"
  header_ok := by
    have hall : (ascii "movieId title genres").all (· != 10) = true := by decide
    exact ⟨fun c hc => by simpa using List.all_eq_true.mp hall c hc, by decide⟩
  lines := [⟨1, _, numeral_toString (by decide) (by decide), [65, 66], by simp, oneGenre⟩]
  last := some ⟨2, _, numeral_toString (by decide) (by decide), [65], by simp, oneGenre⟩
  short := by decide +kernel

/-- One request, for all titles. -/
def sampleRequests : Requests where
  start := ⟨[], by simp⟩
  count := _
  requests := [{
    start := ⟨[10], List.all_eq_true.mp rfl⟩
    start_ne := by decide
    id := 7
    idText := _
    id_numeral := numeral_toString (by decide) (by decide)
    afterId := .one
    afterId_ne := Blanks.one_ne_nil
    keywords := star
    keywords_ne := by decide
    keywords_ok := by simp [star, isSpace]
    keywords_short := by decide
    afterKeywords := .one
    afterKeywords_ne := Blanks.one_ne_nil
    profile := oneGenre
    profile_short := by decide }]
  count_numeral := numeral_toString (by decide) (by decide)
  rest := [10]
  rest_stops := stops_cons.mpr (by decide)

/-- A dataset of two movies and a request are read, and then sorted. -/
theorem input_files_sample : ∃ input : List (MovieEntry ℤ) × List (RequestEntry ℤ),
    initializeFrom (fun _ => ⟨0, [], []⟩) sampleDataset.text sampleRequests.text = .ok input ∧
      tserver (input.1.map (·.toMovieProfile)) (input.2.map (·.toRequest)) ⟨[0], [(0, 0)], []⟩ =
        .ok (sampleRequests.wanted.map (plainLines (α := ℤ) sampleDataset.profiles)) := by
  have hvalid : ValidInput (α := ℤ) sampleDataset.profiles sampleRequests.wanted :=
    ⟨by decide +kernel, by decide +kernel, by decide +kernel⟩
  have horders : Orders.Valid (α := ℤ) sampleDataset.profiles sampleRequests.wanted
      ⟨[0], [(0, 0)], []⟩ :=
    Orders.valid_oneChunk (by decide +kernel) (.refl _) (by decide) (by decide)
  obtain ⟨hread, hserve⟩ := input_files (α := ℤ) sampleDataset sampleRequests fun _ => ⟨0, [], []⟩
  obtain ⟨input, hinput, hall⟩ := hserve ⟨by decide, by decide, by decide, by decide⟩ hvalid
  obtain ⟨-, rfl⟩ := (hread input).mp hinput
  exact ⟨_, hinput, hall _ horders⟩

end SystemProgramming.Movies
