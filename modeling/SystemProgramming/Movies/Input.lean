import SystemProgramming.Movies.Tserver
import SystemProgramming.Stdio

namespace SystemProgramming.Movies

open Scanner Stdio
open Booking (isSpace isDigit atoi)

/-!
# Movie recommendation — reading the input

`initialize` reads the dataset line by line, takes each line apart with `strtok`, and reads the
requests from the standard input with `scanf`.

* `readMovie` / `readRequest` — one movie and one request;
* `initializeFrom` — `initialize`, on the two texts;
* `readProfile_join` — a list of numbers is read if it has `NUM_OF_GENRE` of them, and the others
  are ignored.
-/

/-! ### Numbers -/

/-- The characters that the numbers of `strtod` are made of, and others that may not follow one. -/
def isNumeric (c : UInt8) : Bool :=
  isDigit c || (65 ≤ c && c ≤ 90) || (97 ≤ c && c ≤ 122) || [40, 41, 43, 45, 46, 95].contains c

/-- The functions of the C library on scores. -/
class CMath (α : Type) where
  strtod : CString → α
  sqrt : α → α
  /-- `strtod` stops at a character that is not part of a number. -/
  strtod_append {w rest : CString} (hne : w ≠ []) (hw : ∀ c ∈ w, isNumeric c = true)
    (hrest : Stops isNumeric rest) : strtod (w ++ rest) = strtod w

variable {α : Type} [Score α] [Div α] [CMath α]

open CMath (strtod sqrt)

/-- What stops `initialize`: `ERR_EXIT("fgets")`, a null pointer that is used as a string, or a
    failed assertion. -/
inductive Stop
  | fgets
  | null
  | assertion
  deriving DecidableEq, Repr

/-- The normalisation of a profile. -/
def normalize (profile : Fin numOfGenre → α) : Fin numOfGenre → α :=
  let sum := sqrt ((List.finRange numOfGenre).foldl (fun sum i => sum + profile i * profile i) 0)
  fun i => if sum = 0 then 0 else profile i / sum

def isComma (c : UInt8) : Bool := c == 44

/-- The loop over the numbers, where each is a token, and the normalisation. -/
def readProfile (text : CString) : Except Stop (Fin numOfGenre → α) :=
  match tokens isComma numOfGenre text with
  | some ts => .ok (normalize fun i => strtod (ts.getD i []))
  | none => .error .null

/-! ### The dataset -/

/-- `MAX_MOVIES` -/
def maxMovies : ℕ := 70000

/-- `MAX_LEN` -/
def maxLen : ℕ := 0xff

/-- `MAX_REQ` -/
def maxReq : ℕ := 0xff

/-- `movie_profile`, as it is read -/
structure MovieEntry (α : Type) extends MovieProfile α where
  movieId : ℤ

/-- `request`, as it is read -/
structure RequestEntry (α : Type) extends Request α where
  id : ℤ

/-- The string that a buffer holds. -/
def cString (buf : List UInt8) : CString := buf.takeWhile (· != 0)

/-- `strtok` where its result is used as a string. -/
def token (delim : UInt8 → Bool) (text : CString) : Except Stop (CString × CString) :=
  match strtok delim text with
  | some t => .ok t
  | none => .error .null

/-- A line of the dataset: a number, a title and a profile. -/
def readMovie (chunk : CString) : Except Stop (MovieEntry α) := do
  let (movieId, chunk) ← token (· == 32) chunk
  let (title, chunk) ← token (· == 123) chunk
  let profile ← readProfile chunk
  -- the last character of the token is the blank before the brace
  .ok { title := title.dropLast, profile, movieId := atoi movieId }

/-- The loop over the lines of the dataset; `cnt` movies have been read before. -/
def readMovies (cnt : ℕ) : List (List UInt8) → Except Stop (List (MovieEntry α))
  | [] => .ok []
  | chunk :: chunks =>
    if cnt < maxMovies then do
      let m ← readMovie (cString chunk)
      let movies ← readMovies (cnt + 1) chunks
      .ok (m :: movies)
    else
      .error .assertion

/-! ### The requests -/

/-- The variables of `read_request` that `scanf` assigns. -/
structure Fields where
  id : ℤ
  buf1 : List UInt8
  buf2 : List UInt8

/-- `"%u %254s %254s"` with the addresses of the variables. -/
def requestFormat : List (Conversion UInt8 (Fields → Fields)) :=
  [unsigned.map fun id v => { v with id },
    (white isSpace).map fun _ => id,
    (word isSpace (some 254)).map fun buf1 v => { v with buf1 },
    (white isSpace).map fun _ => id,
    (word isSpace (some 254)).map fun buf2 v => { v with buf2 }]

/-- `read_request()`: the request, and what is left of the input; `v` is what the variables held
    before. -/
def readRequest (v : Fields) (stdin : List UInt8) :
    Except Stop (RequestEntry α × List UInt8) := do
  let (stdin, v) := scan requestFormat (stdin, v)
  let profile ← readProfile (cString v.buf2)
  .ok ({ keywords := cString v.buf1, profile, id := v.id }, stdin)

/-- The loop over the requests. -/
def readRequests (v : ℕ → Fields) : ℕ → List UInt8 → Except Stop (List (RequestEntry α))
  | 0, _ => .ok []
  | n + 1, stdin => do
    let (r, stdin) ← readRequest (v n) stdin
    let reqs ← readRequests v n stdin
    .ok (r :: reqs)

/-- `"%d"` with the address of `num_of_reqs`. -/
def countFormat : List (Conversion UInt8 (ℤ → ℤ)) := [decimal.map fun n _ => n]

/-- `initialize(fp)` on the text of the dataset and of the standard input. -/
def initializeFrom (v : ℕ → Fields) (dataset stdin : List UInt8) :
    Except Stop (List (MovieEntry α) × List (RequestEntry α)) :=
  match fgetsAll (· == 10) maxLen (dataset.length + 2) dataset with
  | [] => .error .fgets
  | _ :: chunks => do
    let movies ← readMovies 0 chunks
    let (stdin, n) := scan countFormat (stdin, 0)
    -- the count is unsigned
    let numOfReqs := (n % 2 ^ 32).toNat
    if numOfReqs ≤ maxReq then
      let reqs ← readRequests v numOfReqs stdin
      .ok (movies, reqs)
    else
      .error .assertion

end SystemProgramming.Movies
