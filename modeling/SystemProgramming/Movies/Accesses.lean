import SystemProgramming.Lib.ForkTasks
import SystemProgramming.Movies.Tserver

namespace SystemProgramming.Movies

open ForkJoin

/-!
# Movie recommendation — the thread build, access by access

The thread build again, with `main` and every thread as a program that reads and writes the cells
of the memory that they share, so that the accesses of all threads can be interleaved.

The array `deli` with its messages is part of that memory, and so are the fields of `d`.  A string
is one cell with the pointer to it: the cell is empty (`none`) before `malloc` and after `free`, and
to use an empty cell is a fault.  What only one thread sees (its variables, the temporaries of
`truemerge`) is a value.  What nobody writes after `initialize` (the table, the requests,
`num_of_movies`, `num_of_reqs`) is a parameter.  A loop reads its bound once, when it starts.
-/

/-- The fields of `d[n]` besides the two arrays. -/
inductive Cut
  | cnt
  | base
  | size
  | left
  deriving DecidableEq, Repr

/-- The fields of a `send`. -/
inductive Message
  | order
  | time
  | mer
  | b
  deriving DecidableEq, Repr

/-- The cells of the shared memory; `out n` is the stream that `wr` opens for request `n`. -/
inductive Cell
  | moviename (n p : ℕ)
  | moviescore (n p : ℕ)
  | data (n : ℕ) (f : Cut)
  | room (n : ℕ)
  | deli (n j : ℕ) (f : Message)
  | out (n : ℕ)
  deriving DecidableEq, Repr

/-- The request that a cell belongs to. -/
def Cell.request : Cell → ℕ
  | moviename n _ | moviescore n _ | data n _ | room n | deli n _ _ | out n => n

/-- What a cell holds; `room n` is the number of elements that `deli[n]` points to. -/
abbrev Cell.Value (α : Type) : Cell → Type
  | moviename _ _ => Option CString
  | moviescore _ _ => Option α
  | data _ _ => ℕ
  | room _ => Option ℕ
  | deli _ _ _ => Option ℕ
  | out _ => List CString

/-- The zero-initialised memory. -/
def Cell.empty {α : Type} : Memory (Cell.Value α)
  | .moviename _ _ => none
  | .moviescore _ _ => none
  | .data _ _ => 0
  | .room _ => none
  | .deli _ _ _ => none
  | .out _ => []

namespace Accesses

/-- The code of a thread of the server. -/
abbrev Run (α β : Type) := Code (Cell.Value α) Fault β

/-- A part of the server with the threads that it starts. -/
abbrev Threads (α : Type) := Proc (Cell.Value α) Fault

variable {α : Type}

/-- A value that has to be there. -/
def present {κ β : Type} {V : κ → Type} : Option β → Code V Fault β
  | some v => .done v
  | none => .stop .index

/-- `d[n].moviename[p]`, as it is read. -/
def readName (n p : ℕ) : Run α CString := .read (.moviename n p) present

/-- `d[n].moviescore[p]`, as it is read. -/
def readScore (n p : ℕ) : Run α α := .read (.moviescore n p) present

/-- `d[n].moviename[p] = s` -/
def writeName (n p : ℕ) (s : CString) : Run α Unit := .write (.moviename n p) (some s) (.done ())

/-- `d[n].moviescore[p] = pts` -/
def writeScore (n p : ℕ) (pts : α) : Run α Unit := .write (.moviescore n p) (some pts) (.done ())

/-- `free(d[n].moviename[p])` -/
def freeName (n p : ℕ) : Run α Unit := do
  let _ ← readName n p
  .write (.moviename n p) none (.done ())

/-- A field of `d[n]`, as it is read. -/
def readData (n : ℕ) (f : Cut) : Run α ℕ := .read (.data n f) .done

/-- A field of `d[n]`, as it is written. -/
def writeData (n : ℕ) (f : Cut) (v : ℕ) : Run α Unit := .write (.data n f) v (.done ())

/-- `deli[n][j].f = v` -/
def writeDeli (n j : ℕ) (f : Message) (v : ℕ) : Run α Unit :=
  .read (.room n) fun room => do
    if j < (← present room) then .write (.deli n j f) (some v) (.done ()) else .stop .index

/-- A message as the value of its fields. -/
def message (order time mer b : Option ℕ) : Message → Option ℕ
  | .order => order
  | .time => time
  | .mer => mer
  | .b => b

/-- `send temp = *(send*) arg`, for `arg = &deli[n][j]` -/
def readDeli (n j : ℕ) : Run α (Message → Option ℕ) :=
  .read (.deli n j .order) fun order =>
  .read (.deli n j .time) fun time =>
  .read (.deli n j .mer) fun mer =>
  .read (.deli n j .b) fun b =>
  .done (message order time mer b)

variable [Score α]

/-! ### `cal` -/

/-- One iteration of the loop of `cal`. -/
def calStep (n : ℕ) (r : Request α) (cntt : ℕ) (m : MovieProfile α) : Run α ℕ := do
  if r.selects m then
    writeName n cntt m.title
    writeScore n cntt (r.rate m)
    return cntt + 1
  else
    return cntt

omit [Score α] in
/-- The thresholds of `cal`. -/
def calBase (n : ℕ) : Run α Unit := do
  if (← readData n .cnt) > 60000 then writeData n .base 32
  else if (← readData n .cnt) > 30000 then writeData n .base 16
  else if (← readData n .cnt) > 10000 then writeData n .base 8
  else if (← readData n .cnt) > 5000 then writeData n .base 4
  else if (← readData n .cnt) > 2000 then writeData n .base 2
  else writeData n .base 1

/-- `cal(arg)` -/
def cal (movies : List (MovieProfile α)) (n : ℕ) (r : Request α) : Run α Unit := do
  let cntt ← movies.foldlM (calStep n r) 0
  writeData n .cnt cntt
  calBase n
  writeData n .size ((← readData n .cnt) / (← readData n .base))
  writeData n .left ((← readData n .cnt) % (← readData n .base))

/-! ### `sort`, on the arrays of request `n` from `off` on -/

/-- One iteration of `argmax`, at index `i`. -/
def argmaxStep (n off : ℕ) (c : Candidate α) (i : ℕ) : Run α (Candidate α) := do
  if (← readScore n (off + i)) > c.max then
    return ⟨i, ← readScore n (off + i)⟩
  else if (← readScore n (off + i)) = c.max then
    if strcmp (← readName n (off + c.ret)) (← readName n (off + i)) = .gt then
      return { c with ret := i }
    else
      return c
  else
    return c

/-- `argmax(src, movie, start, end)` -/
def argmax (n off start stop : ℕ) : Run α ℕ := do
  let c ← Code.forRange (stop - start) (fun c k => argmaxStep n off c (start + k))
    ⟨start, Score.minusOne⟩
  if c.max ≥ 0 then return c.ret else .stop .assertion

omit [Score α] in
/-- `swap(&movies[i], &movies[j], &pts[i], &pts[j])` -/
def swap (n i j : ℕ) : Run α Unit := do
  let m ← readName n i
  writeName n i (← readName n j)
  writeName n j m
  let p ← readScore n i
  writeScore n i (← readScore n j)
  writeScore n j p

omit [Score α] in
/-- `movies[i] = add_secret(movies[i], strlen(movies[i]));` -/
def addSecretAt (n i : ℕ) : Run α Unit := do
  let s ← readName n i
  let m ← readName n i
  if m.length < 0xff then writeName n i (s ++ secretKey) else .stop .assertion

/-- One iteration of the outer loop of `sort`. -/
def sortStep (n off size : ℕ) (_ : Unit) (i : ℕ) : Run α Unit := do
  let idx ← argmax n off i size
  if idx < size then
    swap n (off + i) (off + idx)
    addSecretAt n (off + i)
  else
    .stop .assertion

omit [Score α] in
/-- `validate(movies, pts, size)` -/
def validate (numOfMovies n off size : ℕ) : Run α Unit :=
  if size ≤ numOfMovies then
    Code.forRange size (fun _ i => do let _ ← readName n (off + i)) ()
  else
    .stop .assertion

/-- `sort(movies, pts, size)` -/
def sort (numOfMovies n off size : ℕ) : Run α Unit := do
  validate numOfMovies n off size
  Code.forRange (size - 1) (sortStep n off size) ()
  if off + size = 0 then .stop .index else addSecretAt n (off + size - 1)

/-- `sorting(arg)`, for `arg = &deli[i][j]` -/
def sorting (numOfMovies i j : ℕ) : Run α Unit := do
  let temp ← readDeli i j
  let n ← present (temp .order)
  let cnt ← present (temp .time)
  let size ← readData n .size
  if cnt + 1 = (← readData n .base) then
    sort numOfMovies n (size * cnt) (size + (← readData n .cnt) % (← readData n .base))
  else
    sort numOfMovies n (size * cnt) size

/-! ### The comparison loop of a merge -/

section Merge

variable {κ : Type} {V : κ → Type}

/-- How a program reads the title and the score at an index of its arrays. -/
structure View (V : κ → Type) (α : Type) where
  name : ℕ → Code V Fault CString
  score : ℕ → Code V Fault α

variable (view : View V α)

omit [Score α] in
/-- `newname[c] = …; newscore[c] = …; c += 1;` for the entry at `p`, in temporaries of length
    `room`: the title is read for its length and to be copied. -/
def push (room : ℕ) (m : Merging α) (p : ℕ) : Code V Fault (Merging α) := do
  let _ ← view.name p
  let s ← view.name p
  let pts ← view.score p
  if m.newname.length < room then
    return { m with newname := m.newname ++ [s], newscore := m.newscore ++ [pts] }
  else
    .stop .index

omit [Score α] in
/-- The head of the left run goes to the temporaries. -/
def takeLeft (room : ℕ) (m : Merging α) : Code V Fault (Merging α) := do
  let m' ← push view room m m.l
  return { m' with l := m.l + 1 }

omit [Score α] in
/-- The head of the right run goes to the temporaries. -/
def takeRight (room : ℕ) (m : Merging α) : Code V Fault (Merging α) := do
  let m' ← push view room m m.r
  return { m' with r := m.r + 1 }

/-- The body of the loop over both runs: the scores, and then the names, are read again for each
    test. -/
def mergeStep (room : ℕ) (m : Merging α) : Code V Fault (Merging α) := do
  if (← view.score m.l) > (← view.score m.r) then
    takeLeft view room m
  else if (← view.score m.l) < (← view.score m.r) then
    takeRight view room m
  else if strcmp (← view.name m.l) (← view.name m.r) = .lt then
    takeLeft view room m
  else
    takeRight view room m

/-- `while (l < mid && r < end)`; the fourth argument bounds the number of iterations. -/
def mergeLoop (room mid stop : ℕ) : ℕ → Merging α → Code V Fault (Merging α)
  | 0, _ => .stop .fuel
  | fuel + 1, m => do
    if m.l < mid ∧ m.r < stop then
      mergeLoop room mid stop fuel (← mergeStep view room m)
    else
      return m

end Merge

/-! ### `truemerge` -/

omit [Score α] in
/-- The arrays of request `n`. -/
def requestView (n : ℕ) : View (Cell.Value α) α := ⟨readName n, readScore n⟩

omit [Score α] in
/-- One iteration of the loop over the rest `[l, mid)` of the left run, at `j = l + k`. -/
def keepLeft (n mid stop l : ℕ) (_ : Unit) (k : ℕ) : Run α Unit := do
  freeName n (stop - (mid - (l + k)))
  let _ ← readName n (l + k)
  writeName n (stop - (mid - (l + k))) (← readName n (l + k))
  writeScore n (stop - (mid - (l + k))) (← readScore n (l + k))

omit [Score α] in
/-- One iteration of the loop that copies the temporaries back. -/
def writeBack (n : ℕ) (newname : List CString) (newscore : List α) (first : ℕ) (_ : Unit) (i : ℕ) :
    Run α Unit := do
  freeName n (first + i)
  writeName n (first + i) (← present newname[i]?)
  writeScore n (first + i) (← present newscore[i]?)

omit [Score α] in
/-- `int end = stop; if(temp.time == temp.b) end = d[n].cnt;` -/
def mergeEnd (n time b stop : ℕ) : Run α ℕ :=
  if time = b then readData n .cnt else return stop

/-- `truemerge(arg)`, for `arg = &deli[i][j]` -/
def truemerge (i j : ℕ) : Run α Unit := do
  let temp ← readDeli i j
  let n ← present (temp .order)
  let s ← present (temp .mer)
  let time ← present (temp .time)
  let b ← present (temp .b)
  let l := 2 * s * (time - 1)
  let mid := l + s
  let r := l + s
  let room := 2 * s + (← readData n .base)
  let stop ← mergeEnd n time b (r + s)
  let m ← mergeLoop (requestView n) room mid stop ((mid - l) + (stop - r) + 1) ⟨l, r, [], []⟩
  Code.forRange (mid - m.l) (keepLeft n mid stop m.l) ()
  Code.forRange m.newname.length (writeBack n m.newname m.newscore l) ()

/-- Start `truemerge` number `i` of a level. -/
def startMerge (n count b i : ℕ) (next : Threads α) : Threads α :=
  (do
    writeDeli n (i + 1) .time (i + 1)
    writeDeli n (i + 1) .mer (count * (← readData n .size))
    writeDeli n (i + 1) .b b : Run α Unit).andThen fun _ =>
  .par (truemerge n (i + 1)).run next

/-- `while (base > 1)` of `merge`: the threads of a level are joined before the next one. -/
def mergeLevelsFrom (n base count : ℕ) : Threads α :=
  if base > 1 then
    .seq (startAll (startMerge n count (base / 2)) (List.range (base / 2)) .skip)
      (mergeLevelsFrom n (base / 2) (count * 2))
  else
    .skip
termination_by base

/-- `merge(arg)` -/
def merge (n : ℕ) : Threads α :=
  (readData n .base).andThen fun base => mergeLevelsFrom n base 1

/-! ### `wr` and `main` -/

omit [Score α] in
/-- One iteration of the loop of `wr`: the line is appended to the stream. -/
def wrStep (n : ℕ) (_ : Unit) (i : ℕ) : Run α Unit := do
  let s ← readName n i
  .read (.out n) fun lines => .write (.out n) (lines ++ [s]) (.done ())
  freeName n i

omit [Score α] in
/-- `wr(arg)` -/
def wr (n : ℕ) : Run α Unit := do
  .write (.out n) [] (.done ())
  Code.forRange (← readData n .cnt) (wrStep n) ()

/-- Start `cal` for a request. -/
def startCal (movies : List (MovieProfile α)) (reqs : List (Request α)) (n : ℕ)
    (next : Threads α) : Threads α :=
  .par (match reqs[n]? with
    | some r => (cal movies n r).run
    | none => .stop .index) next

/-- Start `sorting` for chunk `j` of request `n`. -/
def startSorting (numOfMovies n j : ℕ) (next : Threads α) : Threads α :=
  (do
    writeDeli n j .order n
    writeDeli n j .time j : Run α Unit).andThen fun _ =>
  .par (sorting numOfMovies n j).run next

/-- Make room for the messages of request `n`, and start `sorting` for each of its chunks. -/
def startSorts (numOfMovies n : ℕ) (next : Threads α) : Threads α :=
  (do
    .write (.room n) (some (← readData n .base)) (.done ())
    readData n .base : Run α ℕ).andThen fun base =>
  startAll (startSorting numOfMovies n) (List.range base) next

/-- `main` of the thread build, after `initialize`: the threads of a phase are joined before the
    next phase. -/
def main (movies : List (MovieProfile α)) (reqs : List (Request α)) : Threads α :=
  let ns := List.range reqs.length
  .seq (startAll (startCal movies reqs) ns .skip) <|
  .seq (startAll (startSorts movies.length) ns .skip) <|
  .seq (startAll (fun n next => .par (merge n) next) ns .skip) <|
  startAll (fun n next => .par (wr n).run next) ns .skip

end Accesses

end SystemProgramming.Movies
