import SystemProgramming.Movies.Tserver

namespace SystemProgramming.Movies

open Program

/-!
# Movie recommendation — the process build

What `pserver` does with its first request after `cal`: it copies the arrays into shared memory and
then goes through levels of forked children, first one that sorts the chunks, then levels that merge
neighbouring runs.  The children of a level are forked and then waited for; they are tasks that are
executed in some order.
-/

variable {α : Type} [Score α]

/-- `strcpy(name[p], s); score[p] = pts;` where `name[p]` is a mapping of `MAX_LEN` bytes. -/
def copyPair (arrays : List CString × List α) (p : ℕ) (s : CString) (pts : α) :
    Except Fault (List CString × List α) :=
  if s.length < 0xff then storePair arrays p s pts else .error .index

/-- One iteration of a loop that copies private arrays back to `first` and after. -/
def copyBack (sub : List CString) (pts : List α) (first : ℕ) (arrays : List CString × List α)
    (j : ℕ) : Except Fault (List CString × List α) := do
  let name ← loadAt sub j
  let score ← loadAt pts j
  copyPair arrays (first + j) name score

/-- Child `i` of the first level: it sorts a private copy of its chunk and copies it back. -/
def sortChild (numOfMovies : ℕ) (d : Data α) (size : ℕ) (arrays : List CString × List α) (i : ℕ) :
    Except Fault (List CString × List α) := do
  let start := size * i
  let size := if i + 1 = d.base then size + d.left else size
  let sub ← (List.range size).mapM fun j => loadAt arrays.1 (start + j)
  let pts ← (List.range size).mapM fun j => loadAt arrays.2 (start + j)
  let (sub, pts) ← sort numOfMovies sub pts 0 size
  forRange size (copyBack sub pts start) arrays

/-- One iteration of the loop of a merging child over the rest of the left run, at `j = l + k`: the
    name is that of `j`, the score that of `l`. -/
def appendLeft (arrays : List CString × List α) (room l : ℕ) (m : Merging α) (k : ℕ) :
    Except Fault (Merging α) := do
  let name ← loadAt arrays.1 (l + k)
  let score ← loadAt arrays.2 l
  m.push room name score

/-- Child `i` of a later level with `base` children, where runs of length `size / 2` are merged. -/
def mergeChild (d : Data α) (base size : ℕ) (arrays : List CString × List α) (i : ℕ) :
    Except Fault (List CString × List α) := do
  let l := size * i
  let mid := l + size / 2
  let r := l + size / 2
  let room := size + d.left
  let stop := if i + 1 = base then size * (i + 1) + d.left else size * (i + 1)
  let m ← mergeLoop arrays.1 arrays.2 room mid stop ((mid - l) + (stop - r) + 1) ⟨l, r, [], []⟩
  let m ← forRange (mid - m.l) (appendLeft arrays room m.l) m
  forRange m.newname.length (copyBack m.newname m.newscore l) arrays

/-- The child that `main` forks as number `i` of a level. -/
def child (numOfMovies : ℕ) (d : Data α) (base size : ℕ) (arrays : List CString × List α) (i : ℕ) :
    Except Fault (List CString × List α) :=
  if d.base = base then sortChild numOfMovies d size arrays i else mergeChild d base size arrays i

/-- `while (base >= 1)`: in each iteration `base` children run, in the order that is given for the
    level, then `base` is halved and `size` doubled. -/
def forkLevels (numOfMovies : ℕ) (d : Data α) :
    List (List ℕ) → ℕ → ℕ → List CString × List α → Except Fault (List CString × List α)
  | [], base, _, arrays => if base ≥ 1 then .error .fuel else .ok arrays
  | order :: orders, base, size, arrays =>
    if base ≥ 1 then
      (order.foldlM (child numOfMovies d base size) arrays).bind
        (forkLevels numOfMovies d orders (base / 2) (size * 2))
    else
      .ok arrays

/-- The children of each level. -/
def forkTasks (base : ℕ) : List (List ℕ) :=
  if base ≥ 1 then List.range base :: forkTasks (base / 2) else []
termination_by base

/-- `main` of the process build, for the first request `r`: the lines it writes. -/
def pserver (movies : List (MovieProfile α)) (r : Request α) (orders : List (List ℕ)) :
    Except Fault (List CString) := do
  let d := cal movies r
  let arrays ← forkLevels movies.length d orders d.base d.size (d.moviename, d.moviescore)
  (List.range d.cnt).mapM (loadAt arrays.1)

/-- The children of each level run in some order, the levels one after the other. -/
def ForkOrders (movies : List (MovieProfile α)) (r : Request α) (orders : List (List ℕ)) : Prop :=
  List.Forall₂ List.Perm orders (forkTasks (cal movies r).base)

end SystemProgramming.Movies
