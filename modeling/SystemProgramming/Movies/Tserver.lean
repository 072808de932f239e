import Mathlib.Data.Fin.Basic
import SystemProgramming.Movies.Merge

namespace SystemProgramming.Movies

open Program

/-!
# Movie recommendation — the thread build

What `tserver` does between reading its input and its end: `cal`, the chunk threads, the merge
threads with their levels, and `wr`.  All threads of a phase are started and then joined; the
threads of one phase are tasks that are executed in some order, which is an input of the model
(`Orders`).  Of a merge thread only the `truemerge` threads it starts touch the arrays: it starts a
level when the level before is joined, and the merge threads of different requests run side by
side.
-/

variable {α : Type} [Score α]

/-- `NUM_OF_GENRE` -/
def numOfGenre : ℕ := 19

/-- What the server uses of a `movie_profile`. -/
structure MovieProfile (α : Type) where
  title : CString
  profile : Fin numOfGenre → α

/-- What the server uses of a `request`. -/
structure Request (α : Type) where
  keywords : CString
  profile : Fin numOfGenre → α

/-- The keyword `*`. -/
def star : CString := [42]

/-- The test of `cal`: the keyword is `*`, or occurs in the title. -/
def Request.selects (r : Request α) (m : MovieProfile α) : Bool :=
  strcmp r.keywords star = .eq || (strstr m.title r.keywords).isSome

/-- The score that `cal` computes. -/
def Request.rate (r : Request α) (m : MovieProfile α) : α :=
  (List.finRange numOfGenre).foldl (fun sum j => sum + r.profile j * m.profile j) 0

/-- The thresholds of `cal`: the number of chunks for `cnt` matching titles. -/
def baseOf (cnt : ℕ) : ℕ :=
  if cnt > 60000 then 32
  else if cnt > 30000 then 16
  else if cnt > 10000 then 8
  else if cnt > 5000 then 4
  else if cnt > 2000 then 2
  else 1

/-- One iteration of the loop of `cal`; the length of the arrays is the variable `cntt`. -/
def calStep (r : Request α) (arrays : List CString × List α) (m : MovieProfile α) :
    List CString × List α :=
  if r.selects m then (arrays.1 ++ [m.title], arrays.2 ++ [r.rate m]) else arrays

/-- `cal(arg)` -/
def cal (movies : List (MovieProfile α)) (r : Request α) : Data α :=
  let arrays := movies.foldl (calStep r) ([], [])
  let cnt := arrays.1.length
  { moviename := arrays.1
    moviescore := arrays.2
    cnt := cnt
    base := baseOf cnt
    size := cnt / baseOf cnt
    left := cnt % baseOf cnt }

/-- `sorting(arg)` for chunk `cnt` -/
def sorting (numOfMovies : ℕ) (d : Data α) (cnt : ℕ) : Except Fault (Data α) := do
  let size := d.size
  let arrays ←
    if cnt + 1 = d.base then
      sort numOfMovies d.moviename d.moviescore (size * cnt) (size + d.cnt % d.base)
    else
      sort numOfMovies d.moviename d.moviescore (size * cnt) size
  .ok { d with moviename := arrays.1, moviescore := arrays.2 }

/-- The levels of `merge(arg)`: the tasks it starts in each iteration of `while (base > 1)`. -/
def mergeLevels (size base count : ℕ) : List (List Send) :=
  if base > 1 then
    ((List.range (base / 2)).map fun i => ⟨i + 1, count * size, base / 2⟩) ::
      mergeLevels size (base / 2) (count * 2)
  else
    []
termination_by base

/-- `order` executes the levels one after the other, the tasks of each level in any order. -/
def InLevels (levels : List (List Send)) (order : List Send) : Prop :=
  ∃ parts, List.Forall₂ List.Perm parts levels ∧ order = parts.flatten

/-- `wr(arg)`: the lines written to the file of the request. -/
def wr (d : Data α) : Except Fault (List CString) :=
  (List.range d.cnt).mapM (loadAt d.moviename)

/-- The orders in which the tasks of the phases are executed; a task is named by its request and
    what it does for it. -/
structure Orders where
  cals : List ℕ
  sorts : List (ℕ × ℕ)
  merges : List (ℕ × Send)

variable (movies : List (MovieProfile α)) (reqs : List (Request α))

/-- The tasks of one phase of each request, as its threads start and join them. -/
structure Orders.Valid (o : Orders) : Prop where
  cals : o.cals.Perm (List.range reqs.length)
  sorts : ∀ e ∈ o.sorts, e.1 < reqs.length
  sortsAt : ∀ n r, reqs[n]? = some r → (eventsAt n o.sorts).Perm (List.range (cal movies r).base)
  merges : ∀ e ∈ o.merges, e.1 < reqs.length
  mergesAt : ∀ n r, reqs[n]? = some r →
    InLevels (mergeLevels (cal movies r).size (cal movies r).base 1) (eventsAt n o.merges)

/-- The zero-initialised `d[n]`. -/
def Data.empty : Data α := ⟨[], [], 0, 0, 0, 0⟩

/-- The phase of the `cal` threads. -/
def calPhase (d : ℕ → Data α) (n : ℕ) : Except Fault (ℕ → Data α) := do
  let r ← loadAt reqs n
  .ok (Function.update d n (cal movies r))

/-- `main` of the thread build: what is written for each request. -/
def tserver (o : Orders) : Except Fault (List (List CString)) := do
  let d ← o.cals.foldlM (calPhase movies reqs) fun _ => .empty
  let d ← o.sorts.foldlM (execAt fun _ => sorting movies.length) d
  let d ← o.merges.foldlM (execAt fun _ => truemerge) d
  (List.range reqs.length).mapM fun n => wr (d n)

end SystemProgramming.Movies
