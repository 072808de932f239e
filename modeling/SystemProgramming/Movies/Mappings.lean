import SystemProgramming.Movies.Accesses
import SystemProgramming.Movies.Pserver

namespace SystemProgramming.Movies

open ForkJoin

/-!
# Movie recommendation — the process build, access by access

The process build again, with `main` and every child as a program that reads and writes the shared
mappings, so that the accesses of all children can be interleaved.  A child has its own copy of
everything else, also of `d[0]` as it was when the child was forked: that is a value here, and so
are `sub`, `pts`, `temp` and `tmppts`.

The string in the mapping that `name[p]` points to is one cell, and `name[p]` itself is another.
-/

/-- The cells of the shared mappings, and the stream that `main` opens. -/
inductive Shared
  | pointer (p : ℕ)
  | name (p : ℕ)
  | score (p : ℕ)
  | out
  deriving DecidableEq, Repr

/-- What a cell holds: whether `name[p]` points to a mapping, the string there, a score that was
    stored, the lines. -/
abbrev Shared.Value (α : Type) : Shared → Type
  | pointer _ => Bool
  | name _ => CString
  | score _ => Option α
  | out => List CString

/-- The mappings are filled with zeros. -/
def Shared.empty {α : Type} : Memory (Shared.Value α)
  | .pointer _ => false
  | .name _ => []
  | .score _ => none
  | .out => []

namespace Mappings

/-- The code of a process of the server. -/
abbrev Run (α β : Type) := Code (Shared.Value α) Fault β

/-- A part of the server with the children that it forks. -/
abbrev Children (α : Type) := Proc (Shared.Value α) Fault

variable {α : Type}

/-- `name[p]`, through the mapped pointer. -/
def readName (p : ℕ) : Run α CString :=
  .read (.pointer p) fun mapped => if mapped then .read (.name p) .done else .stop .index

/-- `score[p]` -/
def readScore (p : ℕ) : Run α α := .read (.score p) Accesses.present

/-- `strcpy(name[p], s)`, into a mapping of `MAX_LEN` bytes. -/
def writeName (p : ℕ) (s : CString) : Run α Unit :=
  .read (.pointer p) fun mapped =>
    if mapped ∧ s.length < 0xff then .write (.name p) s (.done ()) else .stop .index

/-- `score[p] = pts` -/
def writeScore (p : ℕ) (pts : α) : Run α Unit := .write (.score p) (some pts) (.done ())

/-- The shared arrays. -/
def view : Accesses.View (Shared.Value α) α := ⟨readName, readScore⟩

/-- What a process does with its own memory. -/
def own {β : Type} : Except Fault β → Run α β
  | .ok b => .done b
  | .error e => .stop e

/-! ### The children -/

/-- One iteration of the loop that copies a chunk to `sub` and `pts`: the title is read for its
    length and to be copied. -/
def copyOut (start : ℕ) (arrays : List CString × List α) (j : ℕ) :
    Run α (List CString × List α) := do
  let _ ← readName (start + j)
  let s ← readName (start + j)
  let pts ← readScore (start + j)
  return (arrays.1 ++ [s], arrays.2 ++ [pts])

/-- One iteration of a loop that copies private arrays back to `first` and after. -/
def copyBack (sub : List CString) (pts : List α) (first : ℕ) (_ : Unit) (j : ℕ) : Run α Unit := do
  writeName (first + j) (← Accesses.present sub[j]?)
  writeScore (first + j) (← Accesses.present pts[j]?)

/-- One iteration of the loop of a merging child over the rest of the left run, at `j = l + k`: the
    name is that of `j`, the score that of `l`. -/
def appendLeft (room l : ℕ) (m : Merging α) (k : ℕ) : Run α (Merging α) := do
  let _ ← readName (l + k)
  let s ← readName (l + k)
  let pts ← readScore l
  own (m.push room s pts)

variable [Score α]

/-- Child `i` of the first level. -/
def sortChild (numOfMovies : ℕ) (d : Data α) (size i : ℕ) : Run α Unit := do
  let start := size * i
  let size := if i + 1 = d.base then size + d.left else size
  let (sub, pts) ← Code.forRange size (copyOut start) ([], [])
  let (sub, pts) ← own (sort numOfMovies sub pts 0 size)
  Code.forRange size (copyBack sub pts start) ()

/-- Child `i` of a later level with `base` children, where runs of length `size / 2` are merged. -/
def mergeChild (d : Data α) (base size i : ℕ) : Run α Unit := do
  let l := size * i
  let mid := l + size / 2
  let r := l + size / 2
  let room := size + d.left
  let stop := if i + 1 = base then size * (i + 1) + d.left else size * (i + 1)
  let m ← Accesses.mergeLoop view room mid stop ((mid - l) + (stop - r) + 1) ⟨l, r, [], []⟩
  let m ← Code.forRange (mid - m.l) (appendLeft room m.l) m
  Code.forRange m.newname.length (copyBack m.newname m.newscore l) ()

/-- The child that `main` forks as number `i` of a level. -/
def child (numOfMovies : ℕ) (d : Data α) (base size i : ℕ) : Run α Unit :=
  if d.base = base then sortChild numOfMovies d size i else mergeChild d base size i

/-! ### `main` -/

/-- `while (base >= 1)`: the children of a level are forked, and then waited for. -/
def forkLevels (numOfMovies : ℕ) (d : Data α) (base size : ℕ) : Children α :=
  if base ≥ 1 then
    .seq (startAll (fun i next => .par (child numOfMovies d base size i).run next)
        (List.range base) .skip)
      (forkLevels numOfMovies d (base / 2) (size * 2))
  else
    .skip
termination_by base

omit [Score α] in
/-- One iteration of the loop that fills the mappings. -/
def mapStep (d : Data α) (_ : Unit) (i : ℕ) : Run α Unit := do
  .write (.name i) [] (.write (.pointer i) true (.done ()))
  writeName i (← Accesses.present d.moviename[i]?)
  writeScore i (← Accesses.present d.moviescore[i]?)

omit [Score α] in
/-- One iteration of the loop that writes the lines: the line is appended to the stream, and the
    mapping is given back. -/
def printStep (_ : Unit) (i : ℕ) : Run α Unit := do
  let s ← readName i
  .read .out fun lines => .write .out (lines ++ [s]) (.done ())
  .write (.pointer i) false (.done ())

omit [Score α] in
/-- The end of `main`. -/
def print (cnt : ℕ) : Run α Unit := do
  .write .out [] (.done ())
  Code.forRange cnt printStep ()

/-- `main` of the process build after the `cal` threads, for the first request. -/
def main (movies : List (MovieProfile α)) (r : Request α) : Children α :=
  let d := cal movies r
  (Code.forRange d.cnt (mapStep d) ()).andThen fun _ =>
  .seq (forkLevels movies.length d d.base d.size) (print d.cnt).run

end Mappings

end SystemProgramming.Movies
