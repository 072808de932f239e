import Mathlib.Data.List.Basic
import SystemProgramming.Movies.Entry

namespace SystemProgramming.Movies

/-!
# Movie recommendation — the two arrays

The arrays `moviename` and `moviescore` are lists with one element for each slot that `cal` has
filled, and an index outside them is a fault.  In proofs they are the two columns `names es` and
`scores es` of one list of entries `es`.
-/

/-- What stops a program: an index outside an array, a failed assertion, or a loop that does not
    come to its end. -/
inductive Fault
  | index
  | assertion
  | fuel
  deriving DecidableEq, Repr

/-- `l[i]` -/
def loadAt {β : Type} (l : List β) (i : ℕ) : Except Fault β :=
  match l[i]? with
  | some x => .ok x
  | none => .error .index

/-- `l[i] = x` -/
def storeAt {β : Type} (l : List β) (i : ℕ) (x : β) : Except Fault (List β) :=
  if i < l.length then .ok (l.set i x) else .error .index

variable {α : Type} {es : List (Entry α)} {x : Entry α} {i : ℕ}

/-- The names of a list of entries. -/
def names (es : List (Entry α)) : List CString := es.map Entry.name

/-- The scores of a list of entries. -/
def scores (es : List (Entry α)) : List α := es.map Entry.score

/-- The column of names is as long as the table. -/
@[simp] theorem length_names : (names es).length = es.length := List.length_map _

/-- And so is the column of scores. -/
@[simp] theorem length_scores : (scores es).length = es.length := List.length_map _

/-- The names of two tables, one after the other. -/
theorem names_append (es fs : List (Entry α)) : names (es ++ fs) = names es ++ names fs :=
  List.map_append

/-- Their scores. -/
theorem scores_append (es fs : List (Entry α)) : scores (es ++ fs) = scores es ++ scores fs :=
  List.map_append

/-- Two arrays of one length are the columns of a list of entries. -/
theorem exists_columns {movies : List CString} {pts : List α} (h : pts.length = movies.length) :
    ∃ es : List (Entry α), names es = movies ∧ scores es = pts := by
  induction movies generalizing pts with
  | nil =>
    rw [List.eq_nil_of_length_eq_zero h]
    exact ⟨[], rfl, rfl⟩
  | cons t movies ih =>
    cases pts with
    | nil => cases h
    | cons p pts =>
      obtain ⟨es, rfl, rfl⟩ := ih (Nat.succ.inj h)
      exact ⟨⟨t, p⟩ :: es, rfl, rfl⟩

/-- A table is made of its columns. -/
theorem zipWith_columns (es : List (Entry α)) :
    List.zipWith Entry.mk (names es) (scores es) = es := by
  rw [names, scores, List.zipWith_map, List.zipWith_self]
  exact List.map_id es

/-- The suffix is appended to the names. -/
theorem names_addSecret (es : List (Entry α)) :
    names (es.map Entry.addSecret) = es.map fun e => e.name ++ secretKey := by
  rw [names, List.map_map]
  rfl

/-- And to nothing else. -/
theorem scores_addSecret (es : List (Entry α)) :
    scores (es.map Entry.addSecret) = es.map Entry.score := by
  rw [scores, List.map_map]
  rfl

/-- A name in range is loaded. -/
theorem loadAt_names (h : es[i]? = some x) : loadAt (names es) i = .ok x.name := by
  rw [loadAt, names, List.getElem?_map, h]
  rfl

/-- A score in range is loaded. -/
theorem loadAt_scores (h : es[i]? = some x) : loadAt (scores es) i = .ok x.score := by
  rw [loadAt, scores, List.getElem?_map, h]
  rfl

/-- To store a name is to replace an entry, in the column of names. -/
theorem storeAt_names (h : i < es.length) (x : Entry α) :
    storeAt (names es) i x.name = .ok (names (es.set i x)) := by
  rw [storeAt, length_names, if_pos h, names, names, List.map_set]

/-- The same in the column of scores. -/
theorem storeAt_scores (h : i < es.length) (x : Entry α) :
    storeAt (scores es) i x.score = .ok (scores (es.set i x)) := by
  rw [storeAt, length_scores, if_pos h, scores, scores, List.map_set]

/-- The suffix is not part of the score. -/
theorem scores_set_addSecret (h : es[i]? = some x) :
    scores (es.set i x.addSecret) = scores es := by
  obtain ⟨hi, hx⟩ := List.getElem?_eq_some_iff.mp h
  have hi' : i < (scores es).length := by rwa [length_scores]
  have hself : x.addSecret.score = (scores es)[i] := by
    simp only [scores, List.getElem_map, hx]
    rfl
  rw [scores, List.map_set, ← scores, hself, List.set_getElem_self]

end SystemProgramming.Movies
