import Mathlib.Data.List.Perm.Basic

namespace SystemProgramming

/-! # Slot arrays

A fixed array of slots, each empty or holding an element, and the list it holds when its elements
fill the first slots.

* `SlotArray.load` / `SlotArray.store` — checked access: an index past the end is an error;
* `SlotArray.ofList l` — the array whose first slots hold `l` and whose other slots are empty;
* `SlotArray.splice n q t` — the first `n` slots of `q`, and what `t` has in the others;
* `swapRemove` — removal of an element by moving the last one into its place. -/

/-- An array of `cap` slots, each empty or holding an element. -/
abbrev SlotArray (cap : ℕ) (α : Type*) := Fin cap → Option α

namespace SlotArray

variable {cap : ℕ} {α ε : Type*} {err : ε} {l : List α} {i : ℕ}

/-- Slot `i`; `err` when there is no such slot. -/
def load (err : ε) (q : SlotArray cap α) (i : ℕ) : Except ε (Option α) :=
  if h : i < cap then .ok (q ⟨i, h⟩) else .error err

/-- Write slot `i`; `err` when there is no such slot. -/
def store (err : ε) (q : SlotArray cap α) (i : ℕ) (v : Option α) : Except ε (SlotArray cap α) :=
  if i < cap then .ok fun j => if j.val = i then v else q j else .error err

/-- The first `n` slots. -/
def range (q : SlotArray cap α) (n : ℕ) : List (Option α) := (List.ofFn q).take n

/-- The array that holds `l` in its first slots, and nothing else. -/
def ofList (l : List α) : SlotArray cap α := fun i => l[i.val]?

/-- A slot in range is loaded. -/
theorem load_of_lt {q : SlotArray cap α} (h : i < cap) : q.load err i = .ok (q ⟨i, h⟩) :=
  dif_pos h

/-- A slot in range is overwritten. -/
theorem store_of_lt {q : SlotArray cap α} {v : Option α} (h : i < cap) :
    q.store err i v = .ok fun j => if j.val = i then v else q j :=
  if_pos h

/-- The elements of a list are loaded by their positions. -/
theorem load_ofList (h : i < cap) : (ofList l : SlotArray cap α).load err i = .ok l[i]? :=
  load_of_lt h

/-- Writing the first free slot appends. -/
theorem store_length (h : l.length < cap) (x : α) :
    (ofList l : SlotArray cap α).store err l.length (some x) = .ok (ofList (l ++ [x])) := by
  rw [store_of_lt h]
  congr 1
  ext j : 1
  show (if j.val = l.length then some x else l[j.val]?) = (l ++ [x])[j.val]?
  rw [List.getElem?_append]
  split
  · rw [if_neg (by omega), ‹j.val = l.length›]
    simp
  · split
    · rfl
    · rw [List.getElem?_eq_none (by omega), List.getElem?_eq_none (by simp; omega)]

/-- The first slots of `ofList l` are exactly the elements of `l`. -/
theorem range_ofList (h : l.length ≤ cap) :
    (ofList l : SlotArray cap α).range l.length = l.map some := by
  apply List.ext_getElem
  · simp [range, h]
  · intro i h1 h2
    simp only [range, List.length_take, List.length_ofFn] at h1
    have hi : i < l.length := by omega
    simp [range, ofList, hi]

/-- The first `n` slots of `q`, then those of `t`. -/
def splice (n : ℕ) (q t : SlotArray cap α) : SlotArray cap α :=
  fun j => if j.val < n then q j else t j

section Splice

variable {n m : ℕ} {q q' t : SlotArray cap α} {v : Option α}

/-- What is loaded before the splice is that of the first array. -/
theorem load_splice (h : i < n) : (splice n q t).load err i = q.load err i := by
  unfold load
  split
  · exact congrArg _ (if_pos h)
  · rfl

/-- A store before the splice is one in the first array. -/
theorem store_splice (h : i < n) (hstore : q.store err i v = .ok q') :
    (splice n q t).store err i v = .ok (splice n q' t) := by
  unfold store at hstore ⊢
  split at hstore
  · rename_i hi
    cases hstore
    rw [if_pos hi]
    congr 1
    ext j : 1
    by_cases hj : j.val = i
    · simp only [splice, hj, h, ↓reduceIte]
    · simp only [splice, hj, ↓reduceIte]
  · cases hstore

/-- Writing the slot behind the first `n` ones adds it to them. -/
theorem store_splice_end (hstore : q.store err n v = .ok q') :
    (splice n q t).store err n v = .ok (splice (n + 1) q' t) := by
  unfold store at hstore ⊢
  split at hstore
  · rename_i hn
    cases hstore
    rw [if_pos hn]
    congr 1
    ext j : 1
    by_cases hj : j.val = n
    · simp only [splice, hj, Nat.lt_succ_self, ↓reduceIte]
    · have hiff : j.val < n + 1 ↔ j.val < n := by omega
      simp only [splice, hj, hiff, ↓reduceIte]
  · cases hstore

/-- The slots before the splice. -/
theorem range_splice (h : m ≤ n) : (splice n q t).range m = q.range m := by
  apply List.ext_getElem
  · simp [range]
  · intro i h1 h2
    simp only [range, List.length_take, List.length_ofFn] at h1
    have hi : i < n := by omega
    simp [range, splice, hi]

/-- An array is what its first slots hold, followed by its other slots. -/
theorem splice_ofList (h : q.range n = l.map some) :
    splice n (ofList l) q = q := by
  ext j : 1
  unfold splice
  split
  · rename_i hj
    have hget : (q.range n)[j.val]? = (l.map some)[j.val]? := by rw [h]
    have hrange : (q.range n)[j.val]? = some (q j) := by simp [range, hj]
    rw [hrange, List.getElem?_map] at hget
    show l[j.val]? = q j
    cases hl : l[j.val]? with
    | none => rw [hl] at hget; cases hget
    | some x =>
      rw [hl] at hget
      exact (Option.some.inj hget).symm
  · rfl

end Splice

/-- An array that holds a list has as many slots in use. -/
theorem length_of_range {n : ℕ} {q : SlotArray cap α} (h : q.range n = l.map some) (hn : n ≤ cap) :
    n = l.length := by
  have hlen := congrArg List.length h
  simpa [range, hn] using hlen

end SlotArray

/-! ### Removal by moving the last element -/

variable {α : Type*} {l : List α} {x : α} {i : ℕ}

/-- Remove element `i`: the last element takes its place. -/
def swapRemove (l : List α) (i : ℕ) : List α :=
  match l.getLast? with
  | none => []
  | some x => l.dropLast.set i x

/-- To remove from a list whose last element is known. -/
@[simp] theorem swapRemove_concat : swapRemove (l ++ [x]) i = l.set i x := by
  simp [swapRemove]

/-- One element less. -/
theorem length_swapRemove (l : List α) (i : ℕ) : (swapRemove l i).length = l.length - 1 := by
  rcases List.eq_nil_or_concat l with rfl | ⟨a, x, rfl⟩
  · rfl
  · rw [List.concat_eq_append, swapRemove_concat, List.length_set, List.length_append]
    rfl

/-- **What is where afterwards**: the last element takes the place that becomes free. -/
theorem getElem?_swapRemove (h : i < l.length) (j : ℕ) :
    (swapRemove l i)[j]? =
      if j + 1 < l.length then if j = i then l[l.length - 1]? else l[j]? else none := by
  rcases List.eq_nil_or_concat l with rfl | ⟨a, x, rfl⟩
  · exact absurd h (Nat.not_lt_zero i)
  · simp only [List.concat_eq_append, swapRemove_concat, List.length_append, List.length_singleton,
      Nat.add_sub_cancel, List.getElem?_concat_length, Nat.add_lt_add_iff_right, List.getElem?_set]
    -- below the last place only `i` changes, and the last place itself is gone
    by_cases hj : j < a.length
    · rw [if_pos hj, List.getElem?_append_left hj]
      by_cases hij : i = j
      · simp [hij, hj]
      · rw [if_neg hij, if_neg (Ne.symm hij)]
    · rw [if_neg hj, List.getElem?_eq_none (Nat.not_lt.mp hj)]
      split
      · rename_i hij
        rw [if_neg (by omega)]
      · rfl

/-- **Nothing is lost**: a list is, up to order, the removed element and what is left. -/
theorem perm_swapRemove (h : i < l.length) : l.Perm (l[i] :: swapRemove l i) := by
  rcases List.eq_nil_or_concat l with rfl | ⟨a, x, rfl⟩
  · simp at h
  · simp only [List.concat_eq_append, swapRemove_concat] at h ⊢
    have hlast : (a ++ [x]).Perm (x :: a) := List.perm_append_singleton x a
    -- the last one fills the hole; when it is the one that leaves, nothing moves
    by_cases hi : i < a.length
    · rw [List.getElem_append_left hi]
      have hset : (a.set i x).Perm (x :: a.eraseIdx i) := List.set_perm_cons_eraseIdx hi x
      have hget : (a[i] :: a.eraseIdx i).Perm a := List.getElem_cons_eraseIdx_perm hi
      calc (a ++ [x]).Perm (x :: a) := hlast
        _ |>.Perm (x :: a[i] :: a.eraseIdx i) := hget.symm.cons x
        _ |>.Perm (a[i] :: x :: a.eraseIdx i) := .swap _ _ _
        _ |>.Perm (a[i] :: a.set i x) := hset.symm.cons _
    · have hia : i = a.length := by simp at h; omega
      subst hia
      rw [List.set_eq_of_length_le (Nat.le_refl _), List.getElem_concat_length rfl]
      exact hlast

end SystemProgramming
