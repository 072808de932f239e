import Mathlib.Data.List.Basic

namespace SystemProgramming.TextSearch

/-!
# Searching a text

`find` is the search of `strstr`: the position of the first occurrence of a needle.  The lemmas
locate the first occurrence of a needle that ends in a given character, from where that character
stands in the text.
-/

variable {α : Type*} [DecidableEq α]

/-- The position of the first occurrence of `needle`. -/
def find (needle : List α) : List α → Option ℕ
  | [] => if needle = [] then some 0 else none
  | c :: cs => if needle.isPrefixOf (c :: cs) then some 0 else (find needle cs).map (· + 1)

/-- A needle is not found at a character it does not start with. -/
theorem find_cons_of_ne {a x : α} (needle l : List α) (h : x ≠ a) :
    find (a :: needle) (x :: l) = (find (a :: needle) l).map (· + 1) := by
  have hx : ¬ a = x := fun h' => h h'.symm
  simp [find, List.isPrefixOf, hx]

/-- Nothing is found in a text without the first character of the needle. -/
theorem find_append_eq_none_iff {a : α} {s : List α} (hs : a ∉ s) (needle l : List α) :
    find (a :: needle) (s ++ l) = none ↔ find (a :: needle) l = none := by
  induction s with
  | nil => rfl
  | cons x s ih =>
    have hx : x ≠ a := fun h => hs (by simp [h])
    rw [List.cons_append, find_cons_of_ne _ _ hx, Option.map_eq_none_iff,
      ih fun h => hs (by simp [h])]

/-- A needle `[a, b]` is not found at an `a` that `b` does not follow. -/
theorem find_pair_cons_cons {a b x : α} (l : List α) (h : x ≠ b) :
    find [a, b] (a :: x :: l) = (find [a, b] (x :: l)).map (· + 1) := by
  have hx : ¬ b = x := fun h' => h h'.symm
  simp [find, List.isPrefixOf, hx]

theorem find_singleton {a : α} {s : List α} (hs : a ∉ s) (u : List α) :
    find [a] (s ++ a :: u) = some s.length := by
  induction s with
  | nil => simp [find, List.isPrefixOf]
  | cons x s ih =>
    have hx : x ≠ a := fun h => hs (by simp [h])
    rw [List.cons_append, find_cons_of_ne [] _ hx, ih fun h => hs (by simp [h])]
    rfl

/-- The first `a b` of a text whose first `b` stands right after an `a`. -/
theorem find_pair {a b : α} (hab : a ≠ b) {s : List α} (hs : b ∉ s) (u : List α) :
    find [a, b] (s ++ a :: b :: u) = some s.length := by
  induction s with
  | nil => simp [find, List.isPrefixOf]
  | cons x s ih =>
    have htail := ih fun h => hs (by simp [h])
    have hskip : find [a, b] (x :: (s ++ a :: b :: u)) =
        (find [a, b] (s ++ a :: b :: u)).map (· + 1) := by
      by_cases hx : x = a
      · subst hx
        -- what follows is not `b`: the next character of `s`, or the second `a`
        cases s with
        | nil => exact find_pair_cons_cons _ hab
        | cons y s => exact find_pair_cons_cons _ fun h => hs (by simp [h])
      · exact find_cons_of_ne _ _ hx
    rw [List.cons_append, hskip, htail]
    rfl

/-- An occurrence is a prefix of what is left of the text. -/
theorem prefix_drop_of_find {needle l : List α} {i : ℕ} (h : find needle l = some i) :
    needle <+: l.drop i := by
  induction l generalizing i with
  | nil =>
    simp only [find] at h
    split at h
    · rename_i hn
      simp [hn]
    · -- no occurrence here, so the one that is found lies in the tail
      cases h
  | cons c l ih =>
    simp only [find] at h
    split at h
    · rename_i hp
      cases h
      exact List.isPrefixOf_iff_prefix.mp hp
    · obtain ⟨j, hj, rfl⟩ := Option.map_eq_some_iff.mp h
      exact ih hj

theorem lt_length_of_find {needle l : List α} {i : ℕ} (hne : needle ≠ [])
    (h : find needle l = some i) : i < l.length := by
  have hlen := (prefix_drop_of_find h).length_le
  have hpos := List.length_pos_of_ne_nil hne
  rw [List.length_drop] at hlen
  omega

/-- An occurrence of a needle with the character `b` reaches past a text without `b`. -/
theorem length_le_of_find {b : α} {needle s u : List α} {i : ℕ} (hb : b ∈ needle) (hs : b ∉ s)
    (h : find needle (s ++ u) = some i) : s.length < i + needle.length := by
  by_contra hlt
  obtain ⟨t, ht⟩ := prefix_drop_of_find h
  have hmem : b ∈ ((s ++ u).drop i).take needle.length := by
    rw [← ht, List.take_left]
    exact hb
  rw [List.drop_append_of_le_length (by omega), List.take_append_of_le_length
    (by rw [List.length_drop]; omega)] at hmem
  exact hs (List.mem_of_mem_drop (List.mem_of_mem_take hmem))

omit [DecidableEq α] in
/-- Two texts split at their first `b` are equal only if their parts are. -/
theorem append_cons_inj {b : α} {s t u v : List α} (hs : b ∉ s) (ht : b ∉ t)
    (h : s ++ b :: u = t ++ b :: v) : s = t ∧ u = v := by
  induction s generalizing t with
  | nil =>
    cases t with
    | nil => exact ⟨rfl, (List.cons.inj h).2⟩
    | cons y t => exact absurd (List.cons.inj h).1 fun h' => ht (by simp [h'])
  | cons x s ih =>
    cases t with
    | nil => exact absurd (List.cons.inj h).1 fun h' => hs (by simp [h'])
    | cons y t =>
      obtain ⟨rfl, htail⟩ := List.cons.inj h
      obtain ⟨rfl, huv⟩ := ih (fun h' => hs (by simp [h'])) (fun h' => ht (by simp [h'])) htail
      exact ⟨rfl, huv⟩

end SystemProgramming.TextSearch
