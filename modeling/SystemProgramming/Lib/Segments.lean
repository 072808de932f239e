import Mathlib.Algebra.BigOperators.Group.List.Basic
import Mathlib.Algebra.Order.Group.MinMax
import Mathlib.Data.List.Infix
import Mathlib.Order.Bounds.Image

namespace SystemProgramming.Segments

/-! # The largest sum of a subarray

The sums of the subarrays of a list, as sets, and how they grow with the list.

* `endingSums_concat` — a subarray that ends at the new element is that element, alone or behind a
  subarray that ended at the element before;
* `Best l y best` — what a scan of `l` has to keep: the best sum that ends at the last element, and
  the best of all, where taking nothing is a choice;
* `Best.concat` — one step of the scan. -/

variable {α : Type*} [AddCommGroup α]

/-- The sums of the non-empty contiguous subsequences of `l`. -/
def subarraySums (l : List α) : Set α := {v | ∃ s, s ≠ [] ∧ s <:+: l ∧ s.sum = v}

/-- The sums of those that end at the end of `l`. -/
def endingSums (l : List α) : Set α := {v | ∃ s, s ≠ [] ∧ s <:+ l ∧ s.sum = v}

variable {l l' : List α} {v x y best : α}

theorem endingSums_subset : endingSums l ⊆ subarraySums l := by
  rintro v ⟨s, hne, hs, hv⟩
  exact ⟨s, hne, hs.isInfix, hv⟩

theorem subarraySums_mono (h : l <:+: l') : subarraySums l ⊆ subarraySums l' := by
  rintro v ⟨s, hne, hs, hv⟩
  exact ⟨s, hne, hs.trans h, hv⟩

@[simp] theorem subarraySums_nil : subarraySums ([] : List α) = ∅ := by
  ext v
  refine iff_of_false ?_ id
  rintro ⟨s, hne, hs, -⟩
  exact hne (List.eq_nil_of_infix_nil hs)

@[simp] theorem endingSums_nil : endingSums ([] : List α) = ∅ := by
  rw [← Set.subset_empty_iff, ← subarraySums_nil]
  exact endingSums_subset

/-- What ends at the new element. -/
theorem endingSums_concat : endingSums (l ++ [x]) = (· + x) '' insert 0 (endingSums l) := by
  ext v
  constructor
  · rintro ⟨s, hne, hs, rfl⟩
    -- a segment that ends with `x` is `x` behind a segment, possibly empty, that ended before
    obtain ⟨s, z, rfl⟩ := List.eq_nil_or_concat' s |>.resolve_left hne
    obtain ⟨t, ht⟩ := hs
    rw [← List.append_assoc] at ht
    obtain ⟨rfl, hz⟩ := List.append_inj' ht rfl
    obtain rfl : z = x := List.singleton_inj.mp hz
    refine ⟨s.sum, ?_, by rw [List.sum_append, List.sum_singleton]⟩
    rcases eq_or_ne s [] with rfl | hs
    · exact .inl rfl
    · exact .inr ⟨s, hs, List.suffix_append t s, rfl⟩
  · rintro ⟨v, rfl | ⟨s, -, hs, rfl⟩, rfl⟩
    · exact ⟨[x], List.cons_ne_nil _ _, List.suffix_append l [x], by simp⟩
    · refine ⟨s ++ [x], by simp, List.suffix_append_self_iff.mpr hs, ?_⟩
      simp

/-- A subarray ends at the new element, or before it. -/
theorem subarraySums_concat :
    subarraySums (l ++ [x]) = subarraySums l ∪ endingSums (l ++ [x]) := by
  apply Set.Subset.antisymm
  · rintro v ⟨s, hne, hs, hv⟩
    rcases List.infix_concat_iff.mp hs with hs | hs
    · exact .inr ⟨s, hne, hs, hv⟩
    · exact .inl ⟨s, hne, hs, hv⟩
  · exact Set.union_subset (subarraySums_mono (List.prefix_append l [x]).isInfix) endingSums_subset

variable [LinearOrder α] [IsOrderedAddMonoid α]

/-- What a scan keeps: `y` is the best sum that ends at the end of `l`, or zero at the start, and
    `best` the best sum of all, or zero. -/
structure Best (l : List α) (y best : α) : Prop where
  ends : y ∈ insert 0 (endingSums l)
  ending : IsGreatest (insert 0 (endingSums l)) (max 0 y)
  whole : IsGreatest (insert 0 (subarraySums l)) best

omit [IsOrderedAddMonoid α] in
theorem Best.nil : Best ([] : List α) 0 0 := by
  have hzero : IsGreatest ({0} : Set α) 0 := isGreatest_singleton
  refine ⟨.inl rfl, ?_, ?_⟩
  · rwa [endingSums_nil, max_self, insert_empty_eq]
  · rwa [subarraySums_nil, insert_empty_eq]

/-- **One step of the scan.** -/
theorem Best.concat (h : Best l y best) (x : α) :
    Best (l ++ [x]) (max 0 y + x) (max best (max 0 y + x)) := by
  have hending : IsGreatest (endingSums (l ++ [x])) (max 0 y + x) := by
    rw [endingSums_concat]
    exact (add_left_mono (a := x)).map_isGreatest h.ending
  refine ⟨.inr hending.1, ?_, ?_⟩
  · exact hending.insert 0
  · rw [subarraySums_concat, ← Set.insert_union]
    exact h.whole.union hending

end SystemProgramming.Segments
