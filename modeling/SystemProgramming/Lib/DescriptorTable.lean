import Mathlib.Data.Finset.Card
import Mathlib.Data.Finset.Range

namespace SystemProgramming.DescriptorTable

/-!
# Descriptor numbers

The kernel gives a new descriptor the lowest number that is not in use.

* `lowestFree` — that number, for a set of descriptors in use;
* `openMore` — the descriptors in use after some calls that open one;
* `lt_of_openMore` — what is open from the start on lies below whatever is opened later, as long as
  nothing of it is closed.
-/

/-- The lowest number that is not in `s`. -/
def lowestFree (s : Finset ℕ) : ℕ := ((List.range (s.card + 1)).find? (· ∉ s)).getD 0

/-- The descriptors in use after `n` calls that open one. -/
def openMore : ℕ → Finset ℕ → Finset ℕ
  | 0, s => s
  | n + 1, s => openMore n (insert (lowestFree s) s)

variable {s t : Finset ℕ}

/-- One of the numbers that are searched is free: there is one more of them than are in use. -/
theorem exists_free (s : Finset ℕ) : ∃ x ∈ List.range (s.card + 1), x ∉ s := by
  have hcard : s.card < (Finset.range (s.card + 1)).card := by
    rw [Finset.card_range]
    omega
  obtain ⟨x, hx, hfree⟩ := Finset.exists_mem_notMem_of_card_lt_card hcard
  exact ⟨x, List.mem_range.mpr (Finset.mem_range.mp hx), hfree⟩

theorem find_lowestFree (s : Finset ℕ) :
    (List.range (s.card + 1)).find? (· ∉ s) = some (lowestFree s) := by
  obtain ⟨x, hx, hfree⟩ := exists_free s
  cases hfind : (List.range (s.card + 1)).find? (· ∉ s) with
  | none => exact absurd (decide_eq_true hfree) (List.find?_eq_none.mp hfind x hx)
  | some y => rw [lowestFree, hfind, Option.getD_some]

theorem lowestFree_notMem (s : Finset ℕ) : lowestFree s ∉ s := by
  have hfound := List.find?_some (find_lowestFree s)
  exact of_decide_eq_true hfound

/-- Every lower number is in use. -/
theorem mem_of_lt_lowestFree {x : ℕ} (hx : x < lowestFree s) : x ∈ s := by
  have hfind := find_lowestFree s
  have hlt : lowestFree s < s.card + 1 :=
    List.mem_range.mp (List.mem_of_find?_eq_some hfind)
  by_contra hfree
  obtain ⟨-, i, hi, hat, hbefore⟩ := List.find?_eq_some_iff_getElem.mp hfind
  rw [List.getElem_range] at hat
  have hno := hbefore x (by omega)
  rw [List.getElem_range] at hno
  simp [hfree] at hno

/-- More descriptors in use push the lowest free number up. -/
theorem lowestFree_le (h : s ⊆ t) : lowestFree s ≤ lowestFree t := by
  by_contra hlt
  exact lowestFree_notMem t (h (mem_of_lt_lowestFree (Nat.lt_of_not_le hlt)))

theorem subset_openMore (n : ℕ) (s : Finset ℕ) : s ⊆ openMore n s := by
  induction n generalizing s with
  | zero => exact subset_rfl
  | succ n ih => exact (Finset.subset_insert _ _).trans (ih _)

/-- The first of the descriptors that were opened one after the other is below every number that
    is free later. -/
theorem lt_of_openMore {n : ℕ} (h : openMore (n + 1) s ⊆ t) : lowestFree s < lowestFree t := by
  have hsub : insert (lowestFree s) s ⊆ t := (subset_openMore n _).trans h
  have hle := lowestFree_le ((Finset.subset_insert _ _).trans hsub)
  have hmem : lowestFree s ∈ t := hsub (Finset.mem_insert_self _ _)
  exact lt_of_le_of_ne hle fun heq => lowestFree_notMem t (heq ▸ hmem)

end SystemProgramming.DescriptorTable
