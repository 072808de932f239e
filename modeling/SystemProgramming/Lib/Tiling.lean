import Mathlib.Algebra.Group.Nat.Even
import Mathlib.Data.List.Pairwise
import Mathlib.Order.Interval.Finset.Nat
import Mathlib.Tactic.Ring

namespace SystemProgramming.Tiling

/-! # Tilings of an initial range

Ranges are pairs of a first index and the index behind the last one.

* `Tiles n rs` — the ranges `rs` are disjoint and together are `[0, n)`;
* `tiling s b n` — `b` ranges of length `s`, the last of which ends at `n`, with `tiles_tiling`;
* `tile_double`, `tile_meet` — joining neighbours two by two gives the tiling with half as many
  ranges. -/

/-- The indices of a range. -/
def indices (r : ℕ × ℕ) : Finset ℕ := Finset.Ico r.1 r.2

/-- The ranges are disjoint and cover exactly `[0, n)`. -/
structure Tiles (n : ℕ) (rs : List (ℕ × ℕ)) : Prop where
  disjoint : rs.Pairwise fun x y => Disjoint (indices x) (indices y)
  cover : ∀ i, (∃ x ∈ rs, i ∈ indices x) ↔ i < n

/-- Range `t` of `b` ranges of length `s`; the last one goes on to `n`. -/
def tile (s b n t : ℕ) : ℕ × ℕ := (s * t, if t + 1 = b then n else s * (t + 1))

/-- All tiles, from left to right. -/
def tiling (s b n : ℕ) : List (ℕ × ℕ) := (List.range b).map (tile s b n)

variable {s b n t u : ℕ}

@[simp] theorem length_tiling : (tiling s b n).length = b := by simp [tiling]

theorem getElem?_tiling (h : t < b) : (tiling s b n)[t]? = some (tile s b n t) := by
  simp [tiling, h]

theorem tiling_one : tiling s 1 n = [(0, n)] := rfl

/-! ### The ranges tile -/

/-- A range ends where a later one starts, or before. -/
theorem tile_ordered (htu : t < u) (hu : u < b) : (tile s b n t).2 ≤ (tile s b n u).1 := by
  have hne : t + 1 ≠ b := by omega
  simp only [tile, if_neg hne]
  exact Nat.mul_le_mul_left s htu

/-- Every range is of length `s` or longer. -/
theorem le_tile (hle : s * b ≤ n) : (tile s b n t).1 + s ≤ (tile s b n t).2 := by
  simp only [tile]
  split
  · rename_i hlast
    exact (Nat.mul_le_mul_left s hlast.le).trans hle
  · exact le_rfl

/-- No range goes past `n`. -/
theorem tile_snd_le (hle : s * b ≤ n) (ht : t < b) : (tile s b n t).2 ≤ n := by
  simp only [tile]
  split
  · exact le_rfl
  · exact (Nat.mul_le_mul_left s ht).trans hle

/-- Only the last range is longer than `s`, by what is left of `n`. -/
theorem tile_le : (tile s b n t).2 ≤ (tile s b n t).1 + s + (n - s * b) := by
  simp only [tile]
  split
  · rename_i hlast
    rw [← hlast, Nat.mul_succ]
    omega
  · exact Nat.le_add_right _ _

/-- **`b` ranges of length `s` tile `[0, n)`**, if the last one takes in what is left. -/
theorem tiles_tiling (hs : 0 < s) (hb : 0 < b) (hle : s * b ≤ n) : Tiles n (tiling s b n) where
  disjoint := by
    rw [tiling, List.pairwise_map]
    refine List.pairwise_lt_range.imp_of_mem fun {t u} _ hu htu => ?_
    have horder := tile_ordered (s := s) (n := n) htu (List.mem_range.mp hu)
    refine Finset.disjoint_left.mpr fun i hi hi' => ?_
    have hlt := (Finset.mem_Ico.mp hi).2
    have hge := (Finset.mem_Ico.mp hi').1
    omega
  cover i := by
    constructor
    · rintro ⟨x, hx, hi⟩
      obtain ⟨t, ht, rfl⟩ := List.mem_map.mp hx
      have hlt := (Finset.mem_Ico.mp hi).2
      have hend := tile_snd_le hle (List.mem_range.mp ht)
      omega
    · -- index `i` lies in range `i / s`, or in the last one
      intro hi
      obtain h | h := lt_or_ge (i / s + 1) b
      · refine ⟨_, List.mem_map_of_mem (List.mem_range.mpr (by omega : i / s < b)), ?_⟩
        simp only [indices, Finset.mem_Ico, tile, if_neg h.ne]
        exact ⟨Nat.mul_div_le i s, Nat.lt_mul_div_succ i hs⟩
      · have hlast : b - 1 + 1 = b := by omega
        refine ⟨_, List.mem_map_of_mem (List.mem_range.mpr (by omega : b - 1 < b)), ?_⟩
        simp only [indices, Finset.mem_Ico, tile, if_pos hlast]
        exact ⟨(Nat.mul_le_mul_left s (by omega)).trans (Nat.mul_div_le i s), hi⟩

/-! ### Joining neighbours -/

/-- A range of the coarser tiling is two neighbours of the finer one. -/
theorem tile_double :
    tile (2 * s) b n t = ((tile s (2 * b) n (2 * t)).1, (tile s (2 * b) n (2 * t + 1)).2) := by
  have hlast : 2 * t + 1 + 1 = 2 * b ↔ t + 1 = b := by omega
  simp only [tile, hlast]
  congr 1
  · ring
  · congr 1
    ring

/-- The left neighbour is of length `s` and ends where the right one starts. -/
theorem tile_meet :
    (tile s (2 * b) n (2 * t)).2 = (tile s (2 * b) n (2 * t)).1 + s ∧
      (tile s (2 * b) n (2 * t + 1)).1 = (tile s (2 * b) n (2 * t)).1 + s := by
  have hlast : 2 * t + 1 ≠ 2 * b := by omega
  simp only [tile, if_neg hlast]
  exact ⟨rfl, rfl⟩

end SystemProgramming.Tiling
