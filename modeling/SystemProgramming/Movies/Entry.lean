import Mathlib.Algebra.Order.Ring.Int
import Mathlib.Order.RelClasses
import SystemProgramming.Movies.Title

namespace SystemProgramming.Movies

/-!
# Movie recommendation — scores and entries

* `Score` — the numbers that scores are computed with: a linear order in which the literal `-1.0`
  is below zero.  Nothing else about the arithmetic is used;
* `Entry` — a title with its score, ordered by decreasing score and then by increasing title.
-/

/-- The type of scores: exact numbers, without NaN. -/
class Score (α : Type) extends LinearOrder α, Zero α, Add α, Mul α where
  /-- The literal `-1.0`. -/
  minusOne : α
  minusOne_neg : minusOne < 0

instance : Score ℤ where
  minusOne := -1
  minusOne_neg := by decide

/-- A slot of the two arrays `moviename` and `moviescore`. -/
@[ext] structure Entry (α : Type) where
  name : CString
  score : α
  deriving DecidableEq, Repr

namespace Entry

variable {α : Type}

/-- The entry with the secret suffix on its title. -/
def addSecret (e : Entry α) : Entry α := { e with name := e.name ++ secretKey }

variable [LinearOrder α] {x y z : Entry α}

/-- `x` is written before `y`: a higher score, or the same score and a smaller title. -/
def Before (x y : Entry α) : Prop :=
  y.score < x.score ∨ (x.score = y.score ∧ strcmp x.name y.name = .lt)

instance : DecidableRel (Before (α := α)) := fun x y => by
  unfold Before
  infer_instance

theorem before_irrefl (x : Entry α) : ¬ Before x x := by
  rintro (h | ⟨-, h⟩)
  · exact lt_irrefl _ h
  · rw [strcmp_eq_iff.mpr rfl] at h
    cases h

theorem Before.trans (hxy : Before x y) (hyz : Before y z) : Before x z := by
  rcases hxy with hxy | ⟨exy, hxy⟩
  · rcases hyz with hyz | ⟨eyz, -⟩
    · exact .inl (hyz.trans hxy)
    · exact .inl (eyz ▸ hxy)
  · rcases hyz with hyz | ⟨eyz, hyz⟩
    · exact .inl (exy ▸ hyz)
    · exact .inr ⟨exy.trans eyz, strcmp_lt_trans hxy hyz⟩

theorem before_trichotomy (x y : Entry α) : Before x y ∨ x = y ∨ Before y x := by
  rcases lt_trichotomy x.score y.score with h | h | h
  · exact .inr (.inr (.inl h))
  · cases hc : strcmp x.name y.name with
    | lt => exact .inl (.inr ⟨h, hc⟩)
    | eq => exact .inr (.inl (Entry.ext (strcmp_eq_iff.mp hc) h))
    | gt => exact .inr (.inr (.inr ⟨h.symm, by rw [strcmp_swap, hc]; rfl⟩))
  · exact .inl (.inl h)

instance : IsStrictTotalOrder (Entry α) Before where
  irrefl := before_irrefl
  trans _ _ _ := Before.trans
  trichotomous x y hxy hyx := by
    rcases before_trichotomy x y with h | h | h
    · exact absurd h hxy
    · exact h
    · exact absurd h hyx

/-- Entries in the order in which they are written. -/
instance : LinearOrder (Entry α) := linearOrderOfSTO Before

theorem lt_iff : x < y ↔ Before x y := Iff.rfl

/-- The order by its two keys. -/
theorem le_iff : x ≤ y ↔ y.score < x.score ∨ (x.score = y.score ∧ strcmp x.name y.name ≠ .gt) := by
  rw [le_iff_lt_or_eq, lt_iff, Before]
  constructor
  · rintro ((h | ⟨h, hlt⟩) | rfl)
    · exact .inl h
    · exact .inr ⟨h, by rw [hlt]; decide⟩
    · exact .inr ⟨rfl, by rw [strcmp_eq_iff.mpr rfl]; decide⟩
  · rintro (h | ⟨h, hgt⟩)
    · exact .inl (.inl h)
    · cases hc : strcmp x.name y.name with
      | lt => exact .inl (.inr ⟨h, rfl⟩)
      | eq => exact .inr (Entry.ext (strcmp_eq_iff.mp hc) h)
      | gt => exact absurd hc hgt

/-- What is written first has the higher score. -/
theorem score_le (h : x ≤ y) : y.score ≤ x.score := by
  rcases h.eq_or_lt with rfl | hlt
  · exact le_rfl
  · rcases lt_iff.mp hlt with hscore | ⟨hscore, -⟩
    · exact hscore.le
    · exact hscore.ge

/-- The suffix does not change the order of entries with valid titles. -/
theorem addSecret_lt (hx : ValidTitle x.name) (hy : ValidTitle y.name) :
    x.addSecret < y.addSecret ↔ x < y := by
  obtain ⟨key, hkey⟩ := secretKey_eq
  simp only [lt_iff, Before, addSecret, hkey, strcmp_append hx.tab_lt hy.tab_lt]

end Entry

end SystemProgramming.Movies
