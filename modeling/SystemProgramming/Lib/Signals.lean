import Mathlib.Data.Finset.Basic

namespace SystemProgramming

/-!
# Signals of a process

What a kernel keeps of a process with signal handlers: the signals that are blocked and those that
are pending.  A signal that is raised while it is pending is lost, and while its handler runs a
signal is blocked in addition to the mask.

* `deliver` — a pending signal that is not blocked enters its handler;
* `Quiet` — there is none, so that the process itself may go on.
-/

/-- The blocked and the pending signals. -/
@[ext] structure Signals (S : Type*) where
  mask : Finset S
  pending : Finset S

namespace Signals

variable {S : Type*}

/-- `sigprocmask(SIG_SETMASK, m, NULL)` -/
def setMask (k : Signals S) (m : Finset S) : Signals S := { k with mask := m }

variable {k k' : Signals S} {s s' : S} {m : Finset S}

@[simp] theorem mask_setMask : (k.setMask m).mask = m := rfl

@[simp] theorem pending_setMask : (k.setMask m).pending = k.pending := rfl

/-- No signal has to be delivered before the process makes its next step. -/
def Quiet (k : Signals S) : Prop := k.pending ⊆ k.mask

/-- A pending signal that is not blocked holds the process up. -/
theorem not_quiet (hs : s ∈ k.pending) (hm : s ∉ k.mask) : ¬ k.Quiet := fun h => hm (h hs)

variable [DecidableEq S]

instance (k : Signals S) : Decidable k.Quiet := inferInstanceAs (Decidable (k.pending ⊆ k.mask))

/-- The signal is sent to the process. -/
def raise (k : Signals S) (s : S) : Signals S := { k with pending := insert s k.pending }

/-- The signal enters its handler, with which it is blocked. -/
def deliver (k : Signals S) (s : S) : Option (Signals S) :=
  if s ∈ k.pending ∧ s ∉ k.mask then some ⟨insert s k.mask, k.pending.erase s⟩ else none

@[simp] theorem mask_raise : (k.raise s).mask = k.mask := rfl

@[simp] theorem pending_raise : (k.raise s).pending = insert s k.pending := rfl

theorem deliver_eq_some : k.deliver s = some k' ↔
    s ∈ k.pending ∧ s ∉ k.mask ∧ k' = ⟨insert s k.mask, k.pending.erase s⟩ := by
  unfold deliver
  split
  · rename_i h
    simp [h, eq_comm]
  · rename_i h
    simp only [reduceCtorEq, false_iff]
    exact fun h' => h ⟨h'.1, h'.2.1⟩

/-- A signal stays pending until it is delivered. -/
theorem deliver_of_ne (h : k.deliver s = some k') (hne : s' ≠ s) (hs : s' ∈ k.pending) :
    s' ∈ k'.pending := by
  obtain ⟨-, -, rfl⟩ := deliver_eq_some.mp h
  exact Finset.mem_erase.mpr ⟨hne, hs⟩

end Signals

end SystemProgramming
