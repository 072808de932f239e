import Mathlib.Data.Fintype.Basic
import Mathlib.Logic.Function.Basic

namespace SystemProgramming.RecordLock

/-!
# POSIX advisory record locks

The lock table of one file: for each process and each byte, the lock that process holds
there.  `setlk` is `fcntl(F_SETLK)` with a read or a write lock on a byte range: it is granted
iff no *other* process holds a conflicting lock on a byte of the range, and then replaces
whatever the caller held there.  A process never conflicts with itself.

`setlk_compatible` / `unlock_compatible` — two processes never hold conflicting locks on one
byte, whatever sequence of calls they make.
-/

/-- The two kinds of lock (`F_RDLCK`, `F_WRLCK`). -/
inductive LockKind where
  | read
  | write
  deriving DecidableEq, Repr

/-- The locks held on a file, by process and byte. -/
abbrev LockTable (P : Type*) := P → ℕ → Option LockKind

variable {P : Type*} [DecidableEq P]

/-- A lock held by another process stands in the way of a request, unless both are read
    locks. -/
def conflicts : Option LockKind → LockKind → Bool
  | none, _ => false
  | some .read, .read => false
  | _, _ => true

/-- A byte without a lock is in nobody's way. -/
@[simp] theorem conflicts_none (k : LockKind) : conflicts none k = false := rfl
/-- A write lock is in everybody's way. -/
@[simp] theorem conflicts_write (k : LockKind) : conflicts (some .write) k = true := by
  cases k <;> rfl
/-- And every lock is in its way. -/
@[simp] theorem conflicts_self_write (k : LockKind) : conflicts (some k) .write = true := by
  cases k <;> rfl

/-- The request of `p` for a lock of kind `k` on the bytes `[start, start + len)` can be
    granted. -/
def Grantable (t : LockTable P) (p : P) (k : LockKind) (start len : ℕ) : Prop :=
  ∀ q, q ≠ p → ∀ i, i < len → conflicts (t q (start + i)) k = false

instance [Fintype P] (t : LockTable P) (p : P) (k : LockKind) (start len : ℕ) :
    Decidable (Grantable t p k start len) := by
  unfold Grantable; infer_instance

/-- Put `l` on the bytes `[start, start + len)` of `p`. -/
def setRange (t : LockTable P) (p : P) (l : Option LockKind) (start len : ℕ) : LockTable P :=
  Function.update t p fun b => if start ≤ b ∧ b < start + len then l else t p b

/-- The rows of the others stay as they are. -/
@[simp] theorem setRange_of_ne {t : LockTable P} {p q : P} (h : q ≠ p) (l : Option LockKind)
    (start len : ℕ) : setRange t p l start len q = t q := by
  simp [setRange, h]

/-- In its own row, a process changes the range. -/
theorem setRange_self (t : LockTable P) (p : P) (l : Option LockKind) (start len b : ℕ) :
    setRange t p l start len p b = if start ≤ b ∧ b < start + len then l else t p b := by
  simp [setRange]

/-- Setting what is already there changes nothing. -/
theorem setRange_eq_self {t : LockTable P} {p : P} {l : Option LockKind} {start len : ℕ}
    (h : ∀ i, i < len → t p (start + i) = l) : setRange t p l start len = t := by
  ext q : 1
  by_cases hq : q = p
  · subst hq
    ext b : 1
    rw [setRange_self]
    split
    · rename_i hb
      rw [← h (b - start) (by omega), Nat.add_sub_cancel' hb.1]
    · rfl
  · exact setRange_of_ne hq l start len

/-- `fcntl(fd, F_SETLK, …)` with a read or write lock; `none` is the return value `-1`. -/
def setlk [Fintype P] (t : LockTable P) (p : P) (k : LockKind) (start len : ℕ) :
    Option (LockTable P) :=
  if Grantable t p k start len then some (setRange t p (some k) start len) else none

/-- `fcntl(fd, F_SETLK, …)` with `F_UNLCK`; it always succeeds. -/
def unlock (t : LockTable P) (p : P) (start len : ℕ) : LockTable P :=
  setRange t p none start len

/-- The kernel drops every lock of a process that terminates. -/
def dropAll (t : LockTable P) (p : P) : LockTable P := Function.update t p fun _ => none

/-! ### Mutual exclusion of the table -/

/-- No byte is locked by two processes with conflicting locks. -/
def Compatible (t : LockTable P) : Prop :=
  ∀ p q b, p ≠ q → t p b = some .write → t q b = none

/-- A lock that is granted is set on its range. -/
theorem setlk_eq_some [Fintype P] {t t' : LockTable P} {p : P} {k : LockKind} {start len : ℕ} :
    setlk t p k start len = some t' ↔
      Grantable t p k start len ∧ t' = setRange t p (some k) start len := by
  unfold setlk
  split
  · rename_i h
    simp [h, eq_comm]
  · rename_i h
    simp [h]

/-- A lock that is not granted changes nothing. -/
theorem setlk_eq_none [Fintype P] {t : LockTable P} {p : P} {k : LockKind} {start len : ℕ} :
    setlk t p k start len = none ↔ ¬ Grantable t p k start len := by
  unfold setlk
  split <;> simp_all

/-- A grantable request keeps the table compatible. -/
theorem setRange_compatible {t : LockTable P} (h : Compatible t) {p : P} {k : LockKind}
    {start len : ℕ} (hg : Grantable t p k start len) :
    Compatible (setRange t p (some k) start len) := by
  intro q r b hqr hq
  by_cases hqp : q = p
  · subst hqp
    rw [setRange_of_ne (Ne.symm hqr)]
    rw [setRange_self] at hq
    split at hq
    · -- the byte was just write-locked: the request was grantable against `r`
      rename_i hb
      have hr := hg r (Ne.symm hqr) (b - start) (by omega)
      rw [Nat.add_sub_cancel' hb.1] at hr
      cases hq
      cases htr : t r b with
      | none => rfl
      | some l => rw [htr] at hr; simp at hr
    · exact h q r b hqr hq
  · rw [setRange_of_ne hqp] at hq
    by_cases hrp : r = p
    · subst hrp
      rw [setRange_self]
      split
      · -- `q` holds a write lock inside the range: the request was not grantable
        rename_i hb
        have hr := hg q hqp (b - start) (by omega)
        rw [Nat.add_sub_cancel' hb.1, hq] at hr
        simp at hr
      · exact h q r b hqr hq
    · rw [setRange_of_ne hrp]
      exact h q r b hqr hq

/-- Giving locks up keeps the table compatible. -/
theorem unlock_compatible {t : LockTable P} (h : Compatible t) (p : P) (start len : ℕ) :
    Compatible (unlock t p start len) := by
  intro q r b hqr hq
  -- `unlock` grants nothing, so the lock of `q` was there before
  have hq' : t q b = some .write := by
    by_cases hqp : q = p
    · subst hqp
      rw [unlock, setRange_self] at hq
      split at hq
      · cases hq
      · exact hq
    · rwa [unlock, setRange_of_ne hqp] at hq
  have hr := h q r b hqr hq'
  by_cases hrp : r = p
  · subst hrp
    rw [unlock, setRange_self]
    split
    · rfl
    · exact hr
  · rwa [unlock, setRange_of_ne hrp]

/-- To give all locks back keeps the table compatible. -/
theorem dropAll_compatible {t : LockTable P} (h : Compatible t) (p : P) :
    Compatible (dropAll t p) := by
  intro q r b hqr hq
  by_cases hqp : q = p
  · subst hqp
    simp [dropAll] at hq
  · have hq' : t q b = some .write := by simpa [dropAll, hqp] using hq
    by_cases hrp : r = p
    · subst hrp
      simp [dropAll]
    · simpa [dropAll, hrp] using h q r b hqr hq'

omit [DecidableEq P] in
/-- Without locks there is no conflict. -/
theorem compatible_empty : Compatible (fun (_ : P) (_ : ℕ) => none) := by
  intro p q b _ h
  cases h

end SystemProgramming.RecordLock
