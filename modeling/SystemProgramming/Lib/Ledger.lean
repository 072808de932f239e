import SystemProgramming.Lib.Network

namespace SystemProgramming.Network

open Transition

/-!
# Networks — channels with two logs

The sender of a channel writes a line to its log before it sends a message, and the receiver writes
a line to its own log after it has received one.

* `Ledger` — the two processes do so, and nobody else uses the channel or writes such lines;
* `Ledger.balanced` — in every reachable state the lines of the sender are those of the receiver,
  then the messages that are under way.
-/

variable {P C F G M E L D : Type*} [DecidableEq P] [DecidableEq C] [DecidableEq F] [DecidableEq G]

/-- What an action appends to a channel. -/
def Action.sent (a : Action C F G M E L) (c : C) : List M :=
  match a with
  | .send c' m _ => if c' = c then [m] else []
  | _ => []

/-- The action reads from a channel. -/
def Action.Reads (a : Action C F G M E L) (c : C) : Prop := ∃ k, a = .recv c k

theorem effect_sent {a : Action C F G M E L} {x y : Shared C F G M E} {l : L} {c : C}
    (h : a.effect x = some (y, l)) (hreads : ¬ a.Reads c) : y.chan c = x.chan c ++ a.sent c := by
  -- one case an action: only `send` appends, and only `recv` takes away
  cases a with
  | send c' m l' =>
    cases h
    by_cases hc : c' = c
    · subst hc
      simp [Action.sent]
    · simp [Action.sent, hc, Function.update_of_ne (Ne.symm hc)]
  | recv c' k =>
    obtain ⟨m, ms, -, rfl, rfl⟩ := effect_recv.mp h
    have hc : c ≠ c' := by
      rintro rfl
      exact hreads ⟨k, rfl⟩
    simp [Action.sent, Function.update_of_ne hc]
  | raise f l' | write g e l' =>
    cases h
    simp [Action.sent]
  | await f l' =>
    obtain ⟨-, rfl, rfl⟩ := effect_await.mp h
    simp [Action.sent]
  | halt => cases h

/-- The channel `c` from `p` to `q` is logged: `p` writes `toLine`s to `g`, and `q` writes
    `fromLine`s to `h`.  What stands between line and message is told by the local states:
    `unsent` for `p`, `unlogged` for `q`. -/
structure Ledger (program : P → L → Action C F G M E L) (J : P → L → Prop) (c : C) (p q : P)
    (g h : G) (data : M → D) (toLine fromLine : E → Option D) (unsent unlogged : L → List D) :
    Prop where
  ne : p ≠ q
  outgoing : ∀ l l', J p l → (program p l).LeadsTo l' →
    unsent l ++ ((program p l).written g).filterMap toLine =
      ((program p l).sent c).map data ++ unsent l'
  incoming : ∀ l l', J q l → ¬ (program q l).Reads c → (program q l).LeadsTo l' →
    unlogged l = ((program q l).written h).filterMap fromLine ++ unlogged l'
  receive : ∀ l k m, J q l → program q l = .recv c k → unlogged (k m) = unlogged l ++ [data m]
  sender : ∀ r l, J r l → r ≠ p →
    (program r l).sent c = [] ∧ ((program r l).written g).filterMap toLine = []
  receiver : ∀ r l, J r l → r ≠ q →
    ¬ (program r l).Reads c ∧ ((program r l).written h).filterMap fromLine = []

namespace Ledger

variable {program : P → L → Action C F G M E L} {J : P → L → Prop} {c : C} {p q : P} {g h : G}
variable {data : M → D} {toLine fromLine : E → Option D} {unsent unlogged : L → List D}
variable {s s' : State P C F G M E L}

/-- The lines of the sender are those of the receiver, then what the receiver has not logged, what
    is in the channel, and what the sender has not sent. -/
def Balanced (c : C) (p q : P) (g h : G) (data : M → D) (toLine fromLine : E → Option D)
    (unsent unlogged : L → List D) (s : State P C F G M E L) : Prop :=
  (s.file g).filterMap toLine =
    (s.file h).filterMap fromLine ++ unlogged (s.loc q) ++ (s.chan c).map data ++ unsent (s.loc p)

/-- **A step keeps the balance.** -/
theorem step (led : Ledger program J c p q g h data toLine fromLine unsent unlogged) {r : P}
    (hJ : J r (s.loc r)) (hs : Network.step program s r = some s')
    (hb : Balanced c p q g h data toLine fromLine unsent unlogged s) :
    Balanced c p q g h data toLine fromLine unsent unlogged s' := by
  obtain ⟨x, l, hx, rfl⟩ := step_eq_some.mp hs
  have hlead := Action.leadsTo_of_effect hx
  unfold Balanced at hb ⊢
  simp only [effect_written hx, List.filterMap_append, hb]
  by_cases hp : r = p
  · -- the sender logs and sends
    subst hp
    obtain ⟨hreads, hlog⟩ := led.receiver r _ hJ led.ne
    rw [Function.update_self, Function.update_of_ne led.ne.symm, effect_sent hx hreads, hlog,
      List.map_append]
    simp only [List.append_assoc, List.append_nil, led.outgoing _ _ hJ hlead]
  · obtain ⟨hsent, hline⟩ := led.sender r _ hJ hp
    rw [Function.update_of_ne (Ne.symm hp), hline, List.append_nil]
    by_cases hq : r = q
    · subst hq
      rw [Function.update_self]
      by_cases hreads : (program r (s.loc r)).Reads c
      · -- the receiver takes the first message; it will be logged next
        obtain ⟨k, hk⟩ := hreads
        rw [hk] at hx
        obtain ⟨m, ms, hcons, rfl, rfl⟩ := effect_recv.mp hx
        rw [led.receive _ k m hJ hk, hcons]
        simp [hk, Action.written]
      · rw [effect_sent hx hreads, hsent, List.append_nil, led.incoming _ _ hJ hreads hlead]
        simp only [List.append_assoc]
    · obtain ⟨hreads, hlog⟩ := led.receiver r _ hJ hq
      rw [Function.update_of_ne (Ne.symm hq), effect_sent hx hreads, hsent, hlog]
      simp only [List.append_nil]

/-- **The two logs agree** in every reachable state, up to what is under way. -/
theorem balanced (led : Ledger program J c p q g h data toLine fromLine unsent unlogged)
    {s₀ : State P C F G M E L}
    (hJ : ∀ s r, Reachable (Network.step program) s₀ s → J r (s.loc r))
    (hstart : Balanced c p q g h data toLine fromLine unsent unlogged s₀)
    (hs : Reachable (Network.step program) s₀ s) :
    Balanced c p q g h data toLine fromLine unsent unlogged s := by
  have hboth := hs.invariant
    (I := fun s => Reachable (Network.step program) s₀ s ∧
      Balanced c p q g h data toLine fromLine unsent unlogged s)
    (fun s r s' hI hstep => ⟨hI.1.tail hstep, led.step (hJ s r hI.1) hstep hI.2⟩)
    ⟨.refl _, hstart⟩
  exact hboth.2

end Ledger

end SystemProgramming.Network
