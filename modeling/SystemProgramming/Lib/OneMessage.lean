import Mathlib.Data.Fintype.Card
import SystemProgramming.Lib.Network

namespace SystemProgramming.Network

open Transition

/-!
# Channels for one message

A channel that has carried exactly one message when everything is over has never had two in sight:
the message that is still to be sent, the one on its way, and the one that has been read.

* `OneMessage` — a reader that reads once, and processes that hold something back until they send;
* `tokens_le` — messages, readers and holders together never get fewer;
* `OneMessage.unique` / `OneMessage.not_past` — so at most one of them exists before the end.
-/

variable {P C F G M E L : Type*} [DecidableEq P] [DecidableEq C] [DecidableEq F] [DecidableEq G]

/-- Process `r` reads once from `c`, and is `past` then; a process with `K` keeps it until it sends
    to `c`. -/
structure OneMessage (program : P → L → Action C F G M E L) (sound : P → L → Prop) (c : C) (r : P)
    (past : L → Prop) (K : P → L → Prop) : Prop where
  reader : ∀ p l k, program p l = .recv c k → p = r
  reads : ∀ l k, program r l = .recv c k → ¬ past l ∧ ∀ m, past (k m)
  stable : Stable program r past
  holds : ∀ p l l', sound p l → K p l → (program p l).LeadsTo l' →
    K p l' ∨ ∃ m l'', program p l = .send c m l''

open Classical in
/-- Everything that is or will be a message of `c`. -/
noncomputable def tokens [Fintype P] (c : C) (r : P) (past : L → Prop) (K : P → L → Prop)
    (s : State P C F G M E L) : ℕ :=
  (s.chan c).length + (if past (s.loc r) then 1 else 0) +
    (Finset.univ.filter fun p => K p (s.loc p)).card

theorem ite_le_ite {a b : Prop} [Decidable a] [Decidable b] (h : a → b) :
    (if a then 1 else 0) ≤ if b then 1 else 0 := by
  by_cases ha : a
  · rw [if_pos ha, if_pos (h ha)]
  · rw [if_neg ha]
    exact Nat.zero_le _

section Count

variable [Fintype P] {K : P → L → Prop} {loc : P → L} {p : P} {l : L}

open Classical in
/-- A step of `p` that keeps `K` loses nobody. -/
theorem card_le_of_keeps (h : K p (loc p) → K p l) :
    (Finset.univ.filter fun q => K q (loc q)).card ≤
      (Finset.univ.filter fun q => K q (Function.update loc p l q)).card := by
  apply Finset.card_le_card
  intro q hq
  simp only [Finset.mem_filter, Finset.mem_univ, true_and] at hq ⊢
  by_cases hqp : q = p
  · subst hqp
    rw [Function.update_self]
    exact h hq
  · rwa [Function.update_of_ne hqp]

open Classical in
/-- A step of `p` loses at most `p`. -/
theorem card_le_succ (K : P → L → Prop) (loc : P → L) (p : P) (l : L) :
    (Finset.univ.filter fun q => K q (loc q)).card ≤
      (Finset.univ.filter fun q => K q (Function.update loc p l q)).card + 1 := by
  refine le_trans (Finset.card_le_card fun q hq => ?_) (Finset.card_insert_le p _)
  simp only [Finset.mem_insert, Finset.mem_filter, Finset.mem_univ, true_and] at hq ⊢
  by_cases hqp : q = p
  · exact .inl hqp
  · rw [Function.update_of_ne hqp]
    exact .inr hq

end Count

variable [Fintype P] {program : P → L → Action C F G M E L} {sound : P → L → Prop} {c : C} {r : P}
variable {past : L → Prop} {K : P → L → Prop} {s s' t : State P C F G M E L} {p q : P}

open Classical in
/-- One step loses none of them. -/
theorem OneMessage.tokens_step (h : OneMessage program sound c r past K)
    (hs : sound p (s.loc p)) (hstep : step program s p = some s') :
    tokens c r past K s ≤ tokens c r past K s' := by
  have hpast : (if past (s.loc r) then 1 else 0) ≤ if past (s'.loc r) then 1 else 0 :=
    ite_le_ite (h.stable.step hstep)
  obtain ⟨x, l, hx, rfl⟩ := step_eq_some.mp hstep
  have hsucc := card_le_succ K s.loc p l
  have hkeep (hK : K p (s.loc p)) := h.holds p (s.loc p) l hs hK (Action.leadsTo_of_effect hx)
  -- only the sender of a message can stop holding one
  have hcard (hsend : ¬ ∃ m l', program p (s.loc p) = .send c m l') : _ ≤ _ :=
    card_le_of_keeps fun hK : K p (s.loc p) => (hkeep hK).resolve_right hsend
  unfold tokens
  dsimp only at hpast ⊢
  cases hact : program p (s.loc p) with
  | send c' m l' =>
    rw [hact] at hx hcard
    cases hx
    dsimp only
    by_cases hc : c' = c
    · subst hc
      rw [Function.update_self, List.length_append, List.length_singleton]
      omega
    · have hcard := hcard (by simp [hc])
      rw [Function.update_of_ne (Ne.symm hc)]
      omega
  | recv c' k =>
    rw [hact] at hx hcard
    have hcard := hcard (by simp)
    obtain ⟨m, ms, hcons, rfl, rfl⟩ := effect_recv.mp hx
    dsimp only
    by_cases hc : c' = c
    · -- the reader takes the message
      subst hc
      obtain rfl := h.reader p _ k hact
      obtain ⟨hnot, hnow⟩ := h.reads _ k hact
      have hnow : past (Function.update s.loc p (k m) p) := by
        rw [Function.update_self]
        exact hnow m
      rw [Function.update_self, hcons, List.length_cons, if_neg hnot, if_pos hnow]
      omega
    · rw [Function.update_of_ne (Ne.symm hc)]
      omega
  | raise f l' =>
    rw [hact] at hx hcard
    have hcard := hcard (by simp)
    cases hx
    dsimp only
    omega
  | await f l' =>
    rw [hact] at hx hcard
    have hcard := hcard (by simp)
    obtain ⟨-, rfl, rfl⟩ := effect_await.mp hx
    omega
  | write g e l' =>
    rw [hact] at hx hcard
    have hcard := hcard (by simp)
    cases hx
    dsimp only
    omega
  | halt =>
    rw [hact] at hx
    cases hx

omit [DecidableEq P] [DecidableEq C] [DecidableEq F] [DecidableEq G] in
open Classical in
/-- When everything is over, there is at most the one that has been read. -/
theorem tokens_end (ht : t.chan c = []) (hK : ∀ p, ¬ K p (t.loc p)) (r : P) (past : L → Prop) :
    tokens c r past K t ≤ 1 := by
  have hnone : (Finset.univ.filter fun p => K p (t.loc p)) = ∅ :=
    Finset.filter_eq_empty_iff.mpr fun p _ => hK p
  unfold tokens
  rw [ht, List.length_nil, hnone, Finset.card_empty]
  split_ifs <;> omega

variable (hsound : ∀ p, Stable program p (sound p))
include hsound

/-- **Messages, readers and holders together never get fewer.** -/
theorem OneMessage.tokens_le (h : OneMessage program sound c r past K)
    (hs : ∀ q, sound q (s.loc q)) (hreach : Reachable (step program) s t) :
    tokens c r past K s ≤ tokens c r past K t := by
  refine (hreach.invariant (I := fun u => (∀ q, sound q (u.loc q)) ∧
    tokens c r past K s ≤ tokens c r past K u) ?_ ⟨hs, le_rfl⟩).2
  rintro u p u' ⟨hu, hle⟩ hstep
  exact ⟨fun q => (hsound q).step hstep (hu q), hle.trans (h.tokens_step (hu p) hstep)⟩

section End

variable (ht : t.chan c = []) (hK : ∀ p, ¬ K p (t.loc p))
include ht hK

open Classical in
/-- Two processes cannot both hold a message back. -/
theorem OneMessage.unique (h : OneMessage program sound c r past K)
    (hs : ∀ q, sound q (s.loc q)) (hreach : Reachable (step program) s t)
    (hp : K p (s.loc p)) (hq : K q (s.loc q)) : p = q := by
  by_contra hne
  have hle := (h.tokens_le hsound hs hreach).trans (tokens_end ht hK r past)
  have htwo : 1 < (Finset.univ.filter fun p => K p (s.loc p)).card :=
    Finset.one_lt_card.mpr ⟨p, by simp [hp], q, by simp [hq], hne⟩
  unfold tokens at hle
  omega

open Classical in
/-- Nobody holds a message back when the reader has read one. -/
theorem OneMessage.not_past (h : OneMessage program sound c r past K)
    (hs : ∀ q, sound q (s.loc q)) (hreach : Reachable (step program) s t)
    (hp : K p (s.loc p)) : ¬ past (s.loc r) := by
  intro hpast
  have hle := (h.tokens_le hsound hs hreach).trans (tokens_end ht hK r past)
  have hone : 0 < (Finset.univ.filter fun p => K p (s.loc p)).card :=
    Finset.card_pos.mpr ⟨p, by simp [hp]⟩
  unfold tokens at hle
  rw [if_pos hpast] at hle
  omega

end End

end SystemProgramming.Network
