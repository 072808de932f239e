import SystemProgramming.Lib.Network

namespace SystemProgramming.Network

open Transition

/-!
# Requests and replies

A client sends a request on one channel and waits for the reply on another one; a server takes the
request, holds it, and replies.  Whatever else the two do, and whatever the other processes do, a
message of theirs is at one place at a time.

* `Edge R pending up held down` — the five places where a request can be, and what one of them says
  about the others;
* `Link` — what client and server have to do for it;
* `Link.step` — one step of the network keeps `Edge`.
-/

/-- What a server has for a client. -/
inductive Held (M : Type*)
  | free
  | request (m : M)
  | reply (m : M)

/-- The places of a request: nowhere, on its way, held, answered, and on the way back.  `R` relates
    a request to its reply. -/
inductive Edge {M : Type*} (R : M → M → Prop) : Option M → List M → Held M → List M → Prop
  | idle : Edge R none [] .free []
  | sent (m : M) : Edge R (some m) [m] .free []
  | held (m : M) : Edge R (some m) [] (.request m) []
  | answered {m m' : M} (h : R m m') : Edge R (some m) [] (.reply m') []
  | replied {m m' : M} (h : R m m') : Edge R (some m) [] .free [m']

section Edge

variable {M : Type*} {R : M → M → Prop} {x : Option M} {ms ms' : List M} {y : Held M} {m : M}

/-! What one of the places says about the others. -/

theorem Edge.of_up (h : Edge R x ms y ms') (hm : m ∈ ms) : x = some m := by
  cases h with
  | sent m' => rw [List.mem_singleton.mp hm]
  | idle | held _ | answered _ | replied _ => cases hm

theorem Edge.of_request (h : Edge R x ms y ms') (hy : y = .request m) : x = some m ∧ ms' = [] := by
  subst hy
  cases h
  exact ⟨rfl, rfl⟩

theorem Edge.of_reply (h : Edge R x ms y ms') (hy : y = .reply m) :
    (∃ m₀, x = some m₀ ∧ R m₀ m) ∧ ms' = [] := by
  subst hy
  cases h with
  | answered hR => exact ⟨⟨_, rfl, hR⟩, rfl⟩

theorem Edge.of_down (h : Edge R x ms y ms') (hm : m ∈ ms') : ∃ m₀, x = some m₀ ∧ R m₀ m := by
  cases h with
  | replied hR =>
    rw [List.mem_singleton.mp hm]
    exact ⟨_, rfl, hR⟩
  | idle | sent _ | held _ | answered _ => cases hm

end Edge

/-- What a server may do with what it holds. -/
inductive Serves {M : Type*} (R : M → M → Prop) : Held M → Held M → Prop
  | same (x : Held M) : Serves R x x
  | answer {m m' : M} (h : R m m') : Serves R (.request m) (.reply m')

variable {P C F G M E L : Type*} [DecidableEq P] [DecidableEq C] [DecidableEq F] [DecidableEq G]

/-- The client `c` and the server `b` use the channels `up` and `down` for requests and replies, and
    nobody else does. -/
structure Link (program : P → L → Action C F G M E L) (c b : P) (up down : C)
    (pending : L → Option M) (held : L → Held M) : Prop where
  ne : c ≠ b
  up_ne : up ≠ down
  ask : ∀ p l m l', program p l = .send up m l' →
    p = c ∧ pending l = none ∧ pending l' = some m
  accept : ∀ p l k, program p l = .recv up k →
    p = b ∧ held l = .free ∧ ∀ m, held (k m) = .request m
  answer : ∀ p l m l', program p l = .send down m l' →
    p = b ∧ held l = .reply m ∧ held l' = .free
  take : ∀ p l k, program p l = .recv down k →
    p = c ∧ (∃ m, pending l = some m) ∧ ∀ m, pending (k m) = none
  keep : ∀ l l', (program c l).LeadsTo l' → pending l' = pending l ∨
    (∃ m, program c l = .send up m l') ∨ ∃ k, program c l = .recv down k

variable {program : P → L → Action C F G M E L} {c b p : P} {up down ch : C} {R : M → M → Prop}
variable {pending : L → Option M} {held : L → Held M} {s s' : State P C F G M E L}

/-- The action uses the channel. -/
def Action.Uses (a : Action C F G M E L) (ch : C) : Prop :=
  (∃ m l, a = .send ch m l) ∨ ∃ k, a = .recv ch k

omit [DecidableEq P] in
/-- A channel that is not used stays as it is. -/
theorem effect_chan {a : Action C F G M E L} {x y : Shared C F G M E} {l : L}
    (h : a.effect x = some (y, l)) (hch : ¬ a.Uses ch) : y.chan ch = x.chan ch := by
  -- `send` and `recv` change their own channel, the other actions none
  cases a with
  | send ch' m l' =>
    cases h
    refine Function.update_of_ne ?_ ..
    rintro rfl
    exact hch (.inl ⟨m, l, rfl⟩)
  | recv ch' k =>
    obtain ⟨m, ms, -, rfl, rfl⟩ := effect_recv.mp h
    refine Function.update_of_ne ?_ ..
    rintro rfl
    exact hch (.inr ⟨k, rfl⟩)
  | raise f l' | write g e l' =>
    cases h
    rfl
  | await f l' =>
    obtain ⟨-, rfl, rfl⟩ := effect_await.mp h
    rfl
  | halt => cases h

/-- The server does something with what it holds. -/
theorem Edge.serve {x : Option M} {ms ms' : List M} {y z : Held M} (h : Edge R x ms y ms')
    (hs : Serves R y z) : Edge R x ms z ms' := by
  cases hs with
  | same => exact h
  | answer hR =>
    cases h
    exact .answered hR

/-- The edge of a link in a state. -/
def Link.EdgeAt (R : M → M → Prop) (c b : P) (up down : C) (pending : L → Option M)
    (held : L → Held M) (s : State P C F G M E L) : Prop :=
  Edge R (pending (s.loc c)) (s.chan up) (held (s.loc b)) (s.chan down)

/-- **One step of the network** keeps the request at one place. -/
theorem Link.step (h : Link program c b up down pending held)
    (hedge : Link.EdgeAt R c b up down pending held s) (hstep : step program s p = some s')
    (hserve : p = b → ¬ (program b (s.loc b)).Uses up → ¬ (program b (s.loc b)).Uses down →
      Serves R (held (s.loc b)) (held (s'.loc b))) :
    Link.EdgeAt R c b up down pending held s' := by
  obtain ⟨x, l, hx, rfl⟩ := step_eq_some.mp hstep
  have hlead := Action.leadsTo_of_effect hx
  unfold Link.EdgeAt at hedge ⊢
  dsimp only at hserve ⊢
  by_cases hup : (program p (s.loc p)).Uses up
  · have hdown : x.chan down = s.chan down := by
      apply effect_chan hx
      rintro (⟨m, l', heq⟩ | ⟨k, heq⟩)
      · rcases hup with ⟨m', l'', heq'⟩ | ⟨k', heq'⟩ <;> rw [heq'] at heq <;> cases heq
        exact h.up_ne rfl
      · rcases hup with ⟨m', l'', heq'⟩ | ⟨k', heq'⟩ <;> rw [heq'] at heq <;> cases heq
        exact h.up_ne rfl
    rw [hdown]
    rcases hup with ⟨m, l', heq⟩ | ⟨k, heq⟩
    · -- the client sends its request
      obtain ⟨rfl, hnone, hsome⟩ := h.ask _ _ _ _ heq
      rw [heq] at hx
      cases hx
      rw [Function.update_self, Function.update_of_ne h.ne.symm, hsome]
      rw [hnone] at hedge
      generalize s.chan up = ms, held (s.loc b) = y, s.chan down = ms' at hedge
      simp only [Function.update_self]
      cases hedge
      exact .sent m
    · -- the server takes it
      obtain ⟨rfl, hfree, hreq⟩ := h.accept _ _ _ heq
      rw [heq] at hx
      obtain ⟨m, ms, hcons, rfl, rfl⟩ := effect_recv.mp hx
      rw [Function.update_self, Function.update_of_ne h.ne, hreq]
      simp only [Function.update_self]
      rw [hcons, hfree] at hedge
      generalize pending (s.loc c) = x, s.chan down = ms' at hedge ⊢
      cases hedge
      exact .held m
  · have hupchan : x.chan up = s.chan up := effect_chan hx hup
    rw [hupchan]
    by_cases hdown : (program p (s.loc p)).Uses down
    · rcases hdown with ⟨m, l', heq⟩ | ⟨k, heq⟩
      · -- the server replies
        obtain ⟨rfl, hreply, hfree⟩ := h.answer _ _ _ _ heq
        rw [heq] at hx
        cases hx
        rw [Function.update_self, Function.update_of_ne h.ne, hfree]
        simp only [Function.update_self]
        rw [hreply] at hedge
        generalize pending (s.loc c) = x, s.chan up = ms, s.chan down = ms' at hedge ⊢
        cases hedge with
        | answered hR => exact .replied hR
      · -- the client takes the reply
        obtain ⟨rfl, ⟨m, hsome⟩, hnone⟩ := h.take _ _ _ heq
        rw [heq] at hx
        obtain ⟨m', ms, hcons, rfl, rfl⟩ := effect_recv.mp hx
        rw [Function.update_self, Function.update_of_ne h.ne.symm, hnone]
        simp only [Function.update_self]
        rw [hcons] at hedge
        generalize pending (s.loc p) = x, s.chan up = ms, held (s.loc b) = y at hedge ⊢
        cases hedge with
        | replied hR => exact .idle
    · rw [effect_chan hx hdown]
      by_cases hpb : p = b
      · subst hpb
        rw [Function.update_of_ne h.ne]
        exact hedge.serve (hserve rfl hup hdown)
      · rw [Function.update_of_ne (Ne.symm hpb)]
        by_cases hpc : p = c
        · subst hpc
          rw [Function.update_self]
          rcases h.keep _ _ hlead with heq | ⟨m, heq⟩ | ⟨k, heq⟩
          · rw [heq]
            exact hedge
          · exact absurd (.inl ⟨m, l, heq⟩) hup
          · exact absurd (.inr ⟨k, heq⟩) hdown
        · rw [Function.update_of_ne (Ne.symm hpc)]
          exact hedge

end SystemProgramming.Network
