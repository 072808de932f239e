import Mathlib.Data.List.Perm.Basic

namespace SystemProgramming.Knockout

/-!
# Knockout tournaments

A bracket is a binary tree with the entrants at its leaves and a match at each inner node.  Whoever
loses a match is out.

* `Played winner loser name t i` — all matches of `t` have been played, and `i` is left;
* `Played.perm` — everybody but `i` has lost exactly once;
* `Played.ne` — nobody plays against himself, when the entrants are different.
-/

/-- A bracket with entrants in `α` and matches in `β`. -/
inductive Tree (β α : Type*)
  | leaf (x : α)
  | node (b : β) (left right : Tree β α)

variable {β α ι : Type*}

/-- The entrants. -/
def Tree.leaves : Tree β α → List α
  | leaf x => [x]
  | node _ left right => left.leaves ++ right.leaves

/-- The matches. -/
def Tree.nodes : Tree β α → List β
  | leaf _ => []
  | node b left right => b :: (left.nodes ++ right.nodes)

/-- The matches of `t` have been played, with these winners and losers, and `i` is left. -/
inductive Played (winner loser : β → ι) (name : α → ι) : Tree β α → ι → Prop
  | leaf (x : α) : Played winner loser name (.leaf x) (name x)
  | left {b : β} {l r : Tree β α} (hl : Played winner loser name l (winner b))
      (hr : Played winner loser name r (loser b)) :
      Played winner loser name (.node b l r) (winner b)
  | right {b : β} {l r : Tree β α} (hl : Played winner loser name l (loser b))
      (hr : Played winner loser name r (winner b)) :
      Played winner loser name (.node b l r) (winner b)

variable {winner loser : β → ι} {name : α → ι} {t : Tree β α} {i : ι}

/-- **Everybody but the winner loses exactly once.** -/
theorem Played.perm (h : Played winner loser name t i) :
    (t.leaves.map name).Perm (i :: t.nodes.map loser) := by
  induction h with
  | leaf x => exact .refl _
  | @left b l r _ _ ihl ihr =>
    simp only [Tree.leaves, Tree.nodes, List.map_append, List.map_cons]
    apply (ihl.append ihr).trans
    rw [List.cons_append]
    exact List.perm_middle.cons _
  | @right b l r _ _ ihl ihr =>
    simp only [Tree.leaves, Tree.nodes, List.map_append, List.map_cons]
    apply (ihl.append ihr).trans
    rw [List.cons_append]
    exact (List.perm_middle.cons _).trans (.swap ..)

/-- The winner is one of the entrants. -/
theorem Played.mem (h : Played winner loser name t i) : i ∈ t.leaves.map name :=
  h.perm.mem_iff.mpr List.mem_cons_self

/-- **Nobody plays against himself.** -/
theorem Played.ne (h : Played winner loser name t i) (hnodup : (t.leaves.map name).Nodup)
    {b : β} (hb : b ∈ t.nodes) : winner b ≠ loser b := by
  induction h with
  | leaf x => cases hb
  | @left b' l r hl hr ihl ihr =>
    rw [Tree.leaves, List.map_append, List.nodup_append] at hnodup
    obtain ⟨hnodupl, hnodupr, hdisjoint⟩ := hnodup
    simp only [Tree.nodes, List.mem_cons, List.mem_append] at hb
    rcases hb with rfl | hb | hb
    · -- at `b` itself the two come from different halves of the bracket
      exact hdisjoint _ hl.mem _ hr.mem
    · exact ihl hnodupl hb
    · exact ihr hnodupr hb
  | @right b' l r hl hr ihl ihr =>
    rw [Tree.leaves, List.map_append, List.nodup_append] at hnodup
    obtain ⟨hnodupl, hnodupr, hdisjoint⟩ := hnodup
    simp only [Tree.nodes, List.mem_cons, List.mem_append] at hb
    rcases hb with rfl | hb | hb
    · exact (hdisjoint _ hl.mem _ hr.mem).symm
    · exact ihl hnodupl hb
    · exact ihr hnodupr hb

end SystemProgramming.Knockout
