import SystemProgramming.Championship.Sound
import SystemProgramming.Championship.Path
import SystemProgramming.Lib.Flags

namespace SystemProgramming.Championship

open Network Transition Ancestor

/-!
# Championship — who has exited

* `exit_announces` — `waitpid` returns for a process that has exited, and for no other;
* `waited_knows` — a battle waits for both of its children before it exits;
* `all_exited` — so that nobody is left when the root has exited.
-/

/-- The process has exited. -/
def Local.exited : Local → Bool
  | .battle (.exited _) _ _ => true
  | .player .exited _ _ _ => true
  | _ => false

/-- The battle has waited for its child on `side`. -/
def BattlePc.waited (side : Side) : BattlePc → Bool
  | .readChild w | .logChild w | .logUp w | .sendUp w | .readParent w | .logParent w | .logDown w
  | .sendDown w | .waitWinner w => side = w.other
  | .reapLoser w => side = w
  | .exit _ | .exited _ => true
  | _ => false

/-- The battle has waited for its child on this side. -/
def Local.waited (side : Side) : Local → Bool
  | .battle pc _ _ => pc.waited side
  | .player _ _ _ _ => false

variable {rows : Fin 8 → Row} {s : Tournament} {b : Battle} {i : Fin 15} {p q : Proc}
variable {l l' : Local} {f : Flag} {side w : Side}

/-- A process that has exited does nothing. -/
theorem program_exited (h : l.exited = true) : program rows p l = .halt := by
  cases p with
  | battle b =>
    cases l with
    | battle pc left right =>
      cases pc <;> first | rfl | cases h
    | player pc P hp logp => rfl
  | player i =>
    cases l with
    | battle pc left right => rfl
    | player pc P hp logp =>
      cases pc <;> first | rfl | cases h

theorem battle_raises {pc : BattlePc} {left right : Status}
    (h : battleProgram b pc left right = .raise (.exited p) l') :
    p = .battle b ∧ l'.exited = true := by
  cases pc with
  | exit w =>
    cases h
    exact ⟨rfl, rfl⟩
  | fork side | logRead side | write side => cases side <;> cases h
  | _ => cases h

theorem player_raises {pc : PlayerPc} {P : Status} {hp logp : ℤ}
    (h : playerProgram rows i pc P hp logp = .raise (.exited p) l') :
    p = .player i ∧ l'.exited = true := by
  cases pc with
  | exit =>
    cases h
    exact ⟨rfl, rfl⟩
  | _ => cases h

/-- A process announces its exit, and does nothing any more. -/
theorem exit_announces (rows : Fin 8 → Row) (p : Proc) :
    Announces (program rows) p (.exited p) (fun l => l.exited = true) where
  stable l l' h hlead := by
    rw [program_exited h] at hlead
    cases hlead
  -- the flag of `p` is raised by `p` alone, in its last action
  raises q l l' h := by
    cases q with
    | battle b =>
      cases l with
      | battle pc left right =>
        obtain ⟨rfl, hexited⟩ := battle_raises h
        exact ⟨rfl, hexited⟩
      | player pc P hp logp => cases h
    | player i =>
      cases l with
      | battle pc left right => cases h
      | player pc P hp logp =>
        obtain ⟨rfl, hexited⟩ := player_raises h
        exact ⟨rfl, hexited⟩

theorem side_cases (side w : Side) : side = w ∨ side = w.other := by
  revert side w
  decide

theorem waited_passing {left right : Status} (h : (passing w left right).waited side = true) :
    side = w.other := by
  rw [passing_eq, relayed] at h
  split at h
  · exact of_decide_eq_true h
  · exact of_decide_eq_true h

/-- A battle waits for its children. -/
theorem waited_knows (rows : Fin 8 → Row) (b : Battle) (side : Side) :
    Knows (program rows) (.battle b) (.exited (child b side)) (fun l => l.waited side = true) := by
  intro l l' hlead hwaited
  cases l with
  | player pc P hp logp => cases hlead
  | battle pc left right =>
    -- only the waits learn that a child has exited, and the later states remember it
    cases pc with
    | waitLoser w =>
      cases hlead
      obtain rfl := waited_passing hwaited
      exact .inr rfl
    | sendDown w =>
      cases hlead
      exact .inl (decide_eq_true (waited_passing hwaited))
    | waitWinner w =>
      cases hlead
      rcases side_cases side w with rfl | rfl
      · exact .inr rfl
      · exact .inl (decide_eq_true rfl)
    | reapWinner w =>
      cases hlead
      obtain rfl : side = w := of_decide_eq_true hwaited
      exact .inr rfl
    | reapLoser w =>
      cases hlead
      rcases side_cases side w with rfl | rfl
      · exact .inl (decide_eq_true rfl)
      · exact .inr rfl
    | exit w =>
      cases hlead
      exact .inl rfl
    | logChild w | logUp w | sendUp w | logParent w | logDown w =>
      cases hlead
      exact .inl hwaited
    | readChild w | readParent w =>
      obtain ⟨m, rfl⟩ := hlead
      exact .inl hwaited
    | exited w => cases hlead
    | read side' =>
      obtain ⟨m, rfl⟩ := hlead
      cases hwaited
    | fork side' | logRead side' => cases side' <;> cases hlead <;> cases hwaited
    | write side' =>
      cases side' <;> cases hlead
      · cases hwaited
      · -- a round that ends has waited for no child yet
        exfalso
        revert hwaited
        unfold roundEnd
        split_ifs <;> simp [Local.waited, BattlePc.waited]
    | unborn | logWrite side' | print w =>
      cases hlead
      cases hwaited

variable (hs : Reachable (step (program rows)) start s)
include hs

theorem exited_of_flag (h : s.flag (.exited p) = true) : (s.loc p).exited = true := by
  refine (exit_announces rows p).reachable (fun h => ?_) hs h
  simp [start] at h

/-- A battle that has waited for a child has outlived it. -/
theorem exited_of_waited (h : (s.loc (.battle b)).waited side = true) :
    (s.loc (child b side)).exited = true :=
  exited_of_flag hs ((waited_knows rows b side).reachable (fun h => by cases h) hs h)

/-- A process exits after its children. -/
theorem exited_of_parent (h : parentOf q = some p) (hp : (s.loc p).exited = true) :
    (s.loc q).exited = true := by
  obtain ⟨b, side, rfl, rfl⟩ := eq_child_of_parentOf h
  apply exited_of_waited hs
  cases hloc : s.loc (.battle b) with
  | battle pc left right =>
    rw [hloc] at hp
    cases pc with
    | exited w => rfl
    | _ => cases hp
  | player pc P hp' logp =>
    have hsound := sound_of_reachable hs (.battle b)
    rw [hloc] at hsound
    exact hsound.elim

omit hs in
/-- Every process is a descendant of the root. -/
theorem under_root (q : Proc) : Under (.battle .A) q := by
  generalize hn : 7 - rank q = n
  induction n using Nat.strong_induction_on generalizing q with
  | _ n ih =>
    cases hup : parentOf q with
    | none =>
      have hroot : ∀ q, parentOf q = none → q = .battle .A := by decide
      rw [hroot q hup]
      exact .refl
    | some p =>
      have hlt := rank_lt_of_parentOf q p hup
      have hle := rank_le p
      exact .step hup (ih (7 - rank p) (by omega) p rfl)

/-- **The root exits last.** -/
theorem all_exited (hroot : (s.loc (.battle .A)).exited = true) (q : Proc) :
    (s.loc q).exited = true :=
  (under_root q).closed (S := fun q => (s.loc q).exited = true)
    (fun _ _ hup => exited_of_parent hs hup) hroot

end SystemProgramming.Championship
