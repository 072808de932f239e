import SystemProgramming.Championship.Records
import SystemProgramming.Championship.Tournament

namespace SystemProgramming.Championship

open Network Transition

/-!
# Championship — the law of double elimination

What the log files of a completed tournament say about the battles and the players.

* `losers` / `losses` / `participants` — read off the logs of the battles;
* `losers_eq` / `reentries_eq` — the logs of a completed tournament;
* `double_elimination_law` — nobody loses more than twice, and nobody but the two finalists less.
-/

/-- The numbers of the two players of a battle, as its log has them. -/
def participants (s : Tournament) (b : Battle) : List ℤ :=
  (result b (s.file (.log_battle b))).map Prod.fst

/-- The numbers of the players that a battle leaves without hit points, as its log has them. -/
def losers (s : Tournament) (b : Battle) : List ℤ :=
  ((result b (s.file (.log_battle b))).filter fun e => decide (e.2 ≤ 0)).map Prod.fst

/-- How many battles a player has lost. -/
def losses (s : Tournament) (x : ℤ) : ℕ := (battles.flatMap (losers s)).count x

variable {rows : Fin 8 → Row} {s s' t : Tournament} {b : Battle} {p : Proc} {a i : Fin 15} {x : ℤ}
variable {left right : Status}

theorem Valid.inRange (h : Valid rows) : InRange rows := ⟨h.HP, h.ATK⟩

/-! ### The logs of the battles -/

/-- The logs of the battles are those of the places where they stand. -/
theorem recorded_of_reachable (hrows : Valid rows)
    (hs : Reachable (step (program rows)) start s) (b : Battle) :
    (s.loc (.battle b)).Recorded rows b
      ((s.file (.log_battle b)).filterMap (verdict b)) := by
  obtain ⟨t, hpath, ht⟩ := exists_final hrows
  refine (hs.invariant (I := fun s => Reachable (step (program rows)) start s ∧
    (s.loc (.battle b)).Recorded rows b ((s.file (.log_battle b)).filterMap (verdict b)))
    (fun s p s' h hstep => ⟨h.1.tail hstep, ?_⟩) ⟨.refl _, rfl⟩).2
  obtain ⟨hs, h⟩ := h
  have hreach := reachable_final hrows ht hpath hs
  have htraffic := traffic_of_reachable hrows.inRange hs
  obtain ⟨y, l, hy, rfl⟩ := step_eq_some.mp hstep
  have hlead := Action.leadsTo_of_effect hy
  show (Function.update s.loc p l (.battle b)).Recorded rows b
    ((y.file (.log_battle b)).filterMap (verdict b))
  rw [effect_written hy, List.filterMap_append]
  by_cases hp : p = .battle b
  · subst hp
    rw [Function.update_self]
    have hok := htraffic.ok (.battle b)
    -- a request that is held carries the id of the winner of that side
    have hheld (side : Side) (m : Status) (hm : (s.loc (.battle b)).held side = .request m) :
        m.real_player_id = ident rows (child b side) :=
      held_ident ht hreach hrows htraffic (.inl hm)
    generalize s.loc (.battle b) = l₀ at h hlead hok hheld
    cases l₀ with
    | player pc P hp logp => exact h.elim
    | battle pc left right =>
      exact recorded_step hrows.inRange hok hheld h hlead
  · -- nobody else writes to the log
    rw [Function.update_of_ne (Ne.symm hp)]
    have hnone : (program rows p (s.loc p)).written (.log_battle b) = [] := by
      cases hact : program rows p (s.loc p) with
      | write g e l' =>
        apply if_neg
        rintro rfl
        exact hp (writes_of_write hact)
      | _ => rfl
    rw [hnone]
    simpa using h

/-- The end of a battle, as its log has it. -/
theorem decided_of_final (hrows : Valid rows) (hs : Reachable (step (program rows)) start t)
    (ht : Final rows t) (b : Battle) :
    Decided rows b (winnerSide rows b) ((t.file (.log_battle b)).filterMap (verdict b)) := by
  have h := recorded_of_reachable hrows hs b
  obtain ⟨pc, left, right, hloc, hpc⟩ := (ht.result b).won
  rw [hloc] at h
  cases pc with
  | unborn | fork _ | read _ | logRead _ | logWrite _ | write _ => cases hpc
  | _ =>
    obtain ⟨w, hw, hdecided⟩ := h
    cases hpc.symm.trans hw
    exact hdecided

theorem Decided.result_eq {w : Side} {log : List Entry}
    (h : Decided rows b w (log.filterMap (verdict b))) :
    ∃ left right, result b log = [line left, line right] ∧ OneLoser left right ∧
      (pick w.other left right).HP ≤ 0 ∧ left.real_player_id = ident rows (playl b) ∧
      right.real_player_id = ident rows (playr b) := by
  obtain ⟨left, right, hprefix, hrest⟩ := h
  refine ⟨left, right, ?_, hrest⟩
  rw [result]
  exact (List.prefix_iff_eq_take.mp hprefix).symm

/-- **Who has lost a battle**, as its log has it. -/
theorem losers_eq (hrows : Valid rows) (hs : Reachable (step (program rows)) start t)
    (ht : Final rows t) (b : Battle) : losers t b = [loserIdent rows b] := by
  obtain ⟨left, right, hresult, hone, hdead, hidl, hidr⟩ :=
    (decided_of_final hrows hs ht b).result_eq
  rw [losers, hresult, loserIdent]
  cases hw : winnerSide rows b with
  | left =>
    rw [hw] at hdead
    replace hdead : right.HP ≤ 0 := hdead
    -- one loser in the last round: the winner is alive
    have halive : ¬ left.HP ≤ 0 := by
      rcases hone with h | h <;> omega
    simp only [line, List.filter_cons, List.filter_nil, hdead, halive, hidr]
    rfl
  | right =>
    rw [hw] at hdead
    replace hdead : left.HP ≤ 0 := hdead
    have halive : ¬ right.HP ≤ 0 := by
      rcases hone with h | h <;> omega
    simp only [line, List.filter_cons, List.filter_nil, hdead, halive, hidl]
    rfl

theorem participants_eq (hrows : Valid rows) (hs : Reachable (step (program rows)) start t)
    (ht : Final rows t) (b : Battle) :
    participants t b = [ident rows (playl b), ident rows (playr b)] := by
  obtain ⟨left, right, hresult, -, -, hidl, hidr⟩ := (decided_of_final hrows hs ht b).result_eq
  rw [participants, hresult, ← hidl, ← hidr]
  rfl

theorem losses_eq (hrows : Valid rows) (hs : Reachable (step (program rows)) start t)
    (ht : Final rows t) (x : ℤ) : losses t x = (battles.map (loserIdent rows)).count x := by
  rw [losses, funext (losers_eq hrows hs ht), List.map_eq_flatMap]

/-! ### The logs of the players -/

/-- At the end, the agents that have taken over a player are those that stand for it. -/
theorem count_reentries_of_final (hs : Reachable (step (program rows)) start t)
    (ht : Final rows t) (a : Fin 15) (x : ℤ) :
    (reentries (t.file (.log_player x))).count a =
      if (source a).isSome ∧ ident rows (.player a) = x then 1 else 0 := by
  rw [count_reentries hs]
  cases hb : source a with
  -- only an agent takes somebody over
  | none =>
    have hreal : a.val < 8 := by
      by_contra ha
      simpa [hb] using source_isSome a ha
    simp [hreal]
  | some b =>
    have ha : ¬ a.val < 8 := by
      revert hb
      revert a b
      decide
    obtain ⟨pc, P, hp, hloc, hpc⟩ := (ht.result b).playing a hb
    have hexited := ht.exited (.player a)
    rw [hloc] at hexited ⊢
    cases pc with
    | exited => simp [Local.entered, PlayerPc.playing, ha]
    | _ => cases hexited

theorem source_upper (h : source a = some b) : b ∈ upperBattles := by
  revert a b
  decide

/-- Who loses in the upper bracket comes back through the agent of that battle. -/
theorem reentries_eq (hrows : Valid rows) (hs : Reachable (step (program rows)) start t)
    (ht : Final rows t) (ha : source a = some b) :
    reentries (t.file (.log_player (loserIdent rows b))) = [a] := by
  have hreal {a : Fin 15} {b : Battle} (h : source a = some b) : ¬ a.val < 8 := by
    revert a b
    decide
  refine List.perm_singleton.mp (List.perm_iff_count.mpr fun a' => ?_)
  rw [count_reentries_of_final hs ht, List.count_singleton, ← ident_agent hrows ha]
  by_cases heq : a' = a
  · subst heq
    simp [ha]
  · rw [if_neg, if_neg (by simpa using Ne.symm heq)]
    rintro ⟨hsome, hident⟩
    obtain ⟨b', hb'⟩ := Option.isSome_iff_exists.mp hsome
    exact heq (agent_inj hrows (hreal hb') (hreal ha) hident)

/-- Nobody else comes back. -/
theorem reentries_eq_nil (hrows : Valid rows) (hs : Reachable (step (program rows)) start t)
    (ht : Final rows t) (h : ∀ b ∈ upperBattles, loserIdent rows b ≠ x) :
    reentries (t.file (.log_player x)) = [] := by
  refine List.perm_nil.mp (List.perm_iff_count.mpr fun a => ?_)
  rw [count_reentries_of_final hs ht, List.count_nil, if_neg]
  rintro ⟨hsome, hident⟩
  obtain ⟨b, hb⟩ := Option.isSome_iff_exists.mp hsome
  exact h b (source_upper hb) ((ident_agent hrows hb).symm.trans hident)

/-! ### The law -/

/-- Who comes out of a process is a real player. -/
theorem ident_mem_reals (hrows : Valid rows) (p : Proc) : ident rows p ∈ reals := by
  generalize hn : rank p = n
  induction n using Nat.strong_induction_on generalizing p with
  -- a real player is its own id, and the other processes carry on an id of smaller rank
  | _ n ih =>
    have hchild (b : Battle) (side : Side) (hb : battleRank b = n) :
        ident rows (child b side) ∈ reals := by
      cases side with
      | left => exact ih _ (by have := rank_playl b; omega) (playl b) rfl
      | right => exact ih _ (by have := rank_playr b; omega) (playr b) rfl
    cases p with
    | battle b =>
      rw [ident_battle hrows b]
      exact hchild b _ hn
    | player i =>
      by_cases hi : i.val < 8
      · rw [ident_real hi]
        have hmem : ∀ i : Fin 15, i.val < 8 → (i.val : ℤ) ∈ reals := by decide
        exact hmem i hi
      · obtain ⟨b, hb⟩ := Option.isSome_iff_exists.mp (source_isSome i hi)
        rw [ident_agent hrows hb]
        exact hchild b _ ((rank_source hb).symm.trans hn)

/-- The law of double elimination, for a completed tournament. -/
structure Law (t : Tournament) : Prop where
  /-- Both players of a battle are real players, and they are different. -/
  different : ∀ b, ∃ x y, participants t b = [x, y] ∧ x ∈ reals ∧ y ∈ reals ∧ x ≠ y
  /-- A battle has exactly one loser, who has taken part in it. -/
  loser : ∀ b, ∃ x ∈ participants t b, losers t b = [x]
  /-- Who loses in the upper bracket comes back once, through the agent of the battle. -/
  reentry : ∀ b ∈ upperBattles, ∀ x ∈ losers t b, ∃ a, source a = some b ∧
    reentries (t.file (.log_player x)) = [a]
  /-- Nobody else comes back. -/
  no_reentry : ∀ x, (∀ b ∈ upperBattles, x ∉ losers t b) →
    reentries (t.file (.log_player x)) = []
  /-- The champion has won the last battle, and has lost at most one. -/
  champion : ∃ x ∈ participants t .A, t.file .stdout = [.champion x] ∧ x ∉ losers t .A ∧
    losses t x ≤ 1
  /-- The loser of the last battle has lost no other one if it has come through `B`, and one other
      if it has come through `C`. -/
  finalist : ∀ x y, participants t .A = [x, y] →
    (x ∈ losers t .A → losses t x = 1) ∧ (y ∈ losers t .A → losses t y = 2)
  /-- Everybody else has lost twice. -/
  others : ∀ x ∈ reals, x ∉ participants t .A → losses t x = 2

theorem ident_child_mem (side : Side) (b : Battle) :
    ident rows (child b side) ∈ [ident rows (playl b), ident rows (playr b)] := by
  cases side with
  | left => exact List.mem_cons_self
  | right => exact List.mem_cons_of_mem _ List.mem_cons_self

/-- The winner of a battle is not its loser. -/
theorem ident_ne_loserIdent (hrows : Valid rows) (b : Battle) :
    ident rows (.battle b) ≠ loserIdent rows b := by
  have hne := ident_child_ne hrows b
  rw [ident_battle hrows b, loserIdent]
  cases winnerSide rows b with
  | left => exact hne
  | right => exact hne.symm

/-- Who comes through `B` has not lost before the last battle. -/
theorem losses_B (hrows : Valid rows) (hs : Reachable (step (program rows)) start t)
    (ht : Final rows t) : losses t (ident rows (.battle .B)) =
      if loserIdent rows .A = ident rows (.battle .B) then 1 else 0 := by
  have hcount := count_losses hrows (ident_mem_reals hrows (.battle .B))
  have hne : ident rows (.battle .C) ≠ ident rows (.battle .B) := (ident_child_ne hrows .A).symm
  rw [if_pos rfl, if_neg hne] at hcount
  rw [losses_eq hrows hs ht]
  omega

/-- Who comes through `C` has lost once before it. -/
theorem losses_C (hrows : Valid rows) (hs : Reachable (step (program rows)) start t)
    (ht : Final rows t) : losses t (ident rows (.battle .C)) =
      1 + if loserIdent rows .A = ident rows (.battle .C) then 1 else 0 := by
  have hcount := count_losses hrows (ident_mem_reals hrows (.battle .C))
  have hne : ident rows (.battle .B) ≠ ident rows (.battle .C) := ident_child_ne hrows .A
  rw [if_neg hne, if_pos rfl] at hcount
  rw [losses_eq hrows hs ht]
  omega

/-- Who is not in the final has lost twice. -/
theorem losses_other (hrows : Valid rows) (hs : Reachable (step (program rows)) start t)
    (ht : Final rows t) (hx : x ∈ reals) (hnot : x ∉ participants t .A) : losses t x = 2 := by
  have hcount := count_losses hrows hx
  have hlast : loserIdent rows .A ≠ x := by
    rintro rfl
    refine hnot ?_
    rw [participants_eq hrows hs ht]
    exact ident_child_mem _ .A
  rw [participants_eq hrows hs ht, List.mem_cons, List.mem_singleton, not_or] at hnot
  rw [if_neg (show ident rows (.battle .B) ≠ x from Ne.symm hnot.1),
    if_neg (show ident rows (.battle .C) ≠ x from Ne.symm hnot.2), if_neg hlast] at hcount
  rw [losses_eq hrows hs ht]
  exact hcount

/-- The champion has come through `B` or `C`, and has won the last battle. -/
theorem losses_champion (hrows : Valid rows) (hs : Reachable (step (program rows)) start t)
    (ht : Final rows t) : losses t (ident rows (.battle .A)) ≤ 1 := by
  have hne := ident_ne_loserIdent hrows .A
  have hside := ident_battle hrows .A
  cases hw : winnerSide rows .A with
  | left =>
    rw [hw] at hside
    replace hside : ident rows (.battle .A) = ident rows (.battle .B) := hside
    rw [hside] at hne ⊢
    rw [losses_B hrows hs ht, if_neg hne.symm]
    exact Nat.zero_le 1
  | right =>
    rw [hw] at hside
    replace hside : ident rows (.battle .A) = ident rows (.battle .C) := hside
    rw [hside] at hne ⊢
    rw [losses_C hrows hs ht, if_neg hne.symm]

theorem law_of_final (hrows : Valid rows) (hs : Reachable (step (program rows)) start t)
    (ht : Final rows t) : Law t := by
  have hlosers := losers_eq hrows hs ht
  have hparticipants := participants_eq hrows hs ht
  refine ⟨fun b => ?_, fun b => ?_, fun b hb x hx => ?_, fun x hx => ?_, ?_, fun x y hxy => ?_,
    fun x => losses_other hrows hs ht⟩
  · exact ⟨_, _, hparticipants b, ident_mem_reals hrows _, ident_mem_reals hrows _,
      ident_child_ne hrows b⟩
  · rw [hparticipants]
    exact ⟨_, ident_child_mem _ b, hlosers b⟩
  · -- a loser of the upper bracket is taken over by the agent of that battle
    rw [hlosers, List.mem_singleton] at hx
    subst hx
    obtain ⟨a, ha⟩ : ∃ a, source a = some b := by
      revert b
      decide
    exact ⟨a, ha, reentries_eq hrows hs ht ha⟩
  · refine reentries_eq_nil hrows hs ht fun b hb heq => hx b hb ?_
    rw [hlosers, heq]
    exact List.mem_cons_self
  · refine ⟨ident rows (.battle .A), ?_, ?_, ?_, losses_champion hrows hs ht⟩
    · rw [hparticipants, ident_battle hrows]
      exact ident_child_mem _ .A
    · obtain ⟨left, right, hroot, hident⟩ := ht.root
      rw [stdout_eq hs, hroot, Local.printed, hident]
      rfl
    · rw [hlosers, List.mem_singleton]
      exact ident_ne_loserIdent hrows .A
  · rw [hparticipants] at hxy
    simp only [List.cons.injEq, and_true] at hxy
    obtain ⟨rfl, rfl⟩ := hxy
    rw [hlosers, List.mem_singleton, List.mem_singleton]
    refine ⟨fun hlost => ?_, fun hlost => ?_⟩
    · exact (losses_B hrows hs ht).trans (if_pos hlost.symm)
    · refine (losses_C hrows hs ht).trans ?_
      rw [if_pos (show _ = ident rows (.battle .C) from hlost.symm)]

/-- **The law of double elimination.**  It holds in every completed tournament; and in every round of
    every battle of it, the two players are different. -/
theorem double_elimination_law (hrows : Valid rows)
    (hs : Reachable (step (program rows)) start s) :
    (Halted (step (program rows)) s → Law s) ∧
    ∀ b left right, s.loc (.battle b) = .battle (.logRead .right) left right →
      left.real_player_id ≠ right.real_player_id := by
  obtain ⟨t, hpath, ht⟩ := exists_final hrows
  have hreach := reachable_final hrows ht hpath hs
  refine ⟨fun hhalted => ?_, fun b left right hloc => ?_⟩
  · -- all runs end in the same state, so a halted state is the one of the schedule
    obtain rfl := hhalted.eq_of_reachable hreach
    exact law_of_final hrows hs ht
  · -- when the right status has been read, both requests are held at once
    have hheld (side : Side) : (s.loc (.battle b)).held side = .request (pick side left right) := by
      rw [hloc]
      cases side <;> rfl
    have hident (side : Side) := held_ident ht hreach hrows (traffic_of_reachable hrows.inRange hs)
      (.inl (hheld side))
    have hne := ident_child_ne hrows b
    have hl : left.real_player_id = ident rows (playl b) := hident .left
    have hr : right.real_player_id = ident rows (playr b) := hident .right
    rw [hl, hr]
    exact hne

/-- The tournament of `player_status.txt` is completed, and the law holds. -/
theorem double_elimination_law_sample :
    ∃ t, Halted (step (program sampleRows)) t ∧ Law t := by
  obtain ⟨t, hreach, ht⟩ := exists_final valid_sampleRows
  exact ⟨t, ht.halted, (double_elimination_law valid_sampleRows hreach).1 ht.halted⟩

end SystemProgramming.Championship
