import SystemProgramming.Championship.Result

namespace SystemProgramming.Championship

open Network Ancestor

/-!
# Championship — one run of the whole tournament

The processes are started one after the other, and then the battles are played one after the other,
each from its entrants to its winner.

* `Started` / `runs_start` — after some processes have started;
* `Stage` / `runs_stage` — after some battles have been played;
* `runs_tournament` — a run from the start to the exit of the root.
-/

variable {rows : Fin 8 → Row} {loc loc' : Proc → Local} {flag flag' : Flag → Bool}
variable {a : Fin 15} {b : Battle} {w : Side} {c p q : Proc} {v v' : Arena}

/-! ### Starting the processes -/

/-- A process after its start: a battle reads, a player sends, an agent waits. -/
def awake (rows : Fin 8 → Row) : Proc → Local
  | .battle _ => .battle (.read .left) unset unset
  | .player i =>
    if h : i.val < 8 then
      .player .logSend (realStatus rows ⟨i, h⟩) (realStatus rows ⟨i, h⟩).HP i.val
    else
      .player .waitWriter unset 0 0

/-- The flags that a process raises when it starts. -/
def raised : Proc → List Flag
  | .battle b => [.forked (playl b), .forked (playr b)]
  | .player i => if i.val < 8 then [] else [.reading (.player i)]

/-- The processes `ps` have been started. -/
structure Started (rows : Fin 8 → Row) (ps : List Proc) (v : Arena) : Prop where
  chan : v.chan = quiet
  loc : ∀ p, v.loc p = if p ∈ ps then awake rows p else start.loc p
  root : v.flag (.forked (.battle .A)) = true
  flag : ∀ p ∈ ps, ∀ f ∈ raised p, v.flag f = true

/-- A process can be started after its parent. -/
def Startable (ps : List Proc) (p : Proc) : Prop :=
  p ∉ ps ∧ (p = .battle .A ∨ ∃ q ∈ ps, .forked p ∈ raised q)

/-- Whether a process can be started can be computed. -/
instance : ∀ ps p, Decidable (Startable ps p) := fun ps p =>
  inferInstanceAs (Decidable (p ∉ ps ∧ (p = .battle .A ∨ ∃ q ∈ ps, .forked p ∈ raised q)))

/-- At the start nobody has been started. -/
theorem started_nil (rows : Fin 8 → Row) : Started rows [] start.config where
  chan := rfl
  loc p := by
    rw [if_neg (by simp)]
    rfl
  root := by decide
  flag := by simp

/-- One more process has started. -/
theorem Started.cons {ps : List Proc} (h : Started rows ps ⟨quiet, flag, loc⟩)
    (hkept : Kept flag flag') (hraised : ∀ f ∈ raised p, flag' f = true) :
    Started rows (p :: ps) ⟨quiet, flag', Function.update loc p (awake rows p)⟩ where
  chan := rfl
  loc q := by
    have hloc := h.loc q
    dsimp only at hloc ⊢
    by_cases hqp : q = p
    · subst hqp
      simp
    · simp [hqp, hloc]
  root := hkept _ h.root
  flag q hq f hf := by
    rcases List.mem_cons.mp hq with rfl | hq
    · exact hraised f hf
    · exact hkept _ (h.flag q hq f hf)

/-- To raise two flags lowers no other. -/
theorem kept_raise_two (flag : Flag → Bool) (f g : Flag) :
    Kept flag (Function.update (Function.update flag f true) g true) :=
  (kept_raise flag f).trans (kept_raise _ g)

/-- A process starts. -/
theorem runs_start (hrows : Valid rows) (ps : List Proc) (p : Proc) (v : Arena)
    (h : Started rows ps v) (hp : Startable ps p) :
    ∃ v', Runs (program rows) v v' ∧ Started rows (p :: ps) v' := by
  obtain ⟨chan, flag, loc⟩ := v
  obtain rfl : chan = quiet := h.chan
  have hforked : flag (.forked p) = true := by
    rcases hp.2 with rfl | ⟨q, hq, hf⟩
    · exact h.root
    · exact h.flag q hq _ hf
  have hloc : loc p = start.loc p := by
    rw [show loc p = _ from h.loc p, if_neg hp.1]
  cases p with
  | battle b =>
    refine ⟨_, runs_battle_start rows hloc hforked, h.cons (kept_raise_two _ _ _) ?_⟩
    intro f hf
    simp only [raised, List.mem_cons, List.not_mem_nil, or_false] at hf
    rcases hf with rfl | rfl
    · exact kept_raise _ _ _ (Function.update_self ..)
    · exact Function.update_self ..
  | player i =>
    have hruns := runs_player_start rows hloc hforked
    by_cases hreal : i.val < 8
    · -- a real player runs up to the read of its pipe
      have hawake : playerStart rows i unset 0 0 = awake rows (.player i) := by
        rw [playerStart, dif_pos hreal, turn_flag (hrows.flag _), awake, dif_pos hreal]
      rw [hawake] at hruns
      refine ⟨_, hruns, h.cons (fun _ hf => hf) ?_⟩
      simp [raised, hreal]
    · -- an agent opens its FIFO and waits for a writer
      have hopen : playerStart rows i unset 0 0 = .player .openRead unset 0 0 := by
        rw [playerStart, dif_neg hreal]
      have hawake : awake rows (.player i) = .player .waitWriter unset 0 0 := by
        rw [awake, dif_neg hreal]
      rw [hopen] at hruns
      have hreading := hruns.trans (runs_openRead rows (Function.update_self ..))
      rw [Function.update_idem, ← hawake] at hreading
      refine ⟨_, hreading, h.cons (kept_raise _ _) ?_⟩
      simp [raised, hreal]

/-- The order in which the processes are started, from the last to the first. -/
def startOrder : List Proc :=
  [.player 14, .player 13, .player 12, .player 11, .player 10, .player 9, .player 8, .player 7,
    .player 6, .player 5, .player 4, .player 3, .player 2, .player 1, .player 0, .battle .N,
    .battle .M, .battle .L, .battle .K, .battle .J, .battle .I, .battle .H, .battle .G, .battle .F,
    .battle .E, .battle .D, .battle .C, .battle .B, .battle .A]

/-- In this order, every process is started after the battle above it. -/
theorem scheduled_startOrder : Scheduled Startable startOrder := by decide

/-- And everybody is started. -/
theorem mem_startOrder (p : Proc) : p ∈ startOrder := by
  revert p
  decide

/-! ### Playing the battles -/

/-- Who comes out of `c` is known after the battles `done`. -/
def Ready (done : List Battle) : Proc → Prop
  | .battle b => b ∈ done
  | .player i => ∀ b, source i = some b → b ∈ done

/-- Whether an entrant is ready can be computed. -/
instance : ∀ done c, Decidable (Ready done c)
  | done, .battle b => inferInstanceAs (Decidable (b ∈ done))
  | done, .player i => inferInstanceAs (Decidable (∀ b, source i = some b → b ∈ done))

/-- More battles that are over. -/
theorem Ready.mono {done : List Battle} (h : Ready done c) (b : Battle) : Ready (b :: done) c := by
  cases c with
  | battle b' => exact List.mem_cons_of_mem b h
  | player i => exact fun b' hb' => List.mem_cons_of_mem b (h b' hb')

/-- The battles `done` have been played. -/
structure Stage (rows : Fin 8 → Row) (done : List Battle) (v : Arena) : Prop where
  chan : v.chan = quiet
  closed : ∀ b ∈ done, ∀ side, Ready done (child b side)
  fresh : ∀ b, b ∉ done → ∃ left right, v.loc (.battle b) = .battle (.read .left) left right
  asleep : ∀ a b, source a = some b → b ∉ done → Asleep v.loc v.flag a
  enters : ∀ b side, b ∉ done → Ready done (child b side) →
    ∃ x, Enters rows v.loc (child b side) x
  result : ∀ b ∈ done, Result rows v.loc b

/-- Before the first battle, the real players are ready. -/
theorem child_ready_nil {side : Side} (h : Ready [] (child b side)) :
    ∃ i : Fin 15, child b side = .player i ∧ i.val < 8 := by
  revert b side
  decide

/-- All processes have been started, and no battle has been played. -/
theorem stage_nil (h : Started rows startOrder v) : Stage rows [] v := by
  -- all processes have started, so each of them is in the state it wakes up in
  have hloc (p : Proc) : v.loc p = awake rows p := by
    rw [h.loc p, if_pos (mem_startOrder p)]
  refine ⟨h.chan, by simp, fun b _ => ⟨unset, unset, hloc _⟩, fun a b ha _ => ⟨⟨unset, 0, 0, ?_⟩, ?_⟩,
    fun b side _ hready => ?_, by simp⟩
  · rw [hloc, awake, dif_neg (not_real_of_source ha)]
  · apply h.flag _ (mem_startOrder (.player a)) _
    rw [raised, if_neg (not_real_of_source ha)]
    exact List.mem_singleton_self _
  · -- only the real players are ready at first
    obtain ⟨i, hi, hreal⟩ := child_ready_nil hready
    rw [hi]
    have hplayer := hloc (.player i)
    rw [awake, dif_pos hreal] at hplayer
    refine ⟨⟨i, (value rows (.player i)).hp, i.val⟩, .player ?_, rfl, ?_, fun _ => rfl⟩
    · rw [hplayer, value_real hreal]
      rfl
    · rw [value_real hreal]
      rfl

section Step

variable {done : List Battle}

/-- Whatever is below a process that is ready, is ready. -/
theorem Stage.ready_under (h : Stage rows done v) (hc : Ready done c) (hq : Under c q) :
    Ready done q := by
  refine hq.closed (fun q p hup hp => ?_) hc
  obtain ⟨b, side, rfl, rfl⟩ := eq_child_of_parentOf hup
  exact h.closed b hp side

/-- Whatever is below a battle, is ready when the children of the battle are. -/
theorem Stage.not_under (h : Stage rows done v) (hready : ∀ side, Ready done (child b side))
    (hq : ¬ Ready done q) (hne : q ≠ .battle b) : ¬ Under (.battle b) q := by
  intro hunder
  rcases hunder.cases_child with heq | ⟨d, hd, hbelow⟩
  · exact hne heq
  · obtain ⟨b', side, hbattle, rfl⟩ := eq_child_of_parentOf hd
    cases hbattle
    exact hq (h.ready_under (hready side) hbelow)

/-- A battle moves nothing below the other processes that are ready. -/
theorem Stage.elsewhere {b' : Battle} {side : Side} (h : Stage rows done v) (hb : b ∉ done)
    (hready : ∀ side, Ready done (child b side)) (hb' : b' ∉ done) (hne : b' ≠ b)
    (hc : Ready done (child b' side)) (hq : Under (child b' side) q) : Elsewhere b q := by
  refine ⟨fun hbq => ?_, fun a ha heq => ?_⟩
  · rcases hq.total hbq with hcb | hbc
    · exact hb (h.ready_under hc hcb)
    · rcases hbc.cases_parent with heq | ⟨p, hp, hbelow⟩
      · rw [heq] at hc
        exact hb hc
      · cases Option.some.inj (hp.symm.trans (parentOf_child b' side))
        exact h.not_under (q := .battle b') hready hb' (by simp [hne]) hbelow
  · subst heq
    exact hb (h.ready_under hc hq b ha)

/-- Who becomes ready when a battle has been played: its winner, and the agent of its loser. -/
theorem ready_cons (h : Ready (b :: done) c) (hnew : ¬ Ready done c) :
    c = .battle b ∨ ∃ a, source a = some b ∧ c = .player a := by
  cases c with
  | battle b' =>
    rcases List.mem_cons.mp h with rfl | hb'
    · exact .inl rfl
    · exact absurd hb' hnew
  | player i =>
    simp only [Ready, not_forall] at hnew
    obtain ⟨b', hi, hb'⟩ := hnew
    rcases List.mem_cons.mp (h b' hi) with rfl | hdone
    · exact .inr ⟨i, hi, rfl⟩
    · exact absurd hdone hb'

/-- What a battle leaves behind, from what it does. -/
theorem Result.of_handed {x : Side → Seat} (hwinner : Enters rows loc (.battle b) (x w))
    (henter : ∀ side, Enters rows loc' (child b side) (x side))
    (hloser : ∀ a, source a = some b → Handed rows loc (x w.other) a) : Result rows loc b where
  won := hwinner.won
  playing a ha := by
    have h := (hloser a ha).enters
    rw [ident, ← h.logp]
    exact ⟨_, _, _, Path.loc_bot h.offers, rfl⟩
  gone a ha := by
    obtain ⟨h, P, hp, hgone, hagent⟩ := hloser a ha
    have hreal := real_of_under ha (under_battle_of_child (Path.under (henter w.other).offers))
    exact ⟨_, P, hp, _, ((henter w.other).real hreal).trans h.logp, hgone, hagent⟩

/-- A battle can be played when its children are ready. -/
def Playable (done : List Battle) (b : Battle) : Prop :=
  b ≠ .A ∧ b ∉ done ∧ ∀ side, Ready done (child b side)

/-- Whether a battle can be played can be computed. -/
instance : ∀ done b, Decidable (Playable done b) := fun done b =>
  inferInstanceAs (Decidable (b ≠ .A ∧ b ∉ done ∧ ∀ side, Ready done (child b side)))

/-- A battle is played. -/
theorem runs_stage (hrows : Valid rows) (done : List Battle) (b : Battle) (v : Arena)
    (h : Stage rows done v) (hb : Playable done b) :
    ∃ v', Runs (program rows) v v' ∧ Stage rows (b :: done) v' := by
  obtain ⟨chan, flag, loc⟩ := v
  obtain rfl : chan = quiet := h.chan
  obtain ⟨hA, hb, hready⟩ := hb
  obtain ⟨left, right, hfresh⟩ := h.fresh b hb
  choose x hx using fun side => h.enters b side hb (hready side)
  obtain ⟨loc', flag', hruns, hkept, hwinner, hloser, hframe⟩ :=
    runs_play hrows hA hfresh hx fun a ha => h.asleep a b ha hb
  refine ⟨_, hruns, rfl, ?_, fun b' hb' => ?_, fun a b' ha hb' => ?_, fun b' side hb' hc => ?_, ?_⟩
  · -- what is ready stays ready
    intro b' hb' side
    rcases List.mem_cons.mp hb' with rfl | hb'
    · exact (hready side).mono b'
    · exact (h.closed b' hb' side).mono b
  · -- battles that have not been played
    rw [List.mem_cons, not_or] at hb'
    obtain ⟨hne, hb'⟩ := hb'
    obtain ⟨left, right, hfresh'⟩ := h.fresh b' hb'
    exact ⟨left, right,
      (hframe (.battle b') ⟨h.not_under hready hb' (by simp [hne]), by simp⟩).trans hfresh'⟩
  · -- agents whose losers are not known
    rw [List.mem_cons, not_or] at hb'
    obtain ⟨hne, hb'⟩ := hb'
    obtain ⟨⟨P, hp, logp, hloc⟩, hreading⟩ := h.asleep a b' ha hb'
    have helse : Elsewhere b (.player a) := by
      refine ⟨h.not_under hready (fun hq => hb' (hq b' ha)) (by simp), fun a' ha' heq => ?_⟩
      cases heq
      exact hne (Option.some.inj (ha.symm.trans ha'))
    exact ⟨⟨P, hp, logp, (hframe _ helse).trans hloc⟩, hkept _ hreading⟩
  · -- players who wait to enter a battle
    rw [List.mem_cons, not_or] at hb'
    obtain ⟨hne, hb'⟩ := hb'
    by_cases hold : Ready done (child b' side)
    · obtain ⟨y, hy⟩ := h.enters b' side hb' hold
      exact ⟨y, hy.congr fun q hq => hframe q (h.elsewhere hb hready hb' hne hold hq)⟩
    · rcases ready_cons hc hold with heq | ⟨a, ha, heq⟩
      · rw [heq]
        exact ⟨_, hwinner⟩
      · rw [heq]
        exact ⟨_, (hloser a ha).enters⟩
  · intro b' hb'
    rcases List.mem_cons.mp hb' with rfl | hb'
    · exact .of_handed hwinner hx hloser
    · exact (h.result b' hb').runs hruns

end Step

/-- The order in which the battles are played, from the last to the first. -/
def playOrder : List Battle := [.C, .F, .L, .K, .N, .M, .B, .E, .D, .J, .I, .H, .G]

/-- In this order, every battle is played after those it needs. -/
theorem scheduled_playOrder : Scheduled Playable playOrder := by decide

/-- And all of them are played before the root. -/
theorem mem_playOrder (h : b ≠ .A) : b ∈ playOrder := by
  revert b
  decide

/-- **One run of the tournament**, to the exit of the root. -/
theorem runs_tournament (hrows : Valid rows) :
    ∃ v, Runs (program rows) start.config v ∧ v.chan = quiet ∧ (∀ b, Result rows v.loc b) ∧
      ∃ left right, v.loc (.battle .A) = .battle (.exited (winnerSide rows .A)) left right ∧
        (pick (winnerSide rows .A) left right).real_player_id = champion rows := by
  obtain ⟨v₁, hruns₁, h₁⟩ := Runs.schedule (runs_start hrows) scheduled_startOrder (started_nil rows)
  obtain ⟨v₂, hruns₂, h₂⟩ := Runs.schedule (runs_stage hrows) scheduled_playOrder (stage_nil h₁)
  obtain ⟨chan, flag, loc⟩ := v₂
  obtain rfl : chan = quiet := h₂.chan
  have hA : Battle.A ∉ playOrder := by decide
  have hready : ∀ side, Ready playOrder (child .A side) := by decide
  obtain ⟨left, right, hfresh⟩ := h₂.fresh .A hA
  choose x hx using fun side => h₂.enters .A side hA (hready side)
  -- all other battles are over, so that the last one can be played
  obtain ⟨loc', flag', hruns₃, hend⟩ := runs_final hrows hfresh hx flag
  refine ⟨_, hruns₁.trans (hruns₂.trans hruns₃), rfl, fun b => ?_, _, _, hend, ?_⟩
  · by_cases hb : b = .A
    · subst hb
      have hnone (a : Fin 15) : source a ≠ some .A := by
        revert a
        decide
      exact ⟨⟨_, _, _, hend, rfl⟩, fun a ha => absurd ha (hnone a), fun a ha => absurd ha (hnone a)⟩
    · exact (h₂.result b (mem_playOrder hb)).runs hruns₃
  · have hends := outcome_ends hrows .A
    rw [pick_lastStatus, (hends.attacked _).real_player_id, champion, ident, value_battle,
      hends.winner, ← (hends.attacked _).real_player_id]
    rfl


end SystemProgramming.Championship
