import SystemProgramming.Championship.Completion

namespace SystemProgramming.Championship

open Network Transition

/-!
# Championship — the tournament is a sequential double elimination

* `stdout_eq` — the root has printed one line, and nobody has printed another one;
* `refines_double_elimination` — for every schedule, the champion is that of the recursion over the
  bracket, and all log files are the same.
-/

/-- In passing mode. -/
def BattlePc.relaying : BattlePc → Bool
  | .waitLoser _ | .readChild _ | .logChild _ | .logUp _ | .sendUp _ | .readParent _ | .logParent _
  | .logDown _ | .sendDown _ | .waitWinner _ => true
  | _ => false

/-- The root does not get into passing mode. -/
def AtRoot (l : Local) : Prop := ∃ pc left right, l = .battle pc left right ∧ pc.relaying = false

/-- What the root has printed. -/
def Local.printed : Local → List Entry
  | .battle (.reapWinner w) left right | .battle (.reapLoser w) left right
  | .battle (.exit w) left right | .battle (.exited w) left right =>
    [.champion (pick w left right).real_player_id]
  | _ => []

variable {rows : Fin 8 → Row} {s s' : Tournament} {p : Proc} {l l' : Local}

/-- The root prints in one step, and stays out of passing mode. -/
theorem root_step (h : AtRoot l) (hlead : (program rows (.battle .A) l).LeadsTo l') :
    AtRoot l' ∧ ((∀ w left right, l ≠ .battle (.print w) left right) → l'.printed = l.printed) := by
  obtain ⟨pc, left, right, rfl, hpc⟩ := h
  -- the root prints once, and the other actions of a battle below it never occur
  cases pc with
  | unborn | logWrite side | reapWinner w | reapLoser w | exit w =>
    cases hlead
    exact ⟨⟨_, _, _, rfl, rfl⟩, fun _ => rfl⟩
  | print w =>
    cases hlead
    exact ⟨⟨_, _, _, rfl, rfl⟩, fun h => absurd rfl (h w left right)⟩
  | fork side | logRead side =>
    cases side <;> cases hlead <;> exact ⟨⟨_, _, _, rfl, rfl⟩, fun _ => rfl⟩
  | read side =>
    obtain ⟨m, rfl⟩ := hlead
    exact ⟨⟨_, _, _, rfl, rfl⟩, fun _ => rfl⟩
  | write side =>
    cases side <;> cases hlead
    · exact ⟨⟨_, _, _, rfl, rfl⟩, fun _ => rfl⟩
    · unfold roundEnd
      -- the root has no parent to pass a status to, so it prints when the rounds end
      rw [if_pos rfl]
      split_ifs
      · exact ⟨⟨_, _, _, rfl, rfl⟩, fun _ => rfl⟩
      · exact ⟨⟨_, _, _, rfl, rfl⟩, fun _ => rfl⟩
      · exact ⟨⟨_, _, _, rfl, rfl⟩, fun _ => rfl⟩
  | exited w => cases hlead
  | waitLoser w | readChild w | logChild w | logUp w | sendUp w | readParent w | logParent w
  | logDown w | sendDown w | waitWinner w => cases hpc

/-- What has been printed is what the root has printed. -/
structure Printed (s : Tournament) : Prop where
  sound : ∀ p, Sound p (s.loc p)
  root : AtRoot (s.loc (.battle .A))
  stdout : s.file .stdout = (s.loc (.battle .A)).printed

theorem printed_start : Printed start where
  sound := sound_start
  root := ⟨_, _, _, rfl, rfl⟩
  stdout := rfl

theorem Printed.step (h : Printed s) (hstep : step (program rows) s p = some s') : Printed s' := by
  have hsound (q : Proc) : Sound q (s'.loc q) := (stable_sound rows q).step hstep (h.sound q)
  obtain ⟨x, l, hx, rfl⟩ := step_eq_some.mp hstep
  have hlead := Action.leadsTo_of_effect hx
  by_cases hp : p = .battle .A
  · subst hp
    obtain ⟨hroot, hprinted⟩ := root_step h.root hlead
    refine ⟨hsound, ?_, ?_⟩
    · simpa using hroot
    · show x.file .stdout = (Function.update s.loc (.battle .A) l (.battle .A)).printed
      rw [Function.update_self]
      obtain ⟨pc, left, right, hloc, -⟩ := h.root
      by_cases hpc : ∃ w, pc = .print w
      · -- the root prints its line
        obtain ⟨w, rfl⟩ := hpc
        have hstdout := h.stdout
        rw [hloc] at hx hstdout
        cases hx
        show Function.update s.file .stdout _ .stdout = _
        rw [Function.update_self, hstdout]
        rfl
      · have hnot : ∀ w left right, s.loc (.battle .A) ≠ .battle (.print w) left right := by
          intro w left' right' heq
          rw [hloc] at heq
          cases heq
          exact hpc ⟨w, rfl⟩
        rw [hprinted hnot, ← h.stdout]
        rcases effect_file hx with heq | ⟨g, e, hwrite, heq⟩
        · rw [heq]
        · rw [heq]
          refine Function.update_of_ne ?_ ..
          rintro rfl
          obtain ⟨b, w, left', right', hb, heq'⟩ := writes_of_write hwrite
          exact hnot w left' right' heq'
  · have hne : Proc.battle .A ≠ p := Ne.symm hp
    refine ⟨hsound, ?_, ?_⟩
    · simpa [Function.update_of_ne hne] using h.root
    · show x.file .stdout = (Function.update s.loc p l (.battle .A)).printed
      rw [Function.update_of_ne hne, ← h.stdout]
      rcases effect_file hx with heq | ⟨g, e, hwrite, heq⟩
      · rw [heq]
      · rw [heq]
        refine Function.update_of_ne ?_ ..
        rintro rfl
        -- only the root can be at its print statement
        obtain ⟨b, w, left, right, rfl, hloc⟩ := writes_of_write hwrite
        have hsound := h.sound (.battle b)
        rw [hloc] at hsound
        rw [hsound.root w rfl] at hp
        exact hp rfl

/-- The line of the champion is all that has been printed. -/
theorem stdout_eq (h : Reachable (step (program rows)) start s) :
    s.file .stdout = (s.loc (.battle .A)).printed :=
  (h.invariant (I := Printed) (fun _ _ _ h hstep => h.step hstep) printed_start).stdout

/-- **For every schedule** the tournament comes to an end after the same number of steps; the root
    prints the champion of the sequential double elimination, and nothing else is printed; and every
    log file has the same lines. -/
theorem refines_double_elimination (hrows : Valid rows) :
    (∃ n, ∀ es s, runFrom (step (program rows)) start es = some s →
      ∃ rest t, runFrom (step (program rows)) s rest = some t ∧
        Halted (step (program rows)) t ∧ rest.length + es.length = n) ∧
    (∀ s, Reachable (step (program rows)) start s → Halted (step (program rows)) s →
      s.file .stdout = [.champion (champion rows)]) ∧
    ∀ s s', Reachable (step (program rows)) start s → Halted (step (program rows)) s →
      Reachable (step (program rows)) start s' → Halted (step (program rows)) s' →
        s.file = s'.file := by
  obtain ⟨t, ⟨path, hpath⟩, ht⟩ := exists_final hrows
  have hunique (s : Tournament) (hs : Reachable (step (program rows)) start s)
      (hhalted : Halted (step (program rows)) s) : s = t :=
    hhalted.eq_of_reachable (reachable_final hrows ht ⟨path, hpath⟩ hs)
  -- there is one final state, and each run can be completed to a run of its schedule
  refine ⟨⟨path.length, fun es s hes => ?_⟩, fun s hs hhalted => ?_,
    fun s s' hs hhalted hs' hhalted' => ?_⟩
  · obtain ⟨rest, hlength, hrest⟩ := run_to_final hrows ht hpath hes
    exact ⟨rest, t, hrest, ht.halted, hlength⟩
  · obtain rfl := hunique s hs hhalted
    obtain ⟨left, right, hroot, hchampion⟩ := ht.root
    rw [stdout_eq hs, hroot, Local.printed, hchampion]
  · rw [hunique s hs hhalted, hunique s' hs' hhalted']

/-- The rows of `player_status.txt` are valid. -/
theorem valid_sampleRows : Valid sampleRows := by
  constructor <;> decide

theorem refines_double_elimination_sample :
    (∃ n, ∀ es s, runFrom (step (program sampleRows)) start es = some s →
      ∃ rest t, runFrom (step (program sampleRows)) s rest = some t ∧
        Halted (step (program sampleRows)) t ∧ rest.length + es.length = n) ∧
    (∀ s, Reachable (step (program sampleRows)) start s →
      Halted (step (program sampleRows)) s →
      s.file .stdout = [.champion (champion sampleRows)]) ∧
    ∀ s s', Reachable (step (program sampleRows)) start s →
      Halted (step (program sampleRows)) s →
      Reachable (step (program sampleRows)) start s' →
      Halted (step (program sampleRows)) s' → s.file = s'.file :=
  refines_double_elimination valid_sampleRows

end SystemProgramming.Championship
