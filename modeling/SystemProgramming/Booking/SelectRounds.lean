import SystemProgramming.Booking.SelectLoop

namespace SystemProgramming.Booking

open Transition

/-!
# Booking servers — the rounds of the select loop

A round is what a server does between two calls of `select`.

* `Rounded` — the invariant of the `for` loop: the descriptors served so far in the round are those
  that `select` has reported, up to the one the loop has come to;
* `round_serves` — every round serves exactly the descriptors that were ready when `select` was
  called, each once and in increasing order, and ends after a bounded number of steps.
-/

/-- The descriptor a step of `main` serves. -/
def MainAct.served? (d : Descriptors) : MainAct → Option ℕ
  | .accept _ _ | .acceptAgain => some d.listenFd
  | .read fd _ => some fd
  | .select _ | .selectError | .next | .acceptError => none

/-- A round so far: what `select` reported, what was served, and the steps of `main` since. -/
structure Round where
  ready : Finset ℕ
  served : List ℕ
  steps : ℕ

/-- The round after one more step of `main`. -/
def Round.next (d : Descriptors) (r : Round) : MainAct → Round
  | .select ready => ⟨ready, [], 0⟩
  | e => ⟨r.ready, r.served ++ (e.served? d).toList, r.steps + 1⟩

variable {P : Type} [DecidableEq P]

/-- The steps of `main` in process `p`. -/
def mainActs (p : P) (acts : List (P × Act)) : List MainAct :=
  acts.filterMap fun
    | (_, .client _) => none
    | (q, .main e) => if q = p then some e else none

/-- The round of process `p` at the end of a run. -/
def roundOf (d : Descriptors) (p : P) (acts : List (P × Act)) : Round :=
  (mainActs p acts).foldl (Round.next d) ⟨∅, [], 0⟩

/-! ### One step of a round -/

section Rounds

variable {d : Descriptors} {l l' : Loop} {r : Round}

/-- **The invariant of the `for` loop.** -/
structure Loop.Rounded (d : Descriptors) (l : Loop) (r : Round) : Prop where
  ordered : r.served.Pairwise (· < ·)
  outside : l.i = none → (∀ fd, fd ∈ r.served ↔ fd ∈ r.ready) ∧ r.steps ≤ d.tableSize + 1
  inside : ∀ i, l.i = some i → r.ready = l.readFds ∧ r.steps = i ∧ i ≤ l.maxfd + 1 ∧
    (∀ fd ∈ l.readFds, fd ≤ l.maxfd) ∧ ∀ fd, fd ∈ r.served ↔ fd ∈ l.readFds ∧ fd < i

theorem Loop.Rounded.grows (h : l.Rounded d r) (g : l.Grows l') : l'.Rounded d r where
  ordered := h.ordered
  outside := by rw [g.i]; exact h.outside
  inside := by rw [g.i, g.readFds, g.maxfd]; exact h.inside

/-- An iteration that serves nothing, because `i` is not set. -/
theorem Loop.Rounded.skip {i : ℕ} (h : l.Rounded d r) (hi : l.i = some i) (hle : i ≤ l.maxfd)
    (hset : i ∉ l.readFds) : l.advance.Rounded d ⟨r.ready, r.served ++ [], r.steps + 1⟩ := by
  obtain ⟨hready, hsteps, -, hmax, hserved⟩ := h.inside i hi
  refine ⟨by simpa using h.ordered, by simp [advance, hi], fun j hj => ?_⟩
  have hj' : j = i + 1 := by simpa [advance, hi] using hj.symm
  subst hj'
  refine ⟨hready, by rw [hsteps], by show i + 1 ≤ l.maxfd + 1; omega, hmax, fun fd => ?_⟩
  rw [List.append_nil, hserved fd]
  constructor
  · rintro ⟨hfd, hlt⟩
    exact ⟨hfd, by omega⟩
  · rintro ⟨hfd, hlt⟩
    have hne : fd ≠ i := fun heq => hset (heq ▸ hfd)
    exact ⟨hfd, by omega⟩

/-- An iteration that serves `i`; accepting may have raised `maxfd`. -/
theorem Loop.Rounded.serve {i : ℕ} (h : l.Rounded d r) (hat : l.At i) (next : l'.i = some (i + 1))
    (readFds : l'.readFds = l.readFds) (maxfd : l.maxfd ≤ l'.maxfd) :
    l'.Rounded d ⟨r.ready, r.served ++ [i], r.steps + 1⟩ := by
  obtain ⟨hi, hle, hset⟩ := hat
  obtain ⟨hready, hsteps, -, hmax, hserved⟩ := h.inside i hi
  refine ⟨?_, by simp [next], fun j hj => ?_⟩
  · -- all that is served so far lies below `i`
    refine List.pairwise_append.mpr ⟨h.ordered, List.pairwise_singleton _ _, ?_⟩
    intro x hx y hy
    rw [List.mem_singleton.mp hy]
    exact ((hserved x).mp hx).2
  · rw [next] at hj
    cases hj
    refine ⟨hready.trans readFds.symm, by rw [hsteps], by omega, fun fd hfd => ?_, fun fd => ?_⟩
    · rw [readFds] at hfd
      exact (hmax fd hfd).trans maxfd
    · -- served below `i + 1` means served below `i`, or `i` itself
      rw [readFds, List.mem_append, List.mem_singleton, hserved fd]
      constructor
      · rintro (⟨hfd, hlt⟩ | rfl)
        · exact ⟨hfd, by omega⟩
        · exact ⟨hset, by omega⟩
      · rintro ⟨hfd, hlt⟩
        by_cases heq : fd = i
        · exact .inr heq
        · exact .inl ⟨hfd, by omega⟩

/-- The end of the `for` loop: nothing that was reported is left. -/
theorem Loop.Rounded.close {i : ℕ} (h : l.Rounded d r) (table : l.maxfd < d.tableSize)
    (hi : l.i = some i) (hlt : l.maxfd < i) :
    ({ l with i := none } : Loop).Rounded d ⟨r.ready, r.served ++ [], r.steps + 1⟩ := by
  obtain ⟨hready, hsteps, hle, hmax, hserved⟩ := h.inside i hi
  refine ⟨by simpa using h.ordered, fun _ => ⟨fun fd => ?_, ?_⟩, fun j hj => by cases hj⟩
  · rw [List.append_nil, hserved fd, hready]
    exact and_iff_left_of_imp fun hfd => (hmax fd hfd).trans_lt hlt
  · show r.steps + 1 ≤ _
    omega

/-- **A step of `main`** takes its round on. -/
theorem mainStep_rounded [Fintype P] {b : Build} {p : P} {a a' : Active P} {e : MainAct}
    (w : l.Watches d a.proc) (h : l.Rounded d r)
    (hstep : mainStep d b p a l e = some (some (a', l'))) : l'.Rounded d (r.next d e) := by
  -- `select` opens a round, `next` skips or closes, the calls serve a descriptor
  cases e with
  | select ready =>
    obtain ⟨⟨-, -, rfl⟩, hr⟩ := Option.ite_none_right_eq_some.mp hstep
    cases hr
    refine ⟨List.Pairwise.nil, fun hi => (by cases hi), fun i hi => ?_⟩
    cases hi
    refine ⟨rfl, rfl, Nat.zero_le _, fun fd hfd => ?_, fun fd => by simp [Round.next]⟩
    have hlt := (Finset.mem_filter.mp hfd).2.1
    exact Nat.le_of_lt_succ hlt
  | selectError | acceptError =>
    obtain ⟨-, hr⟩ := Option.ite_none_right_eq_some.mp hstep
    cases hr
  | next =>
    simp only [mainStep] at hstep
    split at hstep
    · cases hstep
    · rename_i i hi
      split at hstep
      · cases hstep
        exact h.close w.table hi (by assumption)
      · split at hstep
        · cases hstep
        · cases hstep
          exact h.skip hi (by omega) (by assumption)
  | accept fd s =>
    obtain ⟨⟨hat, -, -, -⟩, hr⟩ := Option.ite_none_right_eq_some.mp hstep
    cases hr
    refine h.serve hat (by simp [Loop.advance, hat.1]) rfl ?_
    -- `maxfd` never falls: `accept` can only raise it
    show _ ≤ if _ then _ else _
    split <;> omega
  | acceptAgain =>
    obtain ⟨hat, hr⟩ := Option.ite_none_right_eq_some.mp hstep
    cases hr
    exact h.serve hat (by simp [Loop.advance, hat.1]) rfl le_rfl
  | read fd beyond =>
    obtain ⟨⟨hat, -⟩, hr⟩ := Option.ite_none_right_eq_some.mp hstep
    obtain ⟨⟨ret, l₁⟩, hread, hon⟩ := Option.map_eq_some_iff.mp hr
    obtain ⟨a₁, -, heq⟩ := Option.map_eq_some_iff.mp hon
    cases heq
    obtain ⟨hi, hfds, hmax⟩ := Loop.read_keeps hread
    exact h.serve hat (by simp [Loop.advance, hi, hat.1]) hfds hmax.ge

end Rounds

/-! ### Rounds of a run -/

section Runs

variable {p : P} {acts acts' : List (P × Act)}

theorem mainActs_append : mainActs p (acts ++ acts') = mainActs p acts ++ mainActs p acts' :=
  List.filterMap_append

theorem mainActs_main (q : P) (e : MainAct) :
    mainActs p [(q, .main e)] = if q = p then [e] else [] := by
  by_cases hq : q = p <;> simp [mainActs, hq]

theorem mainActs_client (q : P) (e : ClientAct) : mainActs p [(q, .client e)] = [] := rfl

theorem mem_mainActs {e : MainAct} : e ∈ mainActs p acts ↔ (p, .main e) ∈ acts := by
  rw [mainActs, List.mem_filterMap]
  constructor
  · rintro ⟨⟨q, act⟩, hmem, hact⟩
    cases act with
    | client e' => cases hact
    | main e' =>
      obtain ⟨rfl, heq⟩ := Option.ite_none_right_eq_some.mp hact
      cases heq
      exact hmem
  · intro hmem
    exact ⟨_, hmem, by simp⟩

theorem roundOf_append (d : Descriptors) :
    roundOf d p (acts ++ acts') = (mainActs p acts').foldl (Round.next d) (roundOf d p acts) := by
  rw [roundOf, mainActs_append, List.foldl_append, roundOf]

/-- The round after some steps without `select`. -/
theorem foldl_next (d : Descriptors) (r : Round) {es : List MainAct}
    (h : ∀ ready, MainAct.select ready ∉ es) : es.foldl (Round.next d) r =
      ⟨r.ready, r.served ++ es.filterMap (MainAct.served? d), r.steps + es.length⟩ := by
  induction es generalizing r with
  | nil => simp
  | cons e es ih =>
    have hnext : r.next d e = ⟨r.ready, r.served ++ (e.served? d).toList, r.steps + 1⟩ := by
      cases e with
      | select ready => exact absurd List.mem_cons_self (h ready)
      | selectError | next | accept fd s | acceptAgain | acceptError | read fd beyond => rfl
    rw [List.foldl_cons, ih _ fun ready hmem => h ready (List.mem_cons_of_mem e hmem), hnext]
    cases hserved : e.served? d <;> simp [hserved, Nat.add_comm, Nat.add_left_comm]

variable [Fintype P] {D : P → Descriptors} {build : P → Build} {f : BookingFile} {h h' : Host P}

/-- In every state of a run, every server that is still running is inside its round. -/
def Host.Rounded (D : P → Descriptors) (h : Host P) (acts : List (P × Act)) : Prop :=
  ∀ p c, h.world.proc p = some c → (h.loop p).Rounded (D p) (roundOf (D p) p acts)

theorem loopStep_rounded {pa : P × Act} (inv : h.Inv D build) (hr : h.Rounded D acts)
    (hs : loopStep D build h pa = some h') : h'.Rounded D (acts ++ [pa]) := by
  obtain ⟨q, act⟩ := pa
  obtain ⟨c, hc, hstep⟩ := Option.bind_eq_some_iff.mp hs
  intro p c' hc'
  rw [roundOf_append]
  cases act with
  | client e =>
    obtain ⟨l, hl, rfl⟩ := Option.map_eq_some_iff.mp hstep
    have hrounded := hr p c' hc'
    rw [mainActs_client, List.foldl_nil]
    -- the round of a process is made of its own acts only
    by_cases hpq : p = q
    · subst hpq
      simpa using hrounded.grows (clientStep_grows hl)
    · simpa [Function.update_of_ne hpq] using hrounded
  | main e =>
    obtain ⟨r, hres, rfl⟩ := Option.map_eq_some_iff.mp hstep
    rw [mainActs_main]
    by_cases hpq : p = q
    · subst hpq
      rw [if_pos rfl, List.foldl_cons, List.foldl_nil]
      cases r with
      | none => simp at hc'
      | some al =>
        have hstep := mainStep_rounded (inv.watches p c hc) (hr p c hc) hres
        simpa using hstep
    · rw [if_neg (Ne.symm hpq), List.foldl_nil]
      cases r with
      | none => exact hr p c' (by simpa [Function.update_of_ne hpq] using hc')
      | some al =>
        have hrounded := hr p c' (by simpa [Function.update_of_ne hpq] using hc')
        simpa [Function.update_of_ne hpq] using hrounded

theorem run_rounded (hrun : runFrom (loopStep D build) (Host.start D f) acts = some h) :
    h.Inv D build ∧ h.Rounded D acts := by
  induction acts using List.reverseRecOn generalizing h with
  | nil =>
    cases hrun
    refine ⟨Host.start_inv f, fun p c _ => ⟨List.Pairwise.nil, ?_, fun i hi => by cases hi⟩⟩
    exact fun _ => ⟨fun fd => by simp [roundOf, mainActs], Nat.zero_le _⟩
  | append_singleton acts pa ih =>
    obtain ⟨h₀, hbefore, hs⟩ := runFrom_concat_eq_some.mp hrun
    obtain ⟨inv, hrounded⟩ := ih hbefore
    exact ⟨(loopStep_refines inv hs).1, loopStep_rounded inv hrounded hs⟩

/-- What a `select` reports, in a state with the invariant: the listening socket and the open
    connections that are ready. -/
theorem Host.Inv.selects {p : P} {ready : Finset ℕ} (inv : h.Inv D build)
    (hs : loopStep D build h (p, .main (.select ready)) = some h') :
    ∃ c, h.world.proc p = some c ∧ (h.loop p).i = none ∧ ∀ fd, fd ∈ ready ↔
      (fd = (D p).listenFd ∨ fd ∈ c.conns) ∧ (h.loop p).Ready (D p) fd := by
  obtain ⟨c, hc, hstep⟩ := Option.bind_eq_some_iff.mp hs
  obtain ⟨r, hr, -⟩ := Option.map_eq_some_iff.mp hstep
  obtain ⟨⟨hi, -, rfl⟩, -⟩ := Option.ite_none_right_eq_some.mp hr
  have w := inv.watches p c hc
  refine ⟨c, hc, hi, fun fd => ?_⟩
  show fd ∈ (insert _ c.master).filter _ ↔ _
  rw [Finset.mem_filter, Finset.mem_insert, w.master]
  constructor
  · rintro ⟨hset, -, hready⟩
    exact ⟨hset, hready⟩
  · rintro ⟨hset, hready⟩
    refine ⟨hset, ?_, hready⟩
    -- the listening descriptor and every connection lie below `maxfd + 1`, the bound of `select`
    rcases hset with rfl | hfd
    · exact Nat.lt_succ_of_le w.listen
    · exact Nat.lt_succ_of_le (w.conns fd hfd).2

/-- **Every round serves what was ready.**  Between two calls of `select`, a server serves the
    listening socket and the open connections that were ready at the first, each once and in
    increasing order, and nothing else; it gets from one to the other in a bounded number of
    steps. -/
theorem round_serves (D : P → Descriptors) (build : P → Build) (f : BookingFile) (p : P)
    (before round : List (P × Act)) (ready ready' : Finset ℕ) (h₀ h : Host P) (c : Proc)
    (hbefore : runFrom (loopStep D build) (Host.start D f) before = some h₀)
    (hround : runFrom (loopStep D build) h₀
      ((p, .main (.select ready)) :: round ++ [(p, .main (.select ready'))]) = some h)
    (hquiet : ∀ r, (p, .main (.select r)) ∉ round) (hc : h₀.world.proc p = some c) :
    let served := (mainActs p round).filterMap (MainAct.served? (D p))
    served.Pairwise (· < ·) ∧
    (∀ fd, fd ∈ served ↔
      (fd = (D p).listenFd ∨ fd ∈ c.conns) ∧ (h₀.loop p).Ready (D p) fd) ∧
    (mainActs p round).length ≤ (D p).tableSize + 1 := by
  obtain ⟨h₁, hmid, hlast⟩ := runFrom_concat_eq_some.mp hround
  have hrun : runFrom (loopStep D build) (Host.start D f)
      (before ++ (p, .main (.select ready)) :: round) = some h₁ := by
    rw [runFrom_append, hbefore]
    exact hmid
  obtain ⟨inv, hrounded⟩ := run_rounded hrun
  obtain ⟨h₂, hselect, -⟩ := runFrom_cons_eq_some.mp hmid
  obtain ⟨c₀, hc₀, -, hready⟩ := (run_rounded hbefore).1.selects hselect
  cases hc.symm.trans hc₀
  obtain ⟨c₁, hc₁, hi, -⟩ := inv.selects hlast
  -- the round that ends there is the one that the first `select` has begun
  have hno : ∀ r, MainAct.select r ∉ mainActs p round := fun r hmem => hquiet r (mem_mainActs.mp hmem)
  have hround := hrounded p c₁ hc₁
  rw [roundOf_append, ← List.singleton_append, mainActs_append, mainActs_main, if_pos rfl,
    List.singleton_append, List.foldl_cons, foldl_next _ _ hno] at hround
  obtain ⟨hserved, hsteps⟩ := hround.outside hi
  simp only [Round.next, List.nil_append, Nat.zero_add] at hserved hsteps
  refine ⟨by simpa [Round.next] using hround.ordered, fun fd => ?_, hsteps⟩
  rw [hserved fd]
  exact hready fd

end Runs

/-- The round that reads the id; meanwhile the client sends a command. -/
def idRound : List (Fin 2 × Act) :=
  idle 24 ++ [(0, .main (.read 24 [])), (0, .client (.arrive 24 (ascii "1 2 3" ++ [13, 10])))] ++
    idle 1

/-- The round serves the connection, which by the theorem was all that was ready. -/
theorem round_serves_idRound :
    ((mainActs 0 idRound).filterMap (MainAct.served? threeInherited) = [24] ∧
      (connectedHost.world.proc 0).isSome = true) ∧
    ∀ c, connectedHost.world.proc 0 = some c →
      ∀ fd, fd ∈ (mainActs 0 idRound).filterMap (MainAct.served? threeInherited) ↔
        (fd = threeInherited.listenFd ∨ fd ∈ c.conns) ∧
          (connectedHost.loop 0).Ready threeInherited fd :=
  ⟨by decide +kernel, fun c hc => (round_serves (fun _ => threeInherited) twoServers .zero 0
    connecting idRound {24} {24} connectedHost _ c (runFrom_endOf (by decide +kernel))
    (runFrom_endOf (by decide +kernel)) (by simp [idRound, idle]) hc).2.1⟩

end SystemProgramming.Booking
