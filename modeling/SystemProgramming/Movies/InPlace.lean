import SystemProgramming.Movies.Merge

namespace SystemProgramming.Movies

open Program Runs

/-!
# Movie recommendation — `truemerge` in place

`truemerge` again, statement by statement, with a log of every slot that it touches.

* `Traced.truemerge` — the same program, and the log;
* `Fresh` — no slot is read after it has been overwritten or freed;
* `truemerge_in_place` — **a correct merge in place**, for all runs and all arrays around them.
-/

/-- The two arrays of a request. -/
inductive Column
  | moviename
  | moviescore
  deriving DecidableEq, Repr

/-- What `truemerge` does with a slot. -/
inductive Access
  | read (c : Column) (p : ℕ)
  /-- `free(d[n].moviename[p])` -/
  | free (p : ℕ)
  | write (c : Column) (p : ℕ)
  /-- `newname[i]` and `newscore[i]` are written. -/
  | put (i : ℕ)
  /-- `newname[i]` and `newscore[i]` are read. -/
  | get (i : ℕ)
  deriving DecidableEq, Repr

namespace Access

/-- The slots whose value is used. -/
def uses : Access → List (Column × ℕ)
  | read c p => [(c, p)]
  | free p => [(.moviename, p)]
  | _ => []

/-- The slots whose value is lost. -/
def spoils : Access → List (Column × ℕ)
  | free p => [(.moviename, p)]
  | write c p => [(c, p)]
  | _ => []

/-- The indices into the two arrays. -/
def index : Access → Option ℕ
  | read _ p | free p | write _ p => some p
  | put _ | get _ => none

/-- The indices into the temporaries. -/
def temporary : Access → Option ℕ
  | put i | get i => some i
  | read _ _ | free _ | write _ _ => none

end Access

/-- No slot is used after it has been spoiled. -/
def Fresh (log : List Access) : Prop := log.Pairwise fun a b => List.Disjoint a.spoils b.uses

/-! ### The program with its log -/

namespace Traced

/-- The two arrays, and what has been done with them. -/
structure Memory (α : Type) where
  moviename : List CString
  moviescore : List α
  log : List Access

/-- Code that runs on the arrays and the log, or stops with a fault. -/
abbrev Run (α : Type) := StateT (Memory α) (Except Fault)

variable {α : Type}

/-- Append an access to the log. -/
def note (a : Access) : Run α Unit := modify fun mem => { mem with log := mem.log ++ [a] }

/-- `d[n].moviename[p]`, as it is read. -/
def readName (p : ℕ) : Run α CString := do
  note (.read .moviename p)
  loadAt (← get).moviename p

/-- `d[n].moviescore[p]`, as it is read. -/
def readScore (p : ℕ) : Run α α := do
  note (.read .moviescore p)
  loadAt (← get).moviescore p

/-- `free(d[n].moviename[p])` -/
def freeName (p : ℕ) : Run α Unit := do
  note (.free p)
  let _ ← loadAt (← get).moviename p

/-- `d[n].moviename[p] = s` -/
def writeName (p : ℕ) (s : CString) : Run α Unit := do
  note (.write .moviename p)
  let mem ← get
  set { mem with moviename := ← storeAt mem.moviename p s }

/-- `d[n].moviescore[p] = pts` -/
def writeScore (p : ℕ) (pts : α) : Run α Unit := do
  note (.write .moviescore p)
  let mem ← get
  set { mem with moviescore := ← storeAt mem.moviescore p pts }

/-- `newname[c] = s; newscore[c] = pts; c += 1;` -/
def push (m : Merging α) (s : CString) (pts : α) : Run α (Merging α) := do
  note (.put m.newname.length)
  return { m with newname := m.newname ++ [s], newscore := m.newscore ++ [pts] }

variable [Score α]

/-- The head of the left run goes to the temporaries. -/
def takeLeft (m : Merging α) : Run α (Merging α) := do
  let m' ← push m (← readName m.l) (← readScore m.l)
  return { m' with l := m.l + 1 }

/-- The head of the right run goes to the temporaries. -/
def takeRight (m : Merging α) : Run α (Merging α) := do
  let m' ← push m (← readName m.r) (← readScore m.r)
  return { m' with r := m.r + 1 }

/-- The body of the loop over both runs. -/
def mergeStep (m : Merging α) : Run α (Merging α) := do
  if (← readScore m.l) > (← readScore m.r) then
    takeLeft m
  else if (← readScore m.l) < (← readScore m.r) then
    takeRight m
  else if strcmp (← readName m.l) (← readName m.r) = .lt then
    takeLeft m
  else
    takeRight m

/-- `while (l < mid && r < end)`, with a bound on the number of iterations. -/
def mergeLoop (mid stop : ℕ) : ℕ → Merging α → Run α (Merging α)
  | 0, _ => throw .fuel
  | fuel + 1, m => do
    if m.l < mid ∧ m.r < stop then
      mergeLoop mid stop fuel (← mergeStep m)
    else
      return m

/-- The loop over the rest of the left run, at `j`. -/
def keepLeft (mid stop j : ℕ) : Run α Unit := do
  freeName (stop - (mid - j))
  writeName (stop - (mid - j)) (← readName j)
  writeScore (stop - (mid - j)) (← readScore j)

/-- The loop that copies the temporaries back, at `i`. -/
def writeBack (m : Merging α) (first i : ℕ) : Run α Unit := do
  freeName (first + i)
  note (.get i)
  writeName (first + i) (← loadAt m.newname i)
  writeScore (first + i) (← loadAt m.newscore i)

/-- The loop over `i = 0, …, n - 1`. -/
def loop (n : ℕ) (body : ℕ → Run α Unit) : Run α Unit := fun mem =>
  (forRange n (fun mem i => (body i mem).map Prod.snd) mem).map (Prod.mk ())

/-- `truemerge(arg)` on the arrays of a request with `cnt` entries. -/
def truemerge (temp : Send) (cnt : ℕ) : Run α Unit := do
  let s := temp.mer
  let t := temp.time - 1
  let l := 2 * s * t
  let mid := l + s
  let r := l + s
  let stop := if temp.time = temp.b then cnt else r + s
  let m ← mergeLoop mid stop ((mid - l) + (stop - r) + 1) ⟨l, r, [], []⟩
  loop (mid - m.l) fun k => keepLeft mid stop (m.l + k)
  loop m.newname.length (writeBack m l)

/-! ### What the parts do -/

section Reads

variable {β γ : Type} {es tmp : List (Entry α)} {x y : Entry α} {b : β} {c : γ} {P : Access → Prop}
variable {l r p mid stop room : ℕ} {m' : Merging α}

/-- With the entries `es` in the arrays, `run` returns `b`, leaves the arrays alone, and all that it
    does satisfies `P`. -/
def Reads (es : List (Entry α)) (run : Run α β) (b : β) (P : Access → Prop) : Prop :=
  ∀ log, ∃ new, run ⟨names es, scores es, log⟩ = .ok (b, ⟨names es, scores es, log ++ new⟩) ∧
    ∀ a ∈ new, P a

omit [Score α]

/-- One part after the other reads, and accesses only what both may. -/
theorem Reads.bind {run : Run α β} {k : β → Run α γ} (h : Reads es run b P)
    (hk : Reads es (k b) c P) : Reads es (run >>= k) c P := by
  intro log
  obtain ⟨new, hrun, hnew⟩ := h log
  obtain ⟨new', hrun', hnew'⟩ := hk (log ++ new)
  refine ⟨new ++ new', ?_, fun a ha => ?_⟩
  · show (run _).bind _ = _
    rw [hrun, ← List.append_assoc]
    exact hrun'
  · exact (List.mem_append.mp ha).elim (hnew a) (hnew' a)

/-- Nothing is accessed to give a value back. -/
theorem reads_pure (b : β) : Reads es (pure b) b P := by
  intro log
  exact ⟨[], by rw [List.append_nil]; rfl, by simp⟩

/-- One access of a permitted kind. -/
theorem reads_note {a : Access} (ha : P a) : Reads es (note a) () P := by
  intro log
  exact ⟨[a], rfl, by simpa using ha⟩

/-- A name in range is read. -/
theorem reads_readName (hx : es[p]? = some x) (hp : P (.read .moviename p)) :
    Reads es (readName p) x.name P := by
  refine (reads_note hp).bind fun log => ⟨[], ?_, by simp⟩
  show (loadAt (names es) p).bind _ = _
  rw [loadAt_names hx, List.append_nil]
  rfl

/-- A score in range is read. -/
theorem reads_readScore (hx : es[p]? = some x) (hp : P (.read .moviescore p)) :
    Reads es (readScore p) x.score P := by
  refine (reads_note hp).bind fun log => ⟨[], ?_, by simp⟩
  show (loadAt (scores es) p).bind _ = _
  rw [loadAt_scores hx, List.append_nil]
  rfl

/-- A pair is stored in the next temporaries. -/
theorem reads_push (m : Merging α) (s : CString) (pts : α) (hp : P (.put m.newname.length)) :
    Reads es (push m s pts)
      { m with newname := m.newname ++ [s], newscore := m.newscore ++ [pts] } P :=
  (reads_note hp).bind (reads_pure _)

/-- **The left head is taken**: the reads are at `l`, the store is in the next temporary. -/
theorem reads_takeLeft (hx : es[l]? = some x) (hp : ∀ c, P (.read c l))
    (hput : P (.put tmp.length)) :
    Reads es (takeLeft ⟨l, r, names tmp, scores tmp⟩)
      ⟨l + 1, r, names (tmp ++ [x]), scores (tmp ++ [x])⟩ P := by
  have hlen : (names tmp).length = tmp.length := length_names
  rw [names_append, scores_append]
  exact (reads_readName hx (hp _)).bind <| (reads_readScore hx (hp _)).bind <|
    (reads_push _ _ _ (by rwa [hlen])).bind (reads_pure _)

/-- **The right head is taken**: the reads are at `r`. -/
theorem reads_takeRight (hy : es[r]? = some y) (hp : ∀ c, P (.read c r))
    (hput : P (.put tmp.length)) :
    Reads es (takeRight ⟨l, r, names tmp, scores tmp⟩)
      ⟨l, r + 1, names (tmp ++ [y]), scores (tmp ++ [y])⟩ P := by
  have hlen : (names tmp).length = tmp.length := length_names
  rw [names_append, scores_append]
  exact (reads_readName hy (hp _)).bind <| (reads_readScore hy (hp _)).bind <|
    (reads_push _ _ _ (by rwa [hlen])).bind (reads_pure _)

variable [Score α]

/-- One comparison of the heads. -/
theorem reads_mergeStep (hx : es[l]? = some x) (hy : es[r]? = some y) (hl : ∀ c, P (.read c l))
    (hr : ∀ c, P (.read c r)) (hput : P (.put tmp.length)) :
    Reads es (mergeStep ⟨l, r, names tmp, scores tmp⟩)
      (if x < y then ⟨l + 1, r, names (tmp ++ [x]), scores (tmp ++ [x])⟩
        else ⟨l, r + 1, names (tmp ++ [y]), scores (tmp ++ [y])⟩) P := by
  have hleft := reads_takeLeft (r := r) hx hl hput
  have hright := reads_takeRight (l := l) hy hr hput
  refine (reads_readScore hx (hl _)).bind <| (reads_readScore hy (hr _)).bind ?_
  simp only [Entry.lt_iff, Entry.Before]
  -- the source compares the scores in both directions, and the names if they are equal
  rcases lt_trichotomy x.score y.score with h | h | h
  · rw [if_neg h.not_gt, if_neg (by simp [h.not_gt, h.ne])]
    refine (reads_readScore hx (hl _)).bind <| (reads_readScore hy (hr _)).bind ?_
    rwa [if_pos h]
  · simp only [h, gt_iff_lt, lt_irrefl, if_false, true_and, false_or]
    refine (reads_readScore hx (hl _)).bind <| (reads_readScore hy (hr _)).bind ?_
    simp only [h, lt_irrefl, if_false]
    refine (reads_readName hx (hl _)).bind <| (reads_readName hy (hr _)).bind ?_
    split
    · exact hleft
    · exact hright
  · rw [if_pos h, if_pos (.inl h)]
    exact hleft

/-- **The comparison loop** reads heads of the two runs and fills the temporaries. -/
theorem reads_mergeLoop {fuel : ℕ} (hmid : mid ≤ es.length) (hstop : stop ≤ es.length)
    (hroom : tmp.length + ((mid - l) + (stop - r)) ≤ room)
    (hP : ∀ c p, (l ≤ p ∧ p < mid) ∨ (r ≤ p ∧ p < stop) → P (.read c p))
    (hput : ∀ i < room, P (.put i))
    (h : Movies.mergeLoop (names es) (scores es) room mid stop fuel
      ⟨l, r, names tmp, scores tmp⟩ = .ok m') :
    Reads es (mergeLoop mid stop fuel ⟨l, r, names tmp, scores tmp⟩) m' P := by
  induction fuel generalizing l r tmp with
  | zero => cases h
  | succ fuel ih =>
    rw [Movies.mergeLoop] at h
    rw [mergeLoop]
    by_cases hguard : l < mid ∧ r < stop
    · obtain ⟨hl, hr⟩ := hguard
      have hx : es[l]? = some es[l] := List.getElem?_eq_getElem (by omega)
      have hy : es[r]? = some es[r] := List.getElem?_eq_getElem (by omega)
      have hone (z : Entry α) : (tmp ++ [z]).length = tmp.length + 1 := by simp
      have hstep := reads_mergeStep hx hy (fun c => hP c l (.inl ⟨le_rfl, hl⟩))
        (fun c => hP c r (.inr ⟨le_rfl, hr⟩)) (hput tmp.length (by omega))
      rw [if_pos ⟨hl, hr⟩, mergeStep_eq hx hy (by omega)] at h
      rw [if_pos ⟨hl, hr⟩]
      apply hstep.bind
      -- one head moves to the temporaries, and its position is not read again
      by_cases hlt : es[l] < es[r]
      · rw [if_pos hlt] at h ⊢
        refine ih (by rw [hone]; omega) (fun c p hp => hP c p ?_) h
        exact hp.imp_left fun hp => ⟨by omega, hp.2⟩
      · rw [if_neg hlt] at h ⊢
        refine ih (by rw [hone]; omega) (fun c p hp => hP c p ?_) h
        exact hp.imp_right fun hp => ⟨by omega, hp.2⟩
    · rw [if_neg hguard] at h ⊢
      cases h
      exact reads_pure _

end Reads

section Writes

variable {β γ : Type} {movies movies' : List CString} {pts pts' : List α} {log : List Access}
variable {mem mem' : Memory α} {b : β} {s : CString} {v : α} {p : ℕ}

omit [Score α]

/-- The rest of a computation runs in the memory its first part has left. -/
theorem run_bind {run : Run α β} {k : β → Run α γ} (h : run mem = .ok (b, mem')) :
    (run >>= k) mem = k b mem' := by
  show (run mem).bind _ = _
  rw [h]
  rfl

/-- An access to the log leaves the arrays as they are. -/
theorem note_eq (a : Access) (mem : Memory α) :
    note a mem = .ok ((), { mem with log := mem.log ++ [a] }) := rfl

/-- To look at the memory does not change it. -/
theorem get_eq (mem : Memory α) : (get : Run α (Memory α)) mem = .ok (mem, mem) := rfl

/-- A result without a fault leaves the memory as it is. -/
theorem lift_eq {x : Except Fault β} (h : x = .ok b) (mem : Memory α) :
    (liftM x : Run α β) mem = .ok (b, mem) := by
  subst h
  rfl

/-- What a read of a name gives back and logs. -/
theorem readName_eq (h : loadAt movies p = .ok s) :
    readName p ⟨movies, pts, log⟩ = .ok (s, ⟨movies, pts, log ++ [.read .moviename p]⟩) := by
  unfold readName
  rw [run_bind (note_eq ..), run_bind (get_eq _), lift_eq h]

/-- What a read of a score gives back and logs. -/
theorem readScore_eq (h : loadAt pts p = .ok v) :
    readScore p ⟨movies, pts, log⟩ = .ok (v, ⟨movies, pts, log ++ [.read .moviescore p]⟩) := by
  unfold readScore
  rw [run_bind (note_eq ..), run_bind (get_eq _), lift_eq h]

/-- A name in range is given back; the array is not written. -/
theorem freeName_eq (h : p < movies.length) :
    freeName p ⟨movies, pts, log⟩ = .ok ((), ⟨movies, pts, log ++ [.free p]⟩) := by
  have hload : loadAt movies p = .ok movies[p] := by
    rw [loadAt, List.getElem?_eq_getElem h]
  unfold freeName
  rw [run_bind (note_eq ..), run_bind (get_eq _), run_bind (lift_eq hload _)]
  rfl

/-- What a write of a name does. -/
theorem writeName_eq (h : storeAt movies p s = .ok movies') :
    writeName p s ⟨movies, pts, log⟩ =
      .ok ((), ⟨movies', pts, log ++ [.write .moviename p]⟩) := by
  unfold writeName
  rw [run_bind (note_eq ..), run_bind (get_eq _), run_bind (lift_eq h _)]
  rfl

/-- What a write of a score does. -/
theorem writeScore_eq (h : storeAt pts p v = .ok pts') :
    writeScore p v ⟨movies, pts, log⟩ =
      .ok ((), ⟨movies, pts', log ++ [.write .moviescore p]⟩) := by
  unfold writeScore
  rw [run_bind (note_eq ..), run_bind (get_eq _), run_bind (lift_eq h _)]
  rfl

/-- A store that succeeds is in range. -/
theorem lt_of_storeAt {l l' : List β} (h : storeAt l p b = .ok l') : p < l.length := by
  rw [storeAt] at h
  split at h
  · assumption
  · cases h

/-- What moving an entry of the left run from `j` to `dst` does. -/
def keepLog (j dst : ℕ) : List Access :=
  [.free dst, .read .moviename j, .write .moviename dst, .read .moviescore j,
    .write .moviescore dst]

/-- What copying entry `i` of the temporaries to `dst` does. -/
def backLog (i dst : ℕ) : List Access :=
  [.free dst, .get i, .write .moviename dst, .write .moviescore dst]

/-- A pair is stored in both arrays or in neither. -/
theorem storePair_eq_ok {arrays arrays' : List CString × List α}
    (h : storePair arrays p s v = .ok arrays') :
    storeAt arrays.1 p s = .ok arrays'.1 ∧ storeAt arrays.2 p v = .ok arrays'.2 := by
  obtain ⟨movies, h₁, h⟩ := bind_eq_ok h
  obtain ⟨pts, h₂, h⟩ := bind_eq_ok h
  cases h
  exact ⟨h₁, h₂⟩

/-- **One iteration that moves the rest of the left run**, with the accesses it makes: those of the
    model, and `keepLog` is appended. -/
theorem keepLeft_log {mid stop l k : ℕ} {arrays arrays' : List CString × List α}
    (h : Movies.keepLeft mid stop l arrays k = .ok arrays') (log : List Access) :
    keepLeft mid stop (l + k) ⟨arrays.1, arrays.2, log⟩ =
      .ok ((), ⟨arrays'.1, arrays'.2, log ++ keepLog (l + k) (stop - (mid - (l + k)))⟩) := by
  obtain ⟨name, hname, h⟩ := bind_eq_ok h
  obtain ⟨score, hscore, h⟩ := bind_eq_ok h
  obtain ⟨hmovies, hpts⟩ := storePair_eq_ok h
  unfold keepLeft
  rw [run_bind (freeName_eq (lt_of_storeAt hmovies)), run_bind (readName_eq hname),
    run_bind (writeName_eq hmovies), run_bind (readScore_eq hscore), writeScore_eq hpts]
  simp only [List.append_assoc]
  rfl

/-- **One iteration that writes a temporary back**, with the accesses it makes. -/
theorem writeBack_log {m : Merging α} {first i : ℕ} {arrays arrays' : List CString × List α}
    (h : Movies.writeBack m.newname m.newscore first arrays i = .ok arrays') (log : List Access) :
    writeBack m first i ⟨arrays.1, arrays.2, log⟩ =
      .ok ((), ⟨arrays'.1, arrays'.2, log ++ backLog i (first + i)⟩) := by
  obtain ⟨name, hname, h⟩ := bind_eq_ok h
  obtain ⟨score, hscore, h⟩ := bind_eq_ok h
  obtain ⟨hmovies, hpts⟩ := storePair_eq_ok h
  unfold writeBack
  rw [run_bind (freeName_eq (lt_of_storeAt hmovies)), run_bind (note_eq ..),
    run_bind (lift_eq hname _), run_bind (writeName_eq hmovies),
    run_bind (lift_eq hscore _), writeScore_eq hpts]
  simp only [List.append_assoc]
  rfl

/-- A loop does what its iterations do, one after the other. -/
theorem loop_log {n : ℕ} {f : List CString × List α → ℕ → Except Fault (List CString × List α)}
    {body : ℕ → Run α Unit} {trace : ℕ → List Access} {arrays arrays' : List CString × List α}
    (h : forRange n f arrays = .ok arrays')
    (hbody : ∀ i < n, ∀ a a', f a i = .ok a' → ∀ log,
      body i ⟨a.1, a.2, log⟩ = .ok ((), ⟨a'.1, a'.2, log ++ trace i⟩)) (log : List Access) :
    loop n body ⟨arrays.1, arrays.2, log⟩ =
      .ok ((), ⟨arrays'.1, arrays'.2, log ++ (List.range n).flatMap trace⟩) := by
  -- the log grows round by round, so the invariant says what is logged after `i` rounds
  obtain ⟨mem, hmem, rfl⟩ := forRange_sim (g := fun mem i => (body i mem).map Prod.snd)
    (t := ⟨arrays.1, arrays.2, log⟩)
    (fun i a mem => mem = ⟨a.1, a.2, log ++ (List.range i).flatMap trace⟩) h (by simp)
    fun i hi a a' mem hmem ha => by
      subst hmem
      rw [hbody i hi a a' ha]
      refine ⟨_, rfl, ?_⟩
      rw [List.range_succ, List.flatMap_append, List.append_assoc, List.flatMap_singleton]
  rw [loop, hmem]
  rfl

end Writes

end Traced

/-! ### What is touched, and when -/

section Fresh

variable {log log' : List Access}

/-- Two fresh logs one after the other: what the first spoils, the second must not use. -/
theorem Fresh.append (h : Fresh log) (h' : Fresh log')
    (hdisj : ∀ a ∈ log, ∀ b ∈ log', List.Disjoint a.spoils b.uses) : Fresh (log ++ log') :=
  List.pairwise_append.mpr ⟨h, h', hdisj⟩

/-- Where nothing is spoiled. -/
theorem fresh_of_spoils (h : ∀ a ∈ log, a.spoils = []) : Fresh log :=
  List.Pairwise.imp_of_mem (fun {a b} ha _ _ => by rw [h a ha]; exact List.disjoint_nil_left _)
    (List.pairwise_of_forall (R := fun _ _ : Access => True) fun _ _ => trivial)

/-- The logs of the iterations of a loop: no iteration may use what an earlier one has spoiled. -/
theorem fresh_flatMap {n : ℕ} {trace : ℕ → List Access} (h : ∀ i < n, Fresh (trace i))
    (hdisj : ∀ i j, i < j → j < n → ∀ a ∈ trace i, ∀ b ∈ trace j, List.Disjoint a.spoils b.uses) :
    Fresh ((List.range n).flatMap trace) := by
  refine List.pairwise_flatMap.mpr ⟨fun i hi => h i (List.mem_range.mp hi), ?_⟩
  exact List.pairwise_lt_range.imp_of_mem fun {i j} _ hj hij => hdisj i j hij (List.mem_range.mp hj)

/-- An access of a loop is one of some iteration. -/
theorem mem_flatMap_range {n : ℕ} {trace : ℕ → List Access} {a : Access} :
    a ∈ (List.range n).flatMap trace ↔ ∃ i < n, a ∈ trace i := by
  simp [List.mem_flatMap]

open Traced (keepLog backLog)

/-- To move a pair to another slot is fresh: the slot is freed before it is written. -/
theorem fresh_keepLog {j dst : ℕ} (h : j ≠ dst) : Fresh (keepLog j dst) := by
  simp [Fresh, keepLog, Access.spoils, Access.uses, h.symm]

/-- To write a temporary back is fresh. -/
theorem fresh_backLog (i dst : ℕ) : Fresh (backLog i dst) := by
  simp [Fresh, backLog, Access.spoils, Access.uses]

variable {a : Access} {i j dst : ℕ} {x : Column × ℕ}

/-- Only the destination is spoiled. -/
theorem keepLog_spoils (ha : a ∈ keepLog j dst) (hx : x ∈ a.spoils) : x.2 = dst := by
  simp only [keepLog, List.mem_cons, List.not_mem_nil, or_false] at ha
  rcases ha with rfl | rfl | rfl | rfl | rfl <;> simp_all [Access.spoils]

/-- The source and the destination are used. -/
theorem keepLog_uses (ha : a ∈ keepLog j dst) (hx : x ∈ a.uses) : x.2 = j ∨ x.2 = dst := by
  simp only [keepLog, List.mem_cons, List.not_mem_nil, or_false] at ha
  rcases ha with rfl | rfl | rfl | rfl | rfl <;> simp_all [Access.uses]

/-- Only the slot that is written back is spoiled. -/
theorem backLog_spoils (ha : a ∈ backLog i dst) (hx : x ∈ a.spoils) : x.2 = dst := by
  simp only [backLog, List.mem_cons, List.not_mem_nil, or_false] at ha
  rcases ha with rfl | rfl | rfl | rfl <;> simp_all [Access.spoils]

/-- No other slot is used. -/
theorem backLog_uses (ha : a ∈ backLog i dst) (hx : x ∈ a.uses) : x.2 = dst := by
  simp only [backLog, List.mem_cons, List.not_mem_nil, or_false] at ha
  rcases ha with rfl | rfl | rfl | rfl <;> simp_all [Access.uses]

/-- The slots of an iteration are its source and its destination. -/
theorem keepLog_index {p : ℕ} (ha : a ∈ keepLog j dst) (hp : p ∈ a.index) : p = j ∨ p = dst := by
  simp only [keepLog, List.mem_cons, List.not_mem_nil, or_false] at ha
  rcases ha with rfl | rfl | rfl | rfl | rfl <;> simp_all [Access.index]

/-- No temporary is accessed. -/
theorem keepLog_temporary (ha : a ∈ keepLog j dst) : a.temporary = none := by
  simp only [keepLog, List.mem_cons, List.not_mem_nil, or_false] at ha
  rcases ha with rfl | rfl | rfl | rfl | rfl <;> rfl

/-- The slot of an iteration is its destination. -/
theorem backLog_index {p : ℕ} (ha : a ∈ backLog i dst) (hp : p ∈ a.index) : p = dst := by
  simp only [backLog, List.mem_cons, List.not_mem_nil, or_false] at ha
  rcases ha with rfl | rfl | rfl | rfl <;> simp_all [Access.index]

/-- The temporary of an iteration is its own. -/
theorem backLog_temporary {i' : ℕ} (ha : a ∈ backLog i dst) (hi : i' ∈ a.temporary) : i' = i := by
  simp only [backLog, List.mem_cons, List.not_mem_nil, or_false] at ha
  rcases ha with rfl | rfl | rfl | rfl <;> simp_all [Access.temporary]

/-- The accesses stay between `first` and `stop`, the temporaries have room for `stop - first`
    entries, and nothing is read too late. -/
structure InPlace (first stop : ℕ) (log : List Access) : Prop where
  index : ∀ a ∈ log, ∀ p ∈ a.index, first ≤ p ∧ p < stop
  temporary : ∀ a ∈ log, ∀ i ∈ a.temporary, i < stop - first
  fresh : Fresh log

/-- What the comparison loop does. -/
def Compares (first stop : ℕ) (a : Access) : Prop :=
  (∃ c p, a = .read c p ∧ first ≤ p ∧ p < stop) ∨ ∃ i < stop - first, a = .put i

/-- The `n` entries that are left of the left run move to the end of the right run, which is at least
    as long, and the `c` others are copied back before them. -/
theorem inPlace_log {first stop : ℕ} (mid n c : ℕ) (hn : first + n ≤ mid)
    (hlong : mid - first ≤ stop - mid) (hc : first + (c + n) ≤ stop)
    (hlog : ∀ a ∈ log, Compares first stop a) :
    InPlace first stop (log ++ ((List.range n).flatMap (fun k =>
        keepLog (mid - n + k) (stop - (mid - (mid - n + k)))) ++
      (List.range c).flatMap fun i => backLog i (first + i))) := by
  -- the rest of the left run moves up, from the front on: a target lies behind all later sources
  have hkeep : Fresh ((List.range n).flatMap fun k =>
      keepLog (mid - n + k) (stop - (mid - (mid - n + k)))) := by
    apply fresh_flatMap (fun k hk => fresh_keepLog (by omega))
    intro k k' hkk hk' a ha b hb x hx hy
    have hdst := keepLog_spoils ha hx
    have hsrc := keepLog_uses hb hy
    omega
  -- each entry of the temporaries has its own target
  have hback : Fresh ((List.range c).flatMap fun i => backLog i (first + i)) := by
    apply fresh_flatMap (fun i _ => fresh_backLog _ _)
    intro i i' hii hi' a ha b hb x hx hy
    have hdst := backLog_spoils ha hx
    have hdst' := backLog_uses hb hy
    omega
  -- comparing spoils nothing
  have hnone : ∀ a ∈ log, a.spoils = [] := by
    intro a ha
    rcases hlog a ha with ⟨c, p, rfl, -⟩ | ⟨i, -, rfl⟩ <;> rfl
  -- the slots of the arrays, those of the temporaries, and the order of the accesses
  refine ⟨fun a ha p hp => ?_, fun a ha i hi => ?_, ?_⟩
  · rcases List.mem_append.mp ha with ha | ha
    · rcases hlog a ha with ⟨c, p', rfl, hp'⟩ | ⟨i, -, rfl⟩
      · obtain rfl := Option.some.inj hp
        exact hp'
      · cases hp
    · rcases List.mem_append.mp ha with ha | ha
      · obtain ⟨k, hk, ha⟩ := mem_flatMap_range.mp ha
        have hindex := keepLog_index ha hp
        omega
      · obtain ⟨i, hi, ha⟩ := mem_flatMap_range.mp ha
        have hindex := backLog_index ha hp
        omega
  · rcases List.mem_append.mp ha with ha | ha
    · rcases hlog a ha with ⟨c, p, rfl, -⟩ | ⟨i', hi', rfl⟩
      · cases hi
      · obtain rfl := Option.some.inj hi
        exact hi'
    · rcases List.mem_append.mp ha with ha | ha
      · obtain ⟨k, hk, ha⟩ := mem_flatMap_range.mp ha
        rw [keepLog_temporary ha] at hi
        cases hi
      · obtain ⟨i', hi', ha⟩ := mem_flatMap_range.mp ha
        have htemporary := backLog_temporary ha hi
        omega
  · refine (fresh_of_spoils hnone).append (hkeep.append hback fun a ha b hb x hx hy => ?_)
      fun a ha b hb => by rw [hnone a ha]; exact List.disjoint_nil_left _
    obtain ⟨k, hk, ha⟩ := mem_flatMap_range.mp ha
    obtain ⟨i, hi, hb⟩ := mem_flatMap_range.mp hb
    have hdst := keepLog_spoils ha hx
    have hdst' := backLog_uses hb hy
    omega

end Fresh

/-! ### The whole program -/

variable {α : Type} [Score α] {es xs ys pre post : List (Entry α)}

/-- The traced program merges, whatever the size of the temporaries. -/
theorem traced_truemerge_eq {s t b cnt : ℕ} (hpre : pre.length = 2 * s * t) (hxs : xs.length = s)
    (hlong : s ≤ ys.length)
    (hstop : (if t + 1 = b then cnt else 2 * s * t + s + s) = 2 * s * t + s + ys.length)
    (hes : es = pre ++ (xs ++ (ys ++ post))) :
    ∃ log, Traced.truemerge ⟨t + 1, s, b⟩ cnt ⟨names es, scores es, []⟩ =
        .ok ((), ⟨names (pre ++ (mergeRuns xs ys ++ post)),
          scores (pre ++ (mergeRuns xs ys ++ post)), log⟩) ∧
      InPlace pre.length (pre.length + s + ys.length) log := by
  obtain ⟨merged, left, right, arrays, -, hleft, hlen, hloop, hkeep, hwrite⟩ :=
    truemerge_loops hxs (hxs.symm ▸ hlong) (le_refl (xs.length + ys.length)) hes
  have hes' : es.length = pre.length + (xs.length + (ys.length + post.length)) := by
    rw [hes]
    simp only [List.length_append]
  have hreads : Traced.Reads es _ _ (Compares pre.length (pre.length + s + ys.length)) :=
    Traced.reads_mergeLoop (l := pre.length) (r := pre.length + s) (by omega) (by omega)
      (by rw [List.length_nil]; omega) (fun c p hp => .inl ⟨c, p, rfl, by omega, by omega⟩)
      (fun i hi => .inr ⟨i, by omega, rfl⟩)
      (show mergeLoop _ _ _ _ _ _ ⟨_, _, names ([] : List (Entry α)), scores []⟩ = _ from hloop)
  -- the log of the comparisons, then those of the two copying loops
  obtain ⟨log, hlog, hcompares⟩ := hreads []
  have hrest : pre.length + s - (pre.length + s - left.length) = left.length := by omega
  refine ⟨_, ?_, inPlace_log (pre.length + s) left.length merged.length (by omega) (by omega)
    (by omega) hcompares⟩
  unfold Traced.truemerge
  simp only [← hpre, Nat.add_sub_cancel] at hstop ⊢
  rw [hstop]
  apply (Traced.run_bind hlog).trans
  simp only [hrest, length_names]
  rw [Traced.run_bind (Traced.loop_log hkeep (fun k _ a a' h log =>
      Traced.keepLeft_log h log) _),
    Traced.loop_log hwrite (fun i _ a a' h log => Traced.writeBack_log h log)]
  simp

/-- **`truemerge` is a correct merge in place.**  The left run `xs` of length `s` and the right run
    `ys`, at least as long, are replaced by a sorted permutation of their entries, each name with its
    own score; the arrays around them stay.  Every index lies in the two runs, no slot is read after
    it has been overwritten or freed, and where the two runs are shorter than the temporaries, the
    temporaries are not overrun, so that `truemerge` does just this. -/
theorem truemerge_in_place (d : Data α) (pre xs ys post : List (Entry α)) {s t b : ℕ}
    (hpre : pre.length = 2 * s * t) (hxs : xs.length = s) (hlong : s ≤ ys.length)
    (hstop : (if t + 1 = b then d.cnt else 2 * s * t + s + s) = 2 * s * t + s + ys.length)
    (hnames : d.moviename = names (pre ++ (xs ++ (ys ++ post))))
    (hscores : d.moviescore = scores (pre ++ (xs ++ (ys ++ post))))
    (hx : xs.Pairwise (· ≤ ·)) (hy : ys.Pairwise (· ≤ ·)) :
    ∃ zs log, zs.Perm (xs ++ ys) ∧ zs.Pairwise (· ≤ ·) ∧
      Traced.truemerge ⟨t + 1, s, b⟩ d.cnt ⟨d.moviename, d.moviescore, []⟩ =
        .ok ((), ⟨names (pre ++ (zs ++ post)), scores (pre ++ (zs ++ post)), log⟩) ∧
      InPlace (2 * s * t) (2 * s * t + s + ys.length) log ∧
      (s + ys.length < 2 * s + d.base →
        (∀ a ∈ log, ∀ i ∈ a.temporary, i < 2 * s + d.base) ∧
        truemerge d ⟨t + 1, s, b⟩ = .ok { d with
          moviename := names (pre ++ (zs ++ post)), moviescore := scores (pre ++ (zs ++ post)) }) := by
  obtain ⟨log, htraced, hlog⟩ := traced_truemerge_eq hpre hxs hlong hstop rfl
  rw [hpre] at hlog
  rw [hnames, hscores]
  refine ⟨mergeRuns xs ys, log, mergeRuns_perm xs ys, mergeRuns_sorted hx hy, htraced, hlog,
    fun hroom => ⟨fun a ha i hi => ?_, ?_⟩⟩
  · -- the temporary arrays are reserved for `2 * s + base` entries
    have hlt := hlog.temporary a ha i hi
    omega
  · -- without the log it is the merge of the program
    refine truemerge_eq hnames hscores (by simpa using hpre) hxs (by omega) ?_ (by simp only; omega)
    simp only [hpre]
    exact hstop

/-- Two runs of one title each, and room for them. -/
def twoTitles : Data ℤ :=
  { moviename := names [⟨[66], 1⟩, ⟨[65], 2⟩]
    moviescore := scores [⟨[66], 1⟩, ⟨[65], 2⟩]
    cnt := 2
    base := 2
    size := 1
    left := 0 }

/-- Two runs of one title each, where the right one comes first. -/
theorem truemerge_in_place_twoTitles :
    ∃ (zs : List (Entry ℤ)) (log : List Access),
      zs.Perm [⟨[66], 1⟩, ⟨[65], 2⟩] ∧ zs.Pairwise (· ≤ ·) ∧ InPlace 0 2 log ∧
      truemerge twoTitles ⟨1, 1, 1⟩ =
        .ok { twoTitles with moviename := names zs, moviescore := scores zs } := by
  obtain ⟨zs, log, hperm, hsorted, -, hlog, hroom⟩ :=
    truemerge_in_place twoTitles [] [⟨[66], 1⟩] [⟨[65], 2⟩] [] (t := 0) (b := 1) rfl rfl le_rfl rfl
      rfl rfl (List.pairwise_singleton _ _) (List.pairwise_singleton _ _)
  refine ⟨zs, log, hperm, hsorted, hlog, ?_⟩
  simpa using (hroom (by decide)).2

end SystemProgramming.Movies
