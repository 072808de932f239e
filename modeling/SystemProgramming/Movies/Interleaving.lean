import SystemProgramming.Movies.AccessPhases
import SystemProgramming.Movies.Agreement

namespace SystemProgramming.Movies.Accesses

open ForkJoin Footprint Transition

/-!
# Movie recommendation — every interleaving of the thread build

* `alone_cal`, `alone_wr` — the threads that have a request for themselves;
* `main_settles` — run one thread after the other, the server ends with the plain sorts;
* `tserver_interleavings` — **so it does in every interleaving** of the accesses of all threads, and
  no two threads race.
-/

variable {α : Type} {n N : ℕ} {m m' : Memory (Cell.Value α)} {d d' : Data α} {F : Footprint Cell}

/-! ### `cal` -/

/-- The data with another field. -/
def setField (d : Data α) : Cut → ℕ → Data α
  | .cnt, v => { d with cnt := v }
  | .base, v => { d with base := v }
  | .size, v => { d with size := v }
  | .left, v => { d with left := v }

theorem follows_writeData {f : Cut} {v : ℕ} (hf : .data n f ∈ F.sets) :
    Follows F n (writeData n f v) d () (setField d f v) := by
  intro m hm
  refine ⟨_, .write hf .done, ?_⟩
  constructor
  · intro p
    rw [Function.update_of_ne (by simp), hm.names]
    cases f <;> rfl
  · intro p
    rw [Function.update_of_ne (by simp), hm.scores]
    cases f <;> rfl
  · -- the field that was written is new, the others are as before
    intro f'
    by_cases hff : f' = f
    · subst hff
      rw [Function.update_self]
      cases f' <;> rfl
    · rw [Function.update_of_ne (by simpa using hff), hm.data]
      cases f <;> cases f' <;> first | rfl | exact absurd rfl hff

/-- A matching title is put behind the others. -/
theorem follows_appendEntry {s : CString} {v : α} (hlen : d.moviescore.length = d.moviename.length)
    (hname : .moviename n d.moviename.length ∈ F.sets)
    (hscore : .moviescore n d.moviename.length ∈ F.sets) :
    Follows F n
      (do writeName n d.moviename.length s; writeScore n d.moviename.length v)
      d () (arrays d (d.moviename ++ [s], d.moviescore ++ [v])) := by
  intro m hm
  refine ⟨_, .write hname (.write hscore .done), ?_⟩
  constructor
  · -- the new title is at the end, and so is the new score
    intro p
    rw [Function.update_of_ne (by simp)]
    show _ = (d.moviename ++ [s])[p]?
    rw [getElem?_append_singleton]
    split
    · rename_i hp
      rw [hp, Function.update_self]
    · rename_i hp
      rw [Function.update_of_ne (by simpa using hp), hm.names]
  · intro p
    show _ = (d.moviescore ++ [v])[p]?
    rw [getElem?_append_singleton, hlen]
    split
    · rename_i hp
      rw [hp, Function.update_self]
    · rename_i hp
      rw [Function.update_of_ne (by simpa using hp), Function.update_of_ne (by simp), hm.scores]
  · intro f
    rw [Function.update_of_ne (by simp), Function.update_of_ne (by simp), hm.data]
    cases f <;> rfl

variable [Score α]

/-- The loop of `cal` fills the arrays. -/
theorem follows_calLoop (movies : List (MovieProfile α)) (r : Request α)
    (hlen : d.moviescore.length = d.moviename.length) (hF : Owns F n 0 N)
    (hN : d.moviename.length + movies.length ≤ N) :
    Follows F n (movies.foldlM (calStep n r) d.moviename.length) d
      (movies.foldl (Movies.calStep r) (d.moviename, d.moviescore)).1.length
      (arrays d (movies.foldl (Movies.calStep r) (d.moviename, d.moviescore))) := by
  induction movies generalizing d with
  | nil => exact follows_pure _
  | cons x movies ih =>
    rw [List.length_cons] at hN
    rw [List.foldlM_cons, List.foldl_cons, calStep, Movies.calStep]
    -- a movie that matches is appended to both columns, any other one is skipped
    split
    · have happend := (follows_appendEntry (s := x.title) (v := r.rate x) hlen
        (hF.name (Nat.zero_le _) (by omega)) (hF.score (Nat.zero_le _) (by omega))).bind
        (f := fun _ => pure (d.moviename.length + 1)) (follows_pure _)
      have hlen' : (arrays d (d.moviename ++ [x.title], d.moviescore ++ [r.rate x])).moviename.length
          = d.moviename.length + 1 := List.length_append
      have hrest := ih (d := arrays d (d.moviename ++ [x.title], d.moviescore ++ [r.rate x]))
        (by rw [hlen', ← hlen]; exact List.length_append) (by omega)
      rw [hlen'] at hrest
      rw [bind_assoc] at happend
      exact happend.bind hrest
    · exact (follows_pure _).bind (ih hlen (by omega))

omit [Score α] in
theorem follows_calBase (hdata : ∀ f, .data n f ∈ F.sets) :
    Follows F n (calBase n) d () (setField d .base (baseOf d.cnt)) := by
  have hread : Follows F n (readData n .cnt) d d.cnt d := follows_readData (F.sub (hdata .cnt))
  have hwrite (v : ℕ) (hv : baseOf d.cnt = v) :
      Follows F n (writeData n .base v) d () (setField d .base (baseOf d.cnt)) := by
    rw [hv]
    exact follows_writeData (hdata .base)
  unfold calBase
  -- one comparison after the other, each of which reads `cnt` again
  refine hread.bind ?_
  split
  · exact hwrite 32 (by unfold baseOf; split_ifs; rfl)
  refine hread.bind ?_
  split
  · exact hwrite 16 (by unfold baseOf; split_ifs; rfl)
  refine hread.bind ?_
  split
  · exact hwrite 8 (by unfold baseOf; split_ifs; rfl)
  refine hread.bind ?_
  split
  · exact hwrite 4 (by unfold baseOf; split_ifs; rfl)
  refine hread.bind ?_
  split
  · exact hwrite 2 (by unfold baseOf; split_ifs; rfl)
  · exact hwrite 1 (by unfold baseOf; split_ifs; rfl)

/-- **`cal` access by access** fills in the data of its request. -/
theorem alone_cal (movies : List (MovieProfile α)) (r : Request α) (hN : movies.length ≤ N)
    (hm : Holds m n Data.empty) :
    ∃ m', Alone (ofRequest N n) (cal movies n r) m () m' ∧ Holds m' n (Movies.cal movies r) := by
  have hdata (f : Cut) : .data n f ∈ (ofRequest N n).sets := ⟨rfl, trivial⟩
  have hF : Owns (ofRequest N n) n 0 N := fun p _ hp => ⟨⟨rfl, hp⟩, ⟨rfl, hp⟩⟩
  have hread {d : Data α} (f : Cut) : Follows (ofRequest N n) n (readData n f) d (field d f) d :=
    follows_readData (hdata f)
  have hloop := follows_calLoop (d := (Data.empty : Data α)) movies r rfl hF
    (by simpa [Data.empty] using hN)
  have hall : Follows (ofRequest N n) n (cal movies n r) Data.empty () (Movies.cal movies r) :=
    hloop.bind <| (follows_writeData (hdata .cnt)).bind <| (follows_calBase hdata).bind <|
      (hread .cnt).bind <| (hread .base).bind <| (follows_writeData (hdata .size)).bind <|
      (hread .cnt).bind <| (hread .base).bind (follows_writeData (hdata .left))
  exact hall m hm

/-! ### `wr` -/

omit [Score α] in
/-- **`wr` access by access** writes the titles to the stream of its request, and frees them. -/
theorem alone_wr (hcnt : d.cnt = d.moviename.length) (hN : d.cnt ≤ N) (hm : Holds m n d) :
    ∃ m', Alone (ofRequest N n) (wr n) m () m' ∧ m' (.out n) = d.moviename := by
  have hout : .out n ∈ (ofRequest N n).sets := ⟨rfl, trivial⟩
  -- after `i` rounds `i` lines are written, and the titles behind them are still there
  let I (i : ℕ) (_ _ : Unit) (m : Memory (Cell.Value α)) : Prop :=
    m (.out n) = d.moviename.take i ∧ ∀ p, i ≤ p → m (.moviename n p) = d.moviename[p]?
  have hfold : Program.forRange (ε := Fault) d.cnt (fun _ _ => .ok ()) () = .ok () :=
    Program.forRange_eq (fun _ => ()) rfl fun _ _ => rfl
  have hstart : I 0 () () (Function.update m (.out n) []) :=
    ⟨by rw [Function.update_self]; rfl, fun p _ => by
      rw [Function.update_of_ne (by simp), hm.names]⟩
  obtain ⟨_, m', hloop, hend⟩ := Alone.forRange (F := ofRequest N n) (g := wrStep (α := α) n) I hfold
    hstart fun i hi _ _ _ m₁ ⟨hlines, hnames⟩ _ => by
      have hi' : i < d.moviename.length := hcnt ▸ hi
      have hname : .moviename n i ∈ (ofRequest N n).sets := ⟨rfl, hi.trans_le hN⟩
      have hget : m₁ (.moviename n i) = some d.moviename[i] := by
        rw [hnames i le_rfl, List.getElem?_eq_getElem hi']
      let m₂ := Function.update m₁ (.out n) (d.moviename.take i ++ [d.moviename[i]])
      have hget' : m₂ (.moviename n i) = some d.moviename[i] :=
        (Function.update_of_ne (by simp) _ _).trans hget
      refine ⟨(), Function.update m₂ (.moviename n i) none, ?_, ?_, fun p hp => ?_⟩
      · refine (alone_readName hget hname).bind
          (Alone.bind (b := ()) (.read ((ofRequest N n).sub hout) ?_) (alone_freeName hget' hname))
        rw [hlines]
        exact .write hout .done
      · -- the line is written before its title is freed
        have hlines' : m₂ (.out n) = d.moviename.take (i + 1) := by
          rw [List.take_add_one, List.getElem?_eq_getElem hi']
          exact Function.update_self ..
        rw [Function.update_of_ne (by simp), hlines']
      · have hnames' : m₂ (.moviename n p) = d.moviename[p]? :=
          (Function.update_of_ne (by simp) _ _).trans (hnames p (by omega))
        rw [Function.update_of_ne (by simp; omega), hnames']
  refine ⟨m', ?_, ?_⟩
  · exact Alone.bind (.write hout .done) <|
      (alone_readData (F := ofRequest N n) (hm.update (by simp)) .cnt ⟨rfl, trivial⟩).bind hloop
  · rw [hend.1, hcnt, List.take_length]

/-! ### `main` -/

variable {movies : List (MovieProfile α)} {reqs : List (Request α)}

/-- The arrays of request `n` after the sorting threads. -/
def afterSort (movies : List (MovieProfile α)) (reqs : List (Request α)) (n : ℕ) : Data α :=
  match reqs[n]? with
  | some r => (Movies.cal movies r).put
      (sortedRuns (matching movies r) (Movies.cal movies r).size (Movies.cal movies r).base)
  | none => .empty

/-- What `cal` leaves for a request is cut into chunks, and the later phases end. -/
structure Phases (movies : List (MovieProfile α)) (reqs : List (Request α)) (n : ℕ) : Prop where
  cuts : Cuts (afterCal movies reqs n)
  cnt : (afterCal movies reqs n).cnt ≤ movies.length
  sorts : (List.range (afterCal movies reqs n).base).foldlM (Movies.sorting movies.length)
    (afterCal movies reqs n) = .ok (afterSort movies reqs n)
  merges : (mergeLevels (afterCal movies reqs n).size (afterCal movies reqs n).base 1).flatten.foldlM
    Movies.truemerge (afterSort movies reqs n) = .ok (afterMerge movies reqs n)
  lines : (afterMerge movies reqs n).cnt = (afterMerge movies reqs n).moviename.length
  written : (afterMerge movies reqs n).cnt ≤ movies.length

theorem phases (h : ValidInput movies reqs) (hn : n < reqs.length) : Phases movies reqs n := by
  have hget : reqs[n]? = some reqs[n] := List.getElem?_eq_getElem hn
  have hmem : reqs[n] ∈ reqs := List.getElem_mem hn
  -- the runs of the request alone: `cal`, then the sorts, then the levels of the merge
  obtain ⟨hcal, hchunked⟩ := cal_eq movies reqs[n]
  have hchunked := hchunked (h.matching_ne_nil hmem)
  have hle := length_matching_le movies reqs[n]
  have hphases := phases_eq hchunked (h.entries hmem) hle (.refl _)
    ⟨mergeLevels (Movies.cal movies reqs[n]).size (Movies.cal movies reqs[n]).base 1,
      List.forall₂_same.mpr fun _ _ => .refl _, rfl⟩
  rw [← hcal] at hphases
  constructor
  · simp only [afterCal, hget]
    exact ⟨rfl, rfl, hchunked.size_pos⟩
  · simp only [afterCal, hget]
    exact hchunked.cnt.trans_le hle
  · simp only [afterCal, afterSort, hget]
    exact hphases.1
  · simp only [afterCal, afterSort, afterMerge, hget]
    exact hphases.2
  · simp only [afterMerge, hget, Data.put, length_names, List.length_map, Runs.length_plainSort]
    exact hchunked.cnt
  · simp only [afterMerge, hget]
    exact hchunked.cnt.trans_le hle

/-- All cells of the requests below `k`, with their indices in range. -/
def upTo (N k : ℕ) : Footprint Cell where
  uses := {c | c.request < k ∧ InRange N c}
  sets := {c | c.request < k ∧ InRange N c}
  sub := subset_rfl

omit [Score α] in
/-- A phase whose threads for request `n` turn what `P n` says into what `Q n` says. -/
theorem settles_phase (start : ℕ → Threads α → Threads α) {k : ℕ}
    (P Q : ℕ → Memory (Cell.Value α) → Prop)
    (hP : ∀ n m m', (∀ c : Cell, c.request = n → m' c = m c) → P n m → P n m')
    (hQ : ∀ n m m', (∀ c : Cell, c.request = n → m' c = m c) → Q n m → Q n m')
    (hstart : ∀ n < k, ∀ m, P n m → ∃ m', Forks (ofRequest N n) (start n) m m' ∧ Q n m')
    (hm : ∀ n < k, P n m) :
    ∃ m', Settles (upTo N k) (startAll start (List.range k) .skip) m m' ∧ ∀ n < k, Q n m' := by
  obtain ⟨m', hforks, hm'⟩ := Forks.each (ofRequest N) start (V := Cell.Value α)
    (fun n => {c | c.request = n}) P Q hP hQ (fun n c hc => hc.1)
    (List.nodup_range.imp fun {n n'} hne c hc hc' => hne (hc.symm.trans hc'))
    (fun n hn => hstart n (List.mem_range.mp hn)) fun n hn => hm n (List.mem_range.mp hn)
  -- the requests use different places, so the phase as a whole stays in all of them
  have hle : Footprint.all (ofRequest N) (List.range k) ≤ upTo N k := by
    refine Footprint.all_le fun n hn => ?_
    have hsub : (ofRequest N n).uses ⊆ (upTo N k).uses := fun c hc =>
      ⟨hc.1.trans_lt (List.mem_range.mp hn), hc.2⟩
    exact ⟨hsub, hsub⟩
  exact ⟨m', (hforks.mono hle).join, fun n hn => hm' n (List.mem_range.mpr hn)⟩

omit [Score α] in
theorem Addressed.congr {d₀ : Data α} (hm : Addressed m n d₀ d)
    (h : ∀ c : Cell, c.request = n → m' c = m c) : Addressed m' n d₀ d :=
  ⟨⟨hm.holds.congr h, hm.like, (h _ rfl).trans hm.room⟩, fun j hj => (h _ rfl).trans (hm.order j hj)⟩

/-- **One thread after the other**, the server ends with the plain sorts in its streams. -/
theorem main_settles (h : ValidInput movies reqs) :
    ∃ r, Settles (upTo movies.length reqs.length) (main movies reqs) Cell.empty r ∧
      ∀ n (hn : n < reqs.length), r (.out n) = plainLines movies reqs[n] := by
  -- four phases, each joined before the next: `cal`, the sorts, the merges and `wr`
  obtain ⟨m₁, hcal, hm₁⟩ := settles_phase (N := movies.length) (startCal movies reqs)
    (k := reqs.length) (m := Cell.empty) (fun n m => Holds m n Data.empty)
    (fun n m => Holds m n (afterCal movies reqs n))
    (fun n m m' hc hm => hm.congr hc) (fun n m m' hc hm => hm.congr hc)
    (fun n hn m hm => by
      obtain ⟨m', hrun, hm'⟩ := alone_cal movies reqs[n] le_rfl hm
      have hget : reqs[n]? = some reqs[n] := List.getElem?_eq_getElem hn
      refine ⟨m', ?_, by simpa only [afterCal, hget] using hm'⟩
      unfold startCal
      rw [hget]
      exact .thread hrun.run)
    fun n _ => ⟨fun _ => rfl, fun _ => rfl, fun f => by cases f <;> rfl⟩
  obtain ⟨m₂, hsorts, hm₂⟩ := settles_phase (N := movies.length) (startSorts movies.length)
    (k := reqs.length) (m := m₁) (fun n m => Holds m n (afterCal movies reqs n))
    (fun n m => Addressed m n (afterCal movies reqs n) (afterSort movies reqs n))
    (fun n m m' hc hm => hm.congr hc) (fun n m m' hc hm => hm.congr hc)
    (fun n hn m hm => by
      have hphases := phases h hn
      obtain ⟨m', hforks, hready, hsent⟩ := forks_sorts hphases.cuts hphases.cnt hm hphases.sorts
      exact ⟨m', hforks, hready, hsent⟩) hm₁
  obtain ⟨m₃, hmerges, hm₃⟩ := settles_phase (N := movies.length)
    (fun n next => .par (merge n) next)
    (k := reqs.length) (m := m₂)
    (fun n m => Addressed m n (afterCal movies reqs n) (afterSort movies reqs n))
    (fun n m => Holds m n (afterMerge movies reqs n))
    (fun n m m' hc hm => hm.congr hc) (fun n m m' hc hm => hm.congr hc)
    (fun n hn m hm => by
      have hphases := phases h hn
      obtain ⟨m', hsettles, hm'⟩ := settles_merge hphases.cuts hphases.cnt hm hphases.merges
      exact ⟨m', .thread hsettles, hm'⟩) hm₂
  obtain ⟨r, hwr, hr⟩ := settles_phase (N := movies.length)
    (fun n next => .par (wr n).run next)
    (k := reqs.length) (m := m₃) (fun n m => Holds m n (afterMerge movies reqs n))
    (fun n m => m (.out n) = (afterMerge movies reqs n).moviename)
    (fun n m m' hc hm => hm.congr hc) (fun n m m' hc hm => (hc _ rfl).trans hm)
    (fun n hn m hm => by
      have hphases := phases h hn
      obtain ⟨m', hrun, hm'⟩ := alone_wr hphases.lines hphases.written hm
      exact ⟨m', .thread hrun.run, hm'⟩) hm₃
  refine ⟨r, hcal.seq (hsorts.seq (hmerges.seq hwr)), fun n hn => ?_⟩
  rw [hr n hn]
  simp only [afterMerge, List.getElem?_eq_getElem hn, Data.put, names_addSecret]
  rfl

/-- **Every interleaving of the thread build is a plain sort.**  For a valid input (titles that can be
    sorted with the suffix and fit, scores that are not negative, a match for each request),
    whichever thread makes the next access: all runs have the same length, none is stuck before its
    end, no two threads are ever about to access one cell, one of them to write it, all indices are
    in range, and at the end the stream of each request has the lines of a plain sort. -/
theorem tserver_interleavings (movies : List (MovieProfile α)) (reqs : List (Request α))
    (h : ValidInput movies reqs) :
    ∃ k r, (∀ n (hn : n < reqs.length), r (.out n) = plainLines movies reqs[n]) ∧
      ∀ paths s, runFrom Proc.next (main movies reqs, Cell.empty) paths = some s →
        OnCourse (upTo movies.length reqs.length) r k paths s := by
  obtain ⟨r, hsettles, hr⟩ := main_settles h
  obtain ⟨k, hk⟩ := hsettles.every_run
  exact ⟨k, r, hr, hk⟩

/-- Two requests for the 5001 titles of a long table, whose threads run side by side: each of them
    has four chunks, two merges and then one. -/
theorem tserver_interleavings_long :
    ∃ r paths, r (.out 0) = plainLines longMovies longRequest ∧
      r (.out 1) = plainLines longMovies longRequest ∧
      runFrom Proc.next (main longMovies [longRequest, longRequest], Cell.empty) paths =
        some (.skip, r) := by
  have hvalid : ValidInput longMovies [longRequest, longRequest] :=
    { titles := validInput_long.titles
      scores := fun r hr => validInput_long.scores r (by simpa using hr)
      nonempty := fun r hr => validInput_long.nonempty r (by simpa using hr) }
  obtain ⟨k, r, hr, hruns⟩ := tserver_interleavings longMovies [longRequest, longRequest] hvalid
  obtain ⟨paths, -, hpaths⟩ := (hruns [] _ rfl).ends
  exact ⟨r, paths, hr 0 (by decide), hr 1 (by decide), hpaths⟩

end SystemProgramming.Movies.Accesses
