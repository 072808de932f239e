import SystemProgramming.Movies.Agreement
import SystemProgramming.Movies.ChildAccesses

namespace SystemProgramming.Movies.Mappings

open ForkJoin Footprint Transition

/-!
# Movie recommendation — every interleaving of the process build

* `settles_levels` — one child after the other, the levels follow those on the arrays;
* `alone_map`, `alone_print` — what `main` does by itself;
* `pserver_interleavings` — **every interleaving** of the accesses of the children writes the lines
  of the model that runs them one after the other, and no two children race.
-/

variable {α : Type} {i j base size cnt numOfMovies : ℕ} {m : Memory (Shared.Value α)} {d : Data α}
variable {a a' : List CString × List α}

/-- All cells, with their indices in range. -/
def upTo (cnt : ℕ) : Footprint Shared where
  uses := {k | match k with
    | .pointer p | .name p | .score p => p < cnt
    | .out => True}
  sets := {k | match k with
    | .pointer p | .name p | .score p => p < cnt
    | .out => True}
  sub := subset_rfl

theorem part_le {r : ℕ × ℕ} (h : r.2 ≤ cnt) : part r ≤ upTo cnt := by
  constructor
  · rintro (_ | _ | _ | _) hk
    exacts [hk.2.trans_le h, hk.2.trans_le h, hk.2.trans_le h, trivial]
  · rintro (_ | _ | _ | _) hk
    exacts [hk.elim, hk.2.trans_le h, hk.2.trans_le h, trivial]

/-! ### The levels -/

theorem childRange_eq (hcnt : size * base + d.left = d.cnt) :
    childRange d base size i = Tiling.tile size base d.cnt i := by
  unfold childRange Tiling.tile
  split
  · rename_i hlast
    rw [hlast, hcnt]
  · rfl

variable [Score α]

/-- **One level**: its children are forked and waited for. -/
theorem settles_level (hcnt : size * base + d.left = d.cnt) (hm : Maps a m)
    (h : (List.range base).foldlM (Movies.child numOfMovies d base size) a = .ok a') :
    ∃ m', Settles (upTo d.cnt)
        (startAll (fun i next => .par (child numOfMovies d base size i).run next) (List.range base)
          .skip) m m' ∧ Maps a' m' := by
  -- the children of a level have disjoint parts, so no order of theirs can be told apart
  have hpair : (List.range base).Pairwise fun i i' =>
      Independent (part (childRange d base size i)) (part (childRange d base size i')) := by
    refine List.pairwise_lt_range.imp_of_mem fun {i i'} _ hi' hlt => ?_
    rw [childRange_eq hcnt, childRange_eq hcnt]
    exact part_independent (Tiling.tile_ordered hlt (List.mem_range.mp hi'))
  obtain ⟨m', hforks, hm', -⟩ := Forks.foldlM (fun i => part (childRange d base size i))
    (fun i next => .par (child numOfMovies d base size i).run next) Maps (fun _ _ => True)
    (fun _ _ _ _ _ => trivial) hpair hm (fun i _ a₁ a₂ m hm h => by
      obtain ⟨m', hrun, hm'⟩ := tracks_child h m hm
      exact ⟨m', .thread hrun.run, hm', trivial⟩) h
  refine ⟨m', (hforks.mono (Footprint.all_le fun i hi => part_le ?_)).join, hm'⟩
  rw [childRange_eq hcnt]
  exact Tiling.tile_snd_le (by omega) (List.mem_range.mp hi)

/-- The first of the levels, and what is left of them. -/
theorem settles_first (hbase : base ≥ 1) (hcnt : size * base + d.left = d.cnt) (hm : Maps a m)
    (h : Movies.forkLevels numOfMovies d (forkTasks base) base size a = .ok a') :
    ∃ a₁ m₁, Maps a₁ m₁ ∧
      Movies.forkLevels numOfMovies d (forkTasks (base / 2)) (base / 2) (size * 2) a₁ = .ok a' ∧
      ∀ r, Settles (upTo d.cnt) (forkLevels numOfMovies d (base / 2) (size * 2)) m₁ r →
        Settles (upTo d.cnt) (forkLevels numOfMovies d base size) m r := by
  rw [forkTasks, if_pos hbase, Movies.forkLevels, if_pos hbase] at h
  obtain ⟨a₁, hlevel, hrest⟩ := Program.bind_eq_ok h
  obtain ⟨m₁, hsettles, hm₁⟩ := settles_level hcnt hm hlevel
  refine ⟨a₁, m₁, hm₁, hrest, fun r hr => ?_⟩
  rw [forkLevels, if_pos hbase]
  exact hsettles.seq hr

/-- **All levels**, one after the other. -/
theorem settles_levels (k : ℕ) (hcnt : size * 2 ^ k + d.left = d.cnt) (hm : Maps a m)
    (h : Movies.forkLevels numOfMovies d (forkTasks (2 ^ k)) (2 ^ k) size a = .ok a') :
    ∃ m', Settles (upTo d.cnt) (forkLevels numOfMovies d (2 ^ k) size) m m' ∧ Maps a' m' := by
  induction k generalizing a m size with
  | zero =>
    obtain ⟨a₁, m₁, hm₁, hrest, hsettles⟩ := settles_first Nat.one_le_two_pow hcnt hm h
    -- after the last level `base` is zero
    have hzero : ¬ 2 ^ 0 / 2 ≥ 1 := by decide
    rw [forkTasks, if_neg hzero, Movies.forkLevels, if_neg hzero] at hrest
    cases hrest
    refine ⟨m₁, hsettles m₁ ?_, hm₁⟩
    rw [forkLevels, if_neg hzero]
    exact .skip
  | succ k ih =>
    obtain ⟨a₁, m₁, hm₁, hrest, hsettles⟩ := settles_first Nat.one_le_two_pow hcnt hm h
    have hhalf : 2 ^ (k + 1) / 2 = 2 ^ k := by
      rw [pow_succ]
      exact Nat.mul_div_cancel _ Nat.two_pos
    rw [hhalf] at hrest hsettles
    obtain ⟨m', hsettles', hm'⟩ := ih (by rw [← hcnt, pow_succ]; ring) hm₁ hrest
    exact ⟨m', hsettles m' hsettles', hm'⟩

/-! ### `main` -/

omit [Score α] in
/-- A counted loop of `main`, which carries `I` on. -/
theorem alone_loop {F : Footprint Shared} {g : Unit → ℕ → Run α Unit} {k : ℕ}
    (I : ℕ → Memory (Shared.Value α) → Prop) (h0 : I 0 m)
    (hstep : ∀ i < k, ∀ m, I i m → ∃ m', Alone F (g () i) m () m' ∧ I (i + 1) m') :
    ∃ m', Alone F (Code.forRange k g ()) m () m' ∧ I k m' := by
  have hcount : Program.forRange (ε := Fault) k (fun _ _ => .ok ()) () = .ok () :=
    Program.forRange_eq (fun _ => ()) rfl fun _ _ => rfl
  obtain ⟨_, m', hrun, hm'⟩ := Alone.forRange (F := F) (g := g) (b := ()) (fun i _ _ m => I i m)
    hcount h0 fun i hi _ _ _ m hm _ => by
      obtain ⟨m', hrun, hm'⟩ := hstep i hi m hm
      exact ⟨(), m', hrun, hm'⟩
  exact ⟨m', hrun, hm'⟩

omit [Score α] in
/-- One more mapping is filled. -/
theorem Maps.concat {s : CString} {v : α} {m' : Memory (Shared.Value α)} (hm : Maps a m)
    (hlen : a.1.length = i ∧ a.2.length = i) (hpointer : m' (.pointer i) = true)
    (hname : m' (.name i) = s) (hscore : m' (.score i) = some v)
    (hother : ∀ p < i, m' (.pointer p) = m (.pointer p) ∧ m' (.name p) = m (.name p) ∧
      m' (.score p) = m (.score p)) : Maps (a.1 ++ [s], a.2 ++ [v]) m' := by
  constructor
  · -- the new entry is the last one, and the entries before it are where they were
    intro p t hp
    rw [Accesses.getElem?_append_singleton, hlen.1] at hp
    split at hp
    · subst p
      cases hp
      exact ⟨hpointer, hname⟩
    · obtain ⟨hlt, -⟩ := List.getElem?_eq_some_iff.mp hp
      obtain ⟨hpointer', hname', -⟩ := hother p (hlen.1 ▸ hlt)
      rw [hpointer', hname']
      exact hm.names p t hp
  · intro p t hp
    rw [Accesses.getElem?_append_singleton, hlen.2] at hp
    split at hp
    · subst p
      cases hp
      exact hscore
    · obtain ⟨hlt, -⟩ := List.getElem?_eq_some_iff.mp hp
      rw [(hother p (hlen.2 ▸ hlt)).2.2]
      exact hm.scores p t hp

omit [Score α] in
/-- The mappings are filled with the arrays. -/
theorem alone_map (hname : d.moviename.length = d.cnt) (hscore : d.moviescore.length = d.cnt)
    (hfit : ∀ s ∈ d.moviename, s.length < 0xff) :
    ∃ m, Alone (upTo d.cnt) (Code.forRange d.cnt (mapStep d) ()) Shared.empty () m ∧
      Maps (d.moviename, d.moviescore) m := by
  have hstep (i : ℕ) (hi : i < d.cnt) (m : Memory (Shared.Value α))
      (hm : Maps (d.moviename.take i, d.moviescore.take i) m) :
      ∃ m', Alone (upTo d.cnt) (mapStep d () i) m () m' ∧
        Maps (d.moviename.take (i + 1), d.moviescore.take (i + 1)) m' := by
    have hi₁ : i < d.moviename.length := hname.symm ▸ hi
    have hi₂ : i < d.moviescore.length := hscore.symm ▸ hi
    rw [List.take_add_one, List.take_add_one, List.getElem?_eq_getElem hi₁,
      List.getElem?_eq_getElem hi₂]
    -- a new mapping, then its string and its score
    let m₁ := Function.update (Function.update m (.name i) []) (.pointer i) true
    let m₂ := Function.update m₁ (.name i) d.moviename[i]
    have hwrite : Alone (upTo d.cnt) (writeName i d.moviename[i]) m₁ () m₂ := by
      refine .read hi ?_
      rw [if_pos ⟨Function.update_self .., hfit _ (List.getElem_mem hi₁)⟩]
      exact .write hi .done
    refine ⟨Function.update m₂ (.score i) (some d.moviescore[i]), ?_, hm.concat (i := i)
      ⟨by rw [List.length_take]; omega, by rw [List.length_take]; omega⟩ ?_ ?_ ?_ ?_⟩
    · unfold mapStep
      rw [List.getElem?_eq_getElem hi₁, List.getElem?_eq_getElem hi₂]
      exact .write hi (.write hi (hwrite.bind (.write hi .done)))
    · simp [m₂, m₁]
    · simp [m₂]
    · exact Function.update_self ..
    · intro p hp
      simp [m₂, m₁, hp.ne]
  obtain ⟨m, hrun, hm⟩ := alone_loop (F := upTo d.cnt) (g := mapStep d) (m := Shared.empty)
    (fun i m => Maps (d.moviename.take i, d.moviescore.take i) m)
    ⟨fun p s hs => by simp at hs, fun p v hv => by simp at hv⟩ hstep
  rw [List.take_of_length_le hname.le, List.take_of_length_le hscore.le] at hm
  exact ⟨m, hrun, hm⟩

omit [Score α] in
/-- The lines are written, and the mappings given back. -/
theorem alone_print {lines : List CString} (hm : Maps a m)
    (h : (List.range cnt).mapM (loadAt a.1) = .ok lines) :
    ∃ m', Alone (upTo cnt) (print cnt) m () m' ∧ m' .out = lines := by
  have h' : (List.range cnt).mapM (fun k => loadAt a.1 (0 + k)) = .ok lines := by
    simpa only [Nat.zero_add] using h
  obtain ⟨hlen, hlines⟩ := getElem?_of_mapM h'
  -- after `i` iterations the first `i` lines are written, and the other mappings are there
  let I (i : ℕ) (m : Memory (Shared.Value α)) : Prop := m .out = lines.take i ∧
    ∀ p s, i ≤ p → a.1[p]? = some s → m (.pointer p) = true ∧ m (.name p) = s
  have hstart : I 0 (Function.update m .out []) := by
    refine ⟨by rw [Function.update_self, List.take_zero], fun p s _ hp => ?_⟩
    rw [Function.update_of_ne (by simp), Function.update_of_ne (by simp)]
    exact hm.names p s hp
  have hstep (i : ℕ) (hi : i < cnt) (m : Memory (Shared.Value α)) (hI : I i m) :
      ∃ m', Alone (upTo cnt) (printStep () i) m () m' ∧ I (i + 1) m' := by
    obtain ⟨s, hs, hload⟩ := hlines i hi
    rw [Nat.zero_add] at hload
    obtain ⟨hpointer, hname⟩ := hI.2 i s le_rfl (Accesses.getElem?_of_loadAt hload)
    have hread : Alone (upTo cnt) (readName i) m s m := by
      refine .read hi ?_
      rw [hpointer, if_pos rfl]
      refine .read hi ?_
      rw [hname]
      exact .done
    let m₁ := Function.update m .out (lines.take i ++ [s])
    refine ⟨Function.update m₁ (.pointer i) false, ?_, ?_, fun p t hp ht => ?_⟩
    · refine hread.bind (Alone.bind (b := ()) (.read trivial ?_) (.write hi .done))
      rw [hI.1]
      exact .write trivial .done
    · rw [Function.update_of_ne (by simp), List.take_add_one, hs]
      exact Function.update_self ..
    · have hne : p ≠ i := by omega
      obtain ⟨hpointer', hname'⟩ := hI.2 p t (by omega) ht
      simp [m₁, hne, hpointer', hname']
  obtain ⟨m', hrun, hm'⟩ := alone_loop (F := upTo cnt) (g := printStep) I hstart hstep
  refine ⟨m', Alone.bind (b := ()) (.write trivial .done) hrun, ?_⟩
  rw [hm'.1, List.take_of_length_le hlen.le]

variable {movies : List (MovieProfile α)} {r : Request α}

/-- **One child after the other**, the server ends with the lines of the model that runs the children
    of a level as tasks. -/
theorem main_settles (hne : matching movies r ≠ []) (hvalid : ValidEntries (matching movies r))
    (hfit : Fits (matching movies r)) :
    ∃ m, Settles (upTo (cal movies r).cnt) (main movies r) Shared.empty m ∧
      ∀ orders, ForkOrders movies r orders → pserver movies r orders = .ok (m .out) := by
  obtain ⟨hcal, hchunked⟩ := cal_eq movies r
  have hcut := hchunked hne
  have hname : (cal movies r).moviename = names (matching movies r) := by rw [hcal]; rfl
  have hscore : (cal movies r).moviescore = scores (matching movies r) := by rw [hcal]; rfl
  have hlines : pserver movies r (forkTasks (cal movies r).base) = .ok _ :=
    pserver_eq hne hvalid hfit (List.forall₂_same.mpr fun _ _ => .refl _)
  -- the run with the children in order gives the lines, and the memory follows it
  obtain ⟨a', hlevels, hprint⟩ := Program.bind_eq_ok hlines
  obtain ⟨m₁, hmap, hm₁⟩ := alone_map (d := cal movies r)
    (by rw [hname, length_names, hcut.cnt]) (by rw [hscore, length_scores, hcut.cnt])
    (by
      rw [hname]
      intro s hs
      obtain ⟨e, he, rfl⟩ := List.mem_map.mp hs
      have hlen := hfit e he
      rw [List.length_append] at hlen
      omega)
  obtain ⟨k, hk⟩ := hcut.base
  have hcnt : (cal movies r).size * 2 ^ k + (cal movies r).left = (cal movies r).cnt := by
    rw [← hk]
    exact Nat.div_add_mod' _ _
  rw [hk] at hlevels
  obtain ⟨m₂, hsettles, hm₂⟩ := settles_levels k hcnt hm₁ hlevels
  obtain ⟨m₃, hend, hout⟩ := alone_print hm₂ hprint
  -- any other order prints the same lines
  refine ⟨m₃, hmap.andThen (Settles.seq ?_ hend.run), fun orders horders => ?_⟩
  · rwa [hk]
  · rw [pserver_eq hne hvalid hfit horders, hout]

/-- **Every interleaving of the process build is alike.**  For the first request, whichever child
    makes the next access to the shared mappings: all runs have the same length, none is stuck
    before its end, no two processes are ever about to access one cell, one of them to write it, all
    indices are in range, and the lines are those that the children write one after the other, in
    any order. -/
theorem pserver_interleavings (movies : List (MovieProfile α)) (r : Request α)
    (hne : matching movies r ≠ []) (hvalid : ValidEntries (matching movies r))
    (hfit : Fits (matching movies r)) :
    ∃ k m, (∀ orders, ForkOrders movies r orders → pserver movies r orders = .ok (m .out)) ∧
      ∀ paths s, runFrom Proc.next (main movies r, Shared.empty) paths = some s →
        OnCourse (upTo (cal movies r).cnt) m k paths s := by
  obtain ⟨m, hsettles, hm⟩ := main_settles hne hvalid hfit
  obtain ⟨k, hk⟩ := hsettles.every_run
  exact ⟨k, m, hm, hk⟩

/-- The 5001 titles of a long table: four children sort, and two and then one merge. -/
theorem pserver_interleavings_long :
    ∃ m paths, (∀ orders, ForkOrders longMovies longRequest orders →
        pserver longMovies longRequest orders = .ok (m .out)) ∧
      runFrom Proc.next (main longMovies longRequest, Shared.empty) paths = some (.skip, m) := by
  obtain ⟨k, m, hm, hruns⟩ := pserver_interleavings longMovies longRequest
    (validInput_long.matching_ne_nil (by simp)) (validInput_long.entries (by simp)) fits_long
  obtain ⟨paths, -, hpaths⟩ := (hruns [] _ rfl).ends
  exact ⟨m, paths, hm, hpaths⟩

end SystemProgramming.Movies.Mappings
