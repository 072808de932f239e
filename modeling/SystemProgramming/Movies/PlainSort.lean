import SystemProgramming.Movies.Tserver

namespace SystemProgramming.Movies

open Program Runs

/-!
# Movie recommendation — the thread build sorts

* `cal_eq` — `cal` fills the arrays with the matching titles and cuts them into chunks;
* `sortPhase_eq` — after the chunk threads every chunk is the plain sort of itself;
* `level_eq` — a merge level turns the sorted runs into sorted runs of twice the length;
* `tserver_plain_sort` — **the lines written are a plain sort** of the matching titles.
-/

variable {α : Type} [Score α]

/-- The titles that match, with their scores, in the order of the table. -/
def matching (movies : List (MovieProfile α)) (r : Request α) : List (Entry α) :=
  (movies.filter r.selects).map fun m => ⟨m.title, r.rate m⟩

/-- The arrays of `d` replaced by the columns of `es`. -/
def Data.put (d : Data α) (es : List (Entry α)) : Data α :=
  { d with moviename := names es, moviescore := scores es }

/-- The entries `es` are cut into `base` chunks of length `size`, the last one longer. -/
structure Chunked (d : Data α) (es : List (Entry α)) : Prop where
  cnt : d.cnt = es.length
  base : ∃ k, d.base = 2 ^ k
  size : d.size = d.cnt / d.base
  le : d.base ≤ d.cnt

variable {d : Data α} {es : List (Entry α)} {numOfMovies s b t : ℕ}

omit [Score α] in
/-- There is a chunk. -/
theorem Chunked.base_pos (h : Chunked d es) : 0 < d.base := by
  obtain ⟨k, hk⟩ := h.base
  rw [hk]
  exact Nat.two_pow_pos k

omit [Score α] in
/-- And there is something in it. -/
theorem Chunked.size_pos (h : Chunked d es) : 0 < d.size := by
  rw [h.size]
  exact Nat.div_pos h.le h.base_pos

omit [Score α] in
/-- The chunks and the remainder make up the arrays. -/
theorem Chunked.total (h : Chunked d es) : d.base * d.size + d.cnt % d.base = es.length := by
  rw [← h.cnt, h.size]
  exact Nat.div_add_mod d.cnt d.base

omit [Score α] in
/-- The last chunk has the remainder in addition. -/
theorem Chunked.length_run (h : Chunked d es) (ht : t < d.base) :
    (run es d.size d.base t).length =
      if t + 1 = d.base then d.size + d.cnt % d.base else d.size := by
  have htotal := h.total
  rw [Runs.length_run (by omega) ht]
  by_cases hlast : t + 1 = d.base
  · have hmul : d.base * d.size = t * d.size + d.size := by rw [← hlast, Nat.succ_mul]
    rw [if_pos hlast, if_pos hlast]
    omega
  · rw [if_neg hlast, if_neg hlast]

omit [Score α] in
/-- No chunk is empty. -/
theorem Chunked.run_ne_nil (h : Chunked d es) (ht : t < d.base) : run es d.size d.base t ≠ [] := by
  have hlen := h.length_run ht
  have hpos := h.size_pos
  intro hnil
  rw [hnil, List.length_nil] at hlen
  split at hlen <;> omega

/-! ### `cal` -/

/-- The loop of `cal` appends the matching titles. -/
theorem calLoop_eq (movies : List (MovieProfile α)) (r : Request α) (es : List (Entry α)) :
    movies.foldl (calStep r) (names es, scores es) =
      (names (es ++ matching movies r), scores (es ++ matching movies r)) := by
  induction movies generalizing es with
  | nil => simp [matching]
  | cons m movies ih =>
    rw [List.foldl_cons, calStep, matching, List.filter_cons]
    split
    · have hsnoc := ih (es ++ [⟨m.title, r.rate m⟩])
      rw [names_append, scores_append, List.append_assoc] at hsnoc
      exact hsnoc
    · exact ih es

/-- The number of chunks is a power of two. -/
theorem baseOf_pow (cnt : ℕ) : ∃ k, baseOf cnt = 2 ^ k := by
  unfold baseOf
  split_ifs
  exacts [⟨5, rfl⟩, ⟨4, rfl⟩, ⟨3, rfl⟩, ⟨2, rfl⟩, ⟨1, rfl⟩, ⟨0, rfl⟩]

/-- No chunk is empty. -/
theorem baseOf_le {cnt : ℕ} (h : 0 < cnt) : baseOf cnt ≤ cnt := by
  unfold baseOf
  split_ifs <;> omega

/-- **What `cal` computes**: the matching titles with their scores, and, if there are any, their
    division into chunks. -/
theorem cal_eq (movies : List (MovieProfile α)) (r : Request α) :
    cal movies r = (cal movies r).put (matching movies r) ∧
      (matching movies r ≠ [] → Chunked (cal movies r) (matching movies r)) := by
  have hloop : movies.foldl (calStep r) ([], []) =
      (names (matching movies r), scores (matching movies r)) := calLoop_eq movies r []
  have hcnt : (cal movies r).cnt = (matching movies r).length := by
    simp only [cal, hloop, length_names]
  refine ⟨by simp only [cal, hloop, Data.put], fun hne => ⟨hcnt, ?_, rfl, ?_⟩⟩
  · exact baseOf_pow _
  · have hpos : 0 < (cal movies r).cnt := by
      rw [hcnt]
      exact List.length_pos_iff.mpr hne
    exact baseOf_le hpos

/-! ### The chunk threads -/

/-- The entries with every run of length `s` sorted and suffixed. -/
def sortedRuns (es : List (Entry α)) (s b : ℕ) : List (Entry α) :=
  blocks b fun t => (plainSort (run es s b t)).map Entry.addSecret

/-- Chunk `t` is sorted where it stands. -/
theorem sorting_eq (h : Chunked d es) (hvalid : ValidEntries es) (hle : es.length ≤ numOfMovies)
    (ht : t < d.base) {pre post : List (Entry α)} (hpre : pre.length = t * d.size) :
    sorting numOfMovies (d.put (pre ++ (run es d.size d.base t ++ post))) t =
      .ok (d.put (pre ++ ((plainSort (run es d.size d.base t)).map Entry.addSecret ++ post))) := by
  have hlen := h.length_run ht
  have hsub : (run es d.size d.base t).Sublist es := run_sublist
  have hsort := sort_eq (h.run_ne_nil ht) (fun e he => hvalid.sortable e (hsub.subset he))
    (hsub.length_le.trans hle) pre post
  rw [hlen, hpre, Nat.mul_comm t] at hsort
  by_cases hlast : t + 1 = d.base
  · rw [if_pos hlast] at hsort
    simp only [sorting, Data.put, if_pos hlast, hsort]
    rfl
  · rw [if_neg hlast] at hsort
    simp only [sorting, Data.put, if_neg hlast, hsort]
    rfl

/-- **The chunk threads**, in whatever order they run, sort every chunk. -/
theorem sortPhase_eq (h : Chunked d es) (hvalid : ValidEntries es) (hle : es.length ≤ numOfMovies)
    {order : List ℕ} (horder : order.Perm (List.range d.base)) :
    order.foldlM (sorting numOfMovies) (d.put es) =
      .ok (d.put (sortedRuns es d.size d.base)) := by
  have hlen (t : ℕ) (ht : t + 1 < d.base) : (run es d.size d.base t).length = d.size := by
    rw [h.length_run (by omega), if_neg (by omega)]
  rw [← List.map_id (List.range d.base)] at horder
  have hphase := @foldlM_blocks _ (run es d.size d.base)
    (fun t => (plainSort (run es d.size d.base t)).map Entry.addSecret) d.base d.size _ _ _ _
    (sorting numOfMovies) d.put id Function.injective_id order horder hlen
    (fun t ht => by rw [List.length_map, length_plainSort, hlen t ht])
    fun t ht _ _ hpre => sorting_eq h hvalid hle ht hpre
  rwa [blocks_run h.base_pos] at hphase

/-! ### The merge levels -/

/-- Merging two sorted and suffixed runs. -/
theorem mergeRuns_addSecret {xs ys : List (Entry α)} (hx : ValidEntries xs) (hy : ValidEntries ys) :
    mergeRuns ((plainSort xs).map Entry.addSecret) ((plainSort ys).map Entry.addSecret) =
      (plainSort (xs ++ ys)).map Entry.addSecret := by
  rw [← mergeRuns_plainSort, mergeRuns, mergeRuns, List.map_merge]
  intro x hx' y hy'
  have hx'' := (hx x ((plainSort_perm xs).mem_iff.mp hx')).1
  have hy'' := (hy y ((plainSort_perm ys).mem_iff.mp hy')).1
  exact decide_eq_decide.mpr (Entry.addSecret_lt hx'' hy'').symm

omit [Score α] in
/-- The lengths of the two runs of task `t` of a level. -/
theorem Chunked.length_pair (h : Chunked d es) (hs : 2 * b * s = d.base * d.size) (ht : t < b) :
    (run es s (2 * b) (2 * t)).length = s ∧
      (run es s (2 * b) (2 * t + 1)).length = if t + 1 = b then s + d.cnt % d.base else s := by
  have htotal := h.total
  have hle : 2 * b * s ≤ es.length := by omega
  have hiff : 2 * t + 1 + 1 = 2 * b ↔ t + 1 = b := by omega
  rw [Runs.length_run hle (by omega), Runs.length_run hle (by omega), if_neg (by omega)]
  simp only [hiff, true_and]
  split
  · rename_i hlast
    have hmul : 2 * b * s = (2 * t + 1) * s + s := by rw [← hlast]; ring
    omega
  · rfl

/-- Task `t` of a level merges runs `2 * t` and `2 * t + 1`. -/
theorem mergeTask_eq (h : Chunked d es) (hvalid : ValidEntries es)
    (hs : 2 * b * s = d.base * d.size) (ht : t < b) {pre post : List (Entry α)}
    (hpre : pre.length = t * (2 * s)) :
    truemerge (d.put (pre ++ ((plainSort (run es s (2 * b) (2 * t))).map Entry.addSecret ++
        (plainSort (run es s (2 * b) (2 * t + 1))).map Entry.addSecret ++ post))) ⟨t + 1, s, b⟩ =
      .ok (d.put (pre ++ ((plainSort (run es (2 * s) b t)).map Entry.addSecret ++ post))) := by
  have htotal := h.total
  have hmod : d.cnt % d.base < d.base := Nat.mod_lt _ h.base_pos
  obtain ⟨hx, hy⟩ := h.length_pair hs ht
  have hsub (u : ℕ) : ValidEntries (run es s (2 * b) u) :=
    fun e he => hvalid e (run_sublist.subset he)
  have hmerge := @truemerge_eq _ ((plainSort (run es s (2 * b) (2 * t))).map Entry.addSecret)
    ((plainSort (run es s (2 * b) (2 * t + 1))).map Entry.addSecret) _
    (d.put (pre ++ ((plainSort (run es s (2 * b) (2 * t))).map Entry.addSecret ++
        (plainSort (run es s (2 * b) (2 * t + 1))).map Entry.addSecret ++ post)))
    ⟨t + 1, s, b⟩ pre post
    (by rw [Data.put, List.append_assoc]) (by rw [Data.put, List.append_assoc])
    (by rw [hpre]; simp only [Nat.add_sub_cancel]; ring) (by simpa using hx)
    (by simp only [List.length_map, length_plainSort, hx, hy]; split <;> omega)
    (by
      simp only [List.length_map, length_plainSort, hy, hpre, Data.put]
      -- the last task merges up to the end, which takes in the remainder
      by_cases hlast : t + 1 = b
      · have hmul : 2 * b * s = t * (2 * s) + s + s := by rw [← hlast]; ring
        have hcnt := h.cnt
        rw [if_pos hlast, if_pos hlast]
        omega
      · rw [if_neg hlast, if_neg hlast])
    (by
      simp only [List.length_map, length_plainSort, hx, hy, Data.put]
      split <;> omega)
  rw [hmerge, mergeRuns_addSecret (hsub _) (hsub _), ← run_double]
  rfl

/-- **A merge level**, in whatever order its tasks run, makes sorted runs of twice the length. -/
theorem level_eq (h : Chunked d es) (hvalid : ValidEntries es)
    (hs : 2 * b * s = d.base * d.size) {order : List Send}
    (horder : order.Perm ((List.range b).map fun i => ⟨i + 1, s, b⟩)) :
    order.foldlM truemerge (d.put (sortedRuns es s (2 * b))) =
      .ok (d.put (sortedRuns es (2 * s) b)) := by
  have hpair (t : ℕ) (ht : t + 1 < b) : (run es s (2 * b) (2 * t)).length = s ∧
      (run es s (2 * b) (2 * t + 1)).length = s := by
    obtain ⟨hx, hy⟩ := h.length_pair hs (show t < b by omega)
    rw [if_neg (by omega)] at hy
    exact ⟨hx, hy⟩
  have hinj : Function.Injective fun i => (⟨i + 1, s, b⟩ : Send) := fun i j hij => by
    simpa using hij
  -- each task works on its own block of two runs
  have hphase := @foldlM_blocks _
    (fun t => (plainSort (run es s (2 * b) (2 * t))).map Entry.addSecret ++
      (plainSort (run es s (2 * b) (2 * t + 1))).map Entry.addSecret)
    (fun t => (plainSort (run es (2 * s) b t)).map Entry.addSecret) b (2 * s) _ _ _ _
    truemerge d.put _ hinj order horder
    (fun t ht => by
      obtain ⟨hx, hy⟩ := hpair t ht
      rw [List.length_append, List.length_map, List.length_map, length_plainSort,
        length_plainSort, hx, hy, Nat.two_mul])
    (fun t ht => by
      obtain ⟨hx, hy⟩ := hpair t ht
      rw [List.length_map, length_plainSort, run_double, List.length_append, hx, hy, Nat.two_mul])
    fun t ht _ _ hpre => mergeTask_eq h hvalid hs ht hpre
  rwa [← blocks_double b fun t => (plainSort (run es s (2 * b) t)).map Entry.addSecret] at hphase

/-- One chunk is not merged. -/
theorem mergeLevels_zero (size count : ℕ) : mergeLevels size (2 ^ 0) count = [] := by
  rw [mergeLevels, if_neg (by omega)]

/-- The first level halves the number of chunks. -/
theorem mergeLevels_succ (size k count : ℕ) :
    mergeLevels size (2 ^ (k + 1)) count =
      ((List.range (2 ^ k)).map fun i => ⟨i + 1, count * size, 2 ^ k⟩) ::
        mergeLevels size (2 ^ k) (count * 2) := by
  have hpos : 0 < 2 ^ k := Nat.two_pow_pos k
  have hhalf : 2 ^ (k + 1) / 2 = 2 ^ k := by rw [pow_succ]; omega
  rw [mergeLevels, if_pos (by rw [pow_succ]; omega), hhalf]

/-- **All levels**: from the sorted chunks to one sorted run. -/
theorem levels_eq (h : Chunked d es) (hvalid : ValidEntries es) (k : ℕ) {count : ℕ}
    (hcount : 2 ^ k * count = d.base) {order : List Send}
    (horder : InLevels (mergeLevels d.size (2 ^ k) count) order) :
    order.foldlM truemerge (d.put (sortedRuns es (count * d.size) (2 ^ k))) =
      .ok (d.put ((plainSort es).map Entry.addSecret)) := by
  induction k generalizing count order with
  | zero =>
    obtain ⟨parts, hparts, rfl⟩ := horder
    rw [mergeLevels_zero] at hparts
    obtain rfl := List.forall₂_nil_right_iff.mp hparts
    have hone : sortedRuns es (count * d.size) 1 = (plainSort es).map Entry.addSecret := by
      simp [sortedRuns, blocks, run]
    rw [pow_zero, hone]
    rfl
  | succ k ih =>
    obtain ⟨parts, hparts, rfl⟩ := horder
    rw [mergeLevels_succ] at hparts
    obtain ⟨part, rest, hpart, hrest, rfl⟩ := List.forall₂_cons_right_iff.mp hparts
    have hs : 2 * 2 ^ k * (count * d.size) = d.base * d.size := by
      rw [← hcount, pow_succ]
      ring
    have hdouble : 2 * (count * d.size) = count * 2 * d.size := by ring
    have hnext := @ih (count * 2) (by rw [← hcount, pow_succ]; ring) rest.flatten ⟨rest, hrest, rfl⟩
    -- one level halves the number of runs
    have hlevel := level_eq h hvalid hs hpart
    rw [List.flatten_cons, List.foldlM_append, pow_succ, Nat.mul_comm (2 ^ k), hlevel, hdouble]
    exact hnext

/-- **The phases of one request** write a plain sort: for any number of chunks that is a power of
    two and not larger than the number of titles, any remainder, and any order of the tasks of each
    phase. -/
theorem phases_eq (h : Chunked d es) (hvalid : ValidEntries es) (hle : es.length ≤ numOfMovies)
    {sorts : List ℕ} (hsorts : sorts.Perm (List.range d.base)) {merges : List Send}
    (hmerges : InLevels (mergeLevels d.size d.base 1) merges) :
    sorts.foldlM (sorting numOfMovies) (d.put es) = .ok (d.put (sortedRuns es d.size d.base)) ∧
      merges.foldlM truemerge (d.put (sortedRuns es d.size d.base)) =
        .ok (d.put ((plainSort es).map Entry.addSecret)) := by
  refine ⟨sortPhase_eq h hvalid hle hsorts, ?_⟩
  obtain ⟨k, hk⟩ := h.base
  rw [hk] at hmerges
  have hall := levels_eq h hvalid k (by rw [Nat.mul_one, hk]) hmerges
  rw [Nat.one_mul, ← hk] at hall
  exact hall

/-! ### Writing, and the whole program -/

omit [Score α] in
/-- `wr` writes the names in their order. -/
theorem wr_eq (h : d.cnt = es.length) : wr (d.put es) = .ok (names es) := by
  -- every index is below the length, so no read of the loop fails
  have hwr : wr (d.put es) = .ok ((List.range d.cnt).map fun i => (names es).getD i []) := by
    apply mapM_eq
    intro i hi
    have hi' : i < (names es).length := by
      rw [length_names, ← h]
      exact List.mem_range.mp hi
    show loadAt (names es) i = _
    rw [loadAt, List.getD_eq_getElem?_getD, List.getElem?_eq_getElem hi']
    rfl
  rw [hwr]
  congr 1
  apply List.ext_getElem
  · simp [h]
  · intro i h1 h2
    rw [List.getElem_map, List.getElem_range, List.getD_eq_getElem?_getD,
      List.getElem?_eq_getElem h2]
    rfl

variable {movies : List (MovieProfile α)} {reqs : List (Request α)} {o : Orders}

omit [Score α] in
/-- No event names a component that has none. -/
theorem eventsAt_eq_nil {τ : Type} {events : List (ℕ × τ)} {n : ℕ} (h : ∀ e ∈ events, e.1 ≠ n) :
    eventsAt n events = [] := by
  rw [eventsAt, List.filter_eq_nil_iff.mpr fun e he => by simpa using h e he]
  rfl

/-- The arrays of request `n` after `cal`. -/
def afterCal (movies : List (MovieProfile α)) (reqs : List (Request α)) (n : ℕ) : Data α :=
  match reqs[n]? with
  | some r => cal movies r
  | none => .empty

/-- **The first phase**, in any order of its threads: they write to different requests. -/
theorem calPhase_eq (horder : o.cals.Perm (List.range reqs.length)) :
    o.cals.foldlM (calPhase movies reqs) (fun _ => Data.empty) = .ok (afterCal movies reqs) := by
  have hphase := foldlM_anyOrder (calPhase movies reqs)
    (fun done n => if n ∈ done then afterCal movies reqs n else Data.empty) ?_ List.nodup_range
    horder
  · have hall : (fun n => if n ∈ (List.range reqs.length).toFinset then afterCal movies reqs n
        else Data.empty) = afterCal movies reqs := by
      ext n : 1
      by_cases hn : n < reqs.length
      · simp [hn]
      · simp [hn, afterCal]
    rw [hall] at hphase
    simpa using hphase
  · -- a task fills in the data of its own request
    intro done n hn hnew
    have hn' : n < reqs.length := List.mem_range.mp hn
    have hget : reqs[n]? = some reqs[n] := List.getElem?_eq_getElem hn'
    simp only [calPhase, loadAt, hget, bind, Except.bind]
    congr 1
    ext m : 1
    by_cases hm : m = n
    · subst hm
      simp [afterCal, hget]
    · simp [hm]

/-- What the input of the server has to be: valid titles, and for each request a match and no
    negative score among the matches. -/
structure ValidInput (movies : List (MovieProfile α)) (reqs : List (Request α)) : Prop where
  titles : ∀ m ∈ movies, ValidTitle m.title
  scores : ∀ r ∈ reqs, ∀ m ∈ movies, r.selects m → 0 ≤ r.rate m
  nonempty : ∀ r ∈ reqs, ∃ m ∈ movies, r.selects m

/-- The matches of a request are valid entries. -/
theorem ValidInput.entries (h : ValidInput movies reqs) {r : Request α} (hr : r ∈ reqs) :
    ValidEntries (matching movies r) := by
  intro e he
  obtain ⟨m, hm, rfl⟩ := List.mem_map.mp he
  obtain ⟨hm, hsel⟩ := List.mem_filter.mp hm
  exact ⟨h.titles m hm, h.scores r hr m hm hsel⟩

/-- Every request has a match. -/
theorem ValidInput.matching_ne_nil (h : ValidInput movies reqs) {r : Request α} (hr : r ∈ reqs) :
    matching movies r ≠ [] := by
  obtain ⟨m, hm, hsel⟩ := h.nonempty r hr
  exact List.ne_nil_of_mem (List.mem_map.mpr ⟨m, List.mem_filter.mpr ⟨hm, hsel⟩, rfl⟩)

/-- There are not more matches than titles. -/
theorem length_matching_le (movies : List (MovieProfile α)) (r : Request α) :
    (matching movies r).length ≤ movies.length := by
  rw [matching, List.length_map]
  exact List.length_filter_le _ _

/-- The lines that a plain sort writes for a request. -/
def plainLines (movies : List (MovieProfile α)) (r : Request α) : List CString :=
  (plainSort (matching movies r)).map fun e => e.name ++ secretKey

/-- The arrays of request `n` after the last phase. -/
def afterMerge (movies : List (MovieProfile α)) (reqs : List (Request α)) (n : ℕ) : Data α :=
  match reqs[n]? with
  | some r => (cal movies r).put ((plainSort (matching movies r)).map Entry.addSecret)
  | none => .empty

/-- **All phases of the server**, one after the other. -/
theorem tserver_eq (h : ValidInput movies reqs) (ho : o.Valid movies reqs) :
    tserver movies reqs o = .ok (reqs.map (plainLines movies)) := by
  -- each request goes through its own phases
  have hnone (n : ℕ) (hn : reqs[n]? = none) (e : ℕ × ℕ) : e.1 < reqs.length → e.1 ≠ n := by
    rw [List.getElem?_eq_none_iff] at hn
    omega
  let afterSort (n : ℕ) : Data α :=
    match reqs[n]? with
    | some r => (cal movies r).put
        (sortedRuns (matching movies r) (cal movies r).size (cal movies r).base)
    | none => .empty
  have hphases (n : ℕ) (r : Request α) (hr : reqs[n]? = some r) :=
    have hmem : r ∈ reqs := List.mem_of_getElem? hr
    phases_eq ((cal_eq movies r).2 (h.matching_ne_nil hmem)) (h.entries hmem)
      (length_matching_le movies r) (ho.sortsAt n r hr) (ho.mergesAt n r hr)
  have hsorts : o.sorts.foldlM (execAt fun _ => sorting movies.length) (afterCal movies reqs) =
      .ok afterSort := by
    apply foldlM_execAt
    intro n
    cases hr : reqs[n]? with
    | none =>
      rw [eventsAt_eq_nil fun e he => hnone n hr e (ho.sorts e he)]
      simp only [afterCal, afterSort, hr]
      rfl
    | some r =>
      simp only [afterCal, afterSort, hr]
      rw [(cal_eq movies r).1]
      exact (hphases n r hr).1
  have hmerges : o.merges.foldlM (execAt fun _ => truemerge) afterSort =
      .ok (afterMerge movies reqs) := by
    apply foldlM_execAt
    intro n
    cases hr : reqs[n]? with
    | none =>
      have hempty : eventsAt n o.merges = [] := eventsAt_eq_nil fun e he => by
        have := ho.merges e he
        rw [List.getElem?_eq_none_iff] at hr
        omega
      rw [hempty]
      simp only [afterMerge, afterSort, hr]
      rfl
    | some r =>
      simp only [afterMerge, afterSort, hr]
      exact (hphases n r hr).2
  have hwrite : (List.range reqs.length).mapM (fun n => wr (afterMerge movies reqs n)) =
      .ok (reqs.map (plainLines movies)) := by
    have hline (n : ℕ) (hn : n < reqs.length) :
        (afterMerge movies reqs n).moviename = plainLines movies reqs[n] := by
      simp only [afterMerge, List.getElem?_eq_getElem hn, Data.put, names_addSecret]
      rfl
    have hwr (n : ℕ) (hn : n ∈ List.range reqs.length) :
        wr (afterMerge movies reqs n) = .ok (afterMerge movies reqs n).moviename := by
      have hn' : n < reqs.length := List.mem_range.mp hn
      have hcut := (cal_eq movies reqs[n]).2 (h.matching_ne_nil (List.getElem_mem hn'))
      simp only [afterMerge, List.getElem?_eq_getElem hn']
      exact wr_eq (by rw [List.length_map, length_plainSort, hcut.cnt])
    rw [mapM_eq hwr]
    congr 1
    apply List.ext_getElem
    · simp
    · intro n h1 h2
      rw [List.getElem_map, List.getElem_range, List.getElem_map]
      exact hline n (by simpa using h2)
  show (o.cals.foldlM (calPhase movies reqs) fun _ => Data.empty).bind _ = _
  rw [calPhase_eq ho.cals]
  show (o.sorts.foldlM (execAt fun _ => sorting movies.length) (afterCal movies reqs)).bind _ = _
  rw [hsorts]
  show (o.merges.foldlM (execAt fun _ => truemerge) afterSort).bind _ = _
  rw [hmerges]
  exact hwrite

/-- The arrays of a request after `cal`, cut into `2 ^ k` chunks whatever the thresholds say. -/
def cutInto (movies : List (MovieProfile α)) (r : Request α) (k : ℕ) : Data α :=
  { cal movies r with
    base := 2 ^ k
    size := (cal movies r).cnt / 2 ^ k
    left := (cal movies r).cnt % 2 ^ k }

/-- **The thread build is a plain sort.**  For every table, all requests with a match each, and
    every order of the tasks of each phase, the lines written for a request are its matching titles
    with the suffix, sorted by decreasing score and then by increasing title.  The chunks do not
    matter: cut into any power of two of them, with any remainder, the arrays of a request end as
    the same plain sort. -/
theorem tserver_plain_sort (movies : List (MovieProfile α)) (reqs : List (Request α))
    (h : ValidInput movies reqs) :
    (∀ o : Orders, o.Valid movies reqs →
      tserver movies reqs o = .ok (reqs.map (plainLines movies))) ∧
    ∀ r ∈ reqs, ∀ k, 2 ^ k ≤ (matching movies r).length →
      ∀ (sorts : List ℕ) (merges : List Send),
      sorts.Perm (List.range (2 ^ k)) →
      InLevels (mergeLevels ((matching movies r).length / 2 ^ k) (2 ^ k) 1) merges →
      ((sorts.foldlM (sorting movies.length) (cutInto movies r k)).bind fun d =>
          merges.foldlM truemerge d).map Data.moviename = .ok (plainLines movies r) := by
  refine ⟨fun o ho => tserver_eq h ho, fun r hr k hk sorts merges hsorts hmerges => ?_⟩
  obtain ⟨hcal, hcut⟩ := cal_eq movies r
  have hcnt := (hcut (h.matching_ne_nil hr)).cnt
  -- the cut into `2 ^ k` chunks is as good as the one that `cal` makes
  have hchunked : Chunked (cutInto movies r k) (matching movies r) :=
    ⟨hcnt, ⟨k, rfl⟩, rfl, hk.trans_eq hcnt.symm⟩
  have hput : cutInto movies r k = (cutInto movies r k).put (matching movies r) := by
    rw [cutInto, hcal]
    rfl
  have hsize : (cutInto movies r k).size = (matching movies r).length / 2 ^ k := by
    rw [← hcnt]
    rfl
  rw [← hsize] at hmerges
  obtain ⟨hs, hm⟩ := phases_eq hchunked (h.entries hr) (length_matching_le movies r) hsorts hmerges
  rw [hput, hs]
  show (merges.foldlM truemerge _).map _ = _
  rw [hm]
  exact congrArg _ (names_addSecret _)

/-- When no request has more than one chunk, there is one chunk thread each and nothing to merge. -/
theorem Orders.valid_oneChunk {cals : List ℕ} {sorts : List (ℕ × ℕ)}
    (hbase : ∀ r ∈ reqs, (cal movies r).base = 1) (hcals : cals.Perm (List.range reqs.length))
    (hsorts : ∀ e ∈ sorts, e.1 < reqs.length)
    (hat : ∀ n < reqs.length, eventsAt n sorts = [0]) :
    Orders.Valid movies reqs ⟨cals, sorts, []⟩ where
  cals := hcals
  sorts := hsorts
  sortsAt n r hr := by
    rw [hbase r (List.mem_of_getElem? hr), hat n (List.getElem?_eq_some_iff.mp hr).1]
    exact .refl _
  merges e he := absurd he List.not_mem_nil
  mergesAt n r hr := by
    rw [hbase r (List.mem_of_getElem? hr), ← pow_zero 2, mergeLevels_zero]
    exact ⟨[], .nil, rfl⟩

/-- Two titles, the second with the higher score for `twoRequests`. -/
def twoMovies : List (MovieProfile ℤ) :=
  [⟨[65, 66], fun _ => 1⟩, ⟨[65], fun _ => 2⟩]

/-- One request for all titles and one for those that contain `B`. -/
def twoRequests : List (Request ℤ) := [⟨star, fun _ => 1⟩, ⟨[66], fun _ => 1⟩]

/-- Both titles can be sorted with the suffix. -/
theorem validTitle_twoMovies : ∀ m ∈ twoMovies, ValidTitle m.title := by
  intro m hm
  simp only [twoMovies, List.mem_cons, List.not_mem_nil, or_false] at hm
  rcases hm with rfl | rfl <;> decide

/-- The second request is served first. -/
theorem twoRequests_valid : Orders.Valid twoMovies twoRequests ⟨[1, 0], [(1, 0), (0, 0)], []⟩ :=
  Orders.valid_oneChunk (by decide) (List.Perm.swap 0 1 []) (by decide) (by decide)

/-- Both requests in one run of the server, and the first one again in two chunks of a title each,
    which are sorted from the last to the first and then merged. -/
theorem tserver_plain_sort_twoMovies :
    tserver twoMovies twoRequests ⟨[1, 0], [(1, 0), (0, 0)], []⟩ =
        .ok (twoRequests.map (plainLines twoMovies)) ∧
      (([1, 0].foldlM (sorting 2) (cutInto twoMovies twoRequests[0] 1)).bind fun d =>
          [⟨1, 1, 1⟩].foldlM truemerge d).map Data.moviename =
        .ok (plainLines twoMovies twoRequests[0]) := by
  obtain ⟨hserver, hchunks⟩ := tserver_plain_sort twoMovies twoRequests
    ⟨validTitle_twoMovies, by decide, by decide⟩
  have hlevels : InLevels (mergeLevels 1 2 1) [⟨1, 1, 1⟩] := by
    -- one level with one merge, behind which there is a single chunk
    rw [show (2 : ℕ) = 2 ^ 1 from rfl, mergeLevels_succ, mergeLevels_zero]
    exact ⟨[[⟨1, 1, 1⟩]], .cons (.refl _) .nil, rfl⟩
  exact ⟨hserver _ twoRequests_valid,
    hchunks _ (by simp [twoRequests]) 1 (by decide) _ _ (List.Perm.swap 0 1 []) hlevels⟩

end SystemProgramming.Movies
