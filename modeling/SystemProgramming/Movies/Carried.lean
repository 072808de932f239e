import SystemProgramming.Movies.MergeChild

namespace SystemProgramming.Movies

open Program Runs

/-!
# Movie recommendation — what the forked children compute

In the shared memory of `pserver` an entry stands with a score that need not be its own: a merging
child stores the score of the first entry that is left of the left run with all of them.

* `Carried` — an entry with the score that is stored with it;
* `mergeChild_eq` — a merging child replaces two runs by `childMerge` of them;
* `pserver_eq` — **the process build** writes, for any order of the children of each level, the
  names of `childRuns`, a recursion over the levels.
-/

variable {α : Type}

/-- An entry, and the score that is stored with it. -/
structure Carried (α : Type) where
  entry : Entry α
  carried : α

/-- An entry with its own score. -/
def Carried.own (e : Entry α) : Carried α := ⟨e, e.score⟩

/-- The slot of shared memory. -/
def Carried.shown (c : Carried α) : Entry α := ⟨c.entry.name ++ secretKey, c.carried⟩

/-- The rest of the left run as a merging child stores it: with the score of its first entry. -/
def carry : List (Carried α) → List (Carried α)
  | [] => []
  | c :: rest => (c :: rest).map fun c' => { c' with carried := c.carried }

/-- What a merging child makes of two runs, with a given comparison of heads. -/
def childMerge (lt : Carried α → Carried α → Bool) (xs ys : List (Carried α)) : List (Carried α) :=
  (mergeHeads lt xs ys).taken ++ (carry (mergeHeads lt xs ys).left ++ (mergeHeads lt xs ys).right)

section Carry

variable {lt : Carried α → Carried α → Bool} {xs ys cs : List (Carried α)} {c : Carried α}

/-- The scores are carried along, but no title is. -/
@[simp] theorem length_carry : (carry cs).length = cs.length := by
  cases cs
  · rfl
  · exact List.length_map _

/-- The titles are those they were. -/
@[simp] theorem map_entry_carry : (carry cs).map Carried.entry = cs.map Carried.entry := by
  cases cs
  · rfl
  · rw [carry, List.map_map]
    rfl

/-- Entry for entry, a child merges. -/
theorem map_entry_childMerge (lt : Carried α → Carried α → Bool) (xs ys : List (Carried α)) :
    (childMerge lt xs ys).map Carried.entry = (xs.merge ys lt).map Carried.entry := by
  obtain ⟨-, -, -, hmerge⟩ := mergeHeads_spec lt xs ys
  rw [← hmerge, childMerge]
  simp only [List.map_append, map_entry_carry]

/-- A child rearranges the titles. -/
theorem childMerge_perm (lt : Carried α → Carried α → Bool) (xs ys : List (Carried α)) :
    ((childMerge lt xs ys).map Carried.entry).Perm
      (xs.map Carried.entry ++ ys.map Carried.entry) := by
  rw [map_entry_childMerge, ← List.map_append]
  exact (List.merge_perm_append _).map _

/-- And it loses none. -/
@[simp] theorem length_childMerge : (childMerge lt xs ys).length = xs.length + ys.length := by
  have hlen := (childMerge_perm lt xs ys).length_eq
  simpa using hlen

/-- No new scores come up. -/
theorem carried_childMerge (h : c ∈ childMerge lt xs ys) :
    ∃ c' ∈ xs ++ ys, c'.carried = c.carried := by
  obtain ⟨-, hleft, hright, hmerge⟩ := mergeHeads_spec lt xs ys
  rw [childMerge, List.mem_append, List.mem_append] at h
  -- taken while both runs had heads, from the rest of the left run, or of the right one
  rcases h with h | h | h
  · have hmem : c ∈ xs.merge ys lt := by
      rw [← hmerge]
      exact List.mem_append_left _ h
    rw [List.mem_merge] at hmem
    exact ⟨c, List.mem_append.mpr hmem, rfl⟩
  · cases hrest : (mergeHeads lt xs ys).left with
    | nil =>
      rw [hrest] at h
      cases h
    | cons c' rest =>
      rw [hrest] at h hleft
      obtain ⟨c'', -, rfl⟩ := List.mem_map.mp h
      exact ⟨c', List.mem_append_left _ (hleft.subset (by simp)), rfl⟩
  · exact ⟨c, List.mem_append_right _ (hright.subset h), rfl⟩

end Carry

/-- Run `t` of level `j`: level 0 are the `b` sorted chunks of length `s` of `es`, and a run of a
    later level is what a merging child makes of two runs. -/
def childRuns [Score α] (lt : Carried α → Carried α → Bool) (es : List (Entry α)) (s b : ℕ) :
    ℕ → ℕ → List (Carried α)
  | 0, t => (plainSort (run es s b t)).map Carried.own
  | j + 1, t =>
    childMerge lt (childRuns lt es s b j (2 * t)) (childRuns lt es s b j (2 * t + 1))

variable [Score α] {lt : Carried α → Carried α → Bool} {es : List (Entry α)} {s b j : ℕ}

/-- A run of level `j` has the entries of a run of `2 ^ j` times the length. -/
theorem childRuns_perm (lt : Carried α → Carried α → Bool) (es : List (Entry α)) (s : ℕ) {b j c : ℕ}
    (h : c * 2 ^ j = b) (t : ℕ) :
    ((childRuns lt es s b j t).map Carried.entry).Perm (run es (2 ^ j * s) c t) := by
  -- one level deeper a run is the merge of two runs of half its length
  induction j generalizing c t with
  | zero =>
    rw [pow_zero, Nat.mul_one] at h
    rw [childRuns, List.map_map, pow_zero, Nat.one_mul, h]
    have hid : (Carried.entry ∘ Carried.own : Entry α → Entry α) = id := rfl
    rw [hid, List.map_id]
    exact plainSort_perm _
  | succ j ih =>
    have hdouble : 2 * c * 2 ^ j = b := by
      rw [← h, pow_succ]
      ring
    have hlen : 2 ^ (j + 1) * s = 2 * (2 ^ j * s) := by
      rw [pow_succ]
      ring
    rw [childRuns, hlen, run_double]
    exact (childMerge_perm lt _ _).trans ((ih hdouble (2 * t)).append (ih hdouble (2 * t + 1)))

/-- The run of a child is as long as its part of the matches. -/
theorem length_childRuns {c : ℕ} (h : c * 2 ^ j = b) (t : ℕ) :
    (childRuns lt es s b j t).length = (run es (2 ^ j * s) c t).length := by
  rw [← (childRuns_perm lt es s h t).length_eq, List.length_map]

/-! ### Copying to and from shared memory -/

/-- The names of the entries, with the suffix, fit into the slots of shared memory. -/
def Fits (es : List (Entry α)) : Prop := ∀ e ∈ es, (e.name ++ secretKey).length < 0xff

instance (es : List (Entry α)) : Decidable (Fits es) :=
  inferInstanceAs (Decidable (∀ e ∈ es, (e.name ++ secretKey).length < 0xff))

variable {a old c new : List (Entry α)} {i : ℕ}

/-- Reading consecutive slots. -/
theorem mapM_loadAt {β : Type} {array l : List β} {start n : ℕ} (hn : l.length = n)
    (h : ∀ k < n, array[start + k]? = l[k]?) :
    (List.range n).mapM (fun k => loadAt array (start + k)) = .ok l := by
  subst hn
  cases l with
  | nil => rfl
  | cons x l =>
    -- inside the bounds each read gives the entry of the list
    have hget (k : ℕ) (hk : k < (x :: l).length) : (x :: l).getD k x = (x :: l)[k] := by
      rw [List.getD_eq_getElem?_getD, List.getElem?_eq_getElem hk]
      rfl
    have hread : (List.range (x :: l).length).mapM (fun k => loadAt array (start + k)) =
        .ok ((List.range (x :: l).length).map fun k => (x :: l).getD k x) := by
      apply mapM_eq
      intro k hk
      have hk' : k < (x :: l).length := List.mem_range.mp hk
      rw [loadAt, h k hk', List.getElem?_eq_getElem hk', hget k hk']
    rw [hread]
    congr 1
    apply List.ext_getElem
    · simp
    · intro k h1 h2
      rw [List.getElem_map, List.getElem_range, hget k h2]

/-! ### The children -/

variable {d : Data α} {numOfMovies t : ℕ} {pre post : List (Entry α)}

/-- The slots of a list of entries with their stored scores. -/
def slots (cs : List (Carried α)) : List (Entry α) := cs.map Carried.shown

omit [Score α] in
/-- As many slots as titles. -/
@[simp] theorem length_slots (cs : List (Carried α)) : (slots cs).length = cs.length :=
  List.length_map _

/-- Child `t` of the first level sorts its chunk. -/
theorem sortChild_eq (h : Chunked d es) (hleft : d.left = d.cnt % d.base) (hvalid : ValidEntries es)
    (hfit : Fits es) (hle : es.length ≤ numOfMovies) (ht : t < d.base)
    (hpre : pre.length = t * d.size) :
    sortChild numOfMovies d d.size
        (names (pre ++ (run es d.size d.base t ++ post)),
          scores (pre ++ (run es d.size d.base t ++ post))) t =
      .ok (names (pre ++ (slots (childRuns lt es d.size d.base 0 t) ++ post)),
        scores (pre ++ (slots (childRuns lt es d.size d.base 0 t) ++ post))) := by
  have hlen := h.length_run ht
  have hsub : (run es d.size d.base t).Sublist es := run_sublist
  have hslots : slots (childRuns lt es d.size d.base 0 t) =
      (plainSort (run es d.size d.base t)).map Entry.addSecret := by
    rw [childRuns, slots, List.map_map]
    rfl
  rw [hslots]
  -- the child reads its own chunk
  have hread (k : ℕ) (hk : k < (run es d.size d.base t).length) :
      (pre ++ (run es d.size d.base t ++ post))[d.size * t + k]? = (run es d.size d.base t)[k]? := by
    rw [Nat.mul_comm, ← hpre, List.getElem?_append_right (by omega), Nat.add_sub_cancel_left,
      List.getElem?_append_left hk]
  have hsort := sort_eq (h.run_ne_nil ht) (fun e he => hvalid.sortable e (hsub.subset he))
    (hsub.length_le.trans hle) [] []
  have hcopy := @copyBack_eq _ pre (run es d.size d.base t) post
    ((plainSort (run es d.size d.base t)).map Entry.addSecret) (by simp) (fun e he => by
      obtain ⟨e', he', rfl⟩ := List.mem_map.mp he
      exact hfit e' (hsub.subset ((plainSort_perm _).mem_iff.mp he')))
  simp only [List.append_nil, List.nil_append, List.length_nil, List.length_map, length_plainSort,
    hpre] at hsort hcopy
  unfold sortChild
  simp only [hleft, ← hlen]
  show Except.bind ((List.range _).mapM _) _ = _
  rw [mapM_loadAt (length_names) fun k hk => by
    rw [names, names, List.getElem?_map, List.getElem?_map, hread k hk]]
  show Except.bind ((List.range _).mapM _) _ = _
  rw [mapM_loadAt (length_scores) fun k hk => by
    rw [scores, scores, List.getElem?_map, List.getElem?_map, hread k hk]]
  show (sort _ _ _ _ _).bind _ = _
  rw [hsort, Nat.mul_comm d.size t]
  exact hcopy

/-- The comparison that the code makes, of the stored scores. -/
def asStored (c c' : Carried α) : Bool := first c.shown c'.shown

omit [Score α] in
/-- What is carried along is what is stored. -/
theorem slots_carry (cs : List (Carried α)) : slots (carry cs) = dragged (slots cs) := by
  cases cs with
  | nil => rfl
  | cons c rest =>
    simp only [slots, carry, List.map_cons, dragged, List.map_map]
    rfl

/-- The slots of `childMerge` are what a merging child stores. -/
theorem slots_childMerge (xs ys : List (Carried α)) :
    slots (childMerge asStored xs ys) = stored (slots xs) (slots ys) := by
  have hheads : mergeHeads first (slots xs) (slots ys) =
      ⟨slots (mergeHeads asStored xs ys).taken, slots (mergeHeads asStored xs ys).left,
        slots (mergeHeads asStored xs ys).right⟩ := mergeHeads_map _ _ _
  rw [stored, hheads, ← slots_carry, childMerge, slots, List.map_append, List.map_append]
  rfl

/-- A merging child replaces the two runs `xs` and `ys` by `childMerge` of them. -/
theorem mergeChild_eq {base size i : ℕ} {xs ys : List (Carried α)}
    (hpre : pre.length = size * i) (hxs : xs.length = size / 2)
    (hstop : (if i + 1 = base then size * (i + 1) + d.left else size * (i + 1)) =
      pre.length + size / 2 + ys.length)
    (hroom : xs.length + ys.length ≤ size + d.left)
    (hfit : ∀ c ∈ xs ++ ys, (c.entry.name ++ secretKey).length < 0xff) :
    mergeChild d base size
        (names (pre ++ (slots xs ++ (slots ys ++ post))),
          scores (pre ++ (slots xs ++ (slots ys ++ post)))) i =
      .ok (names (pre ++ (slots (childMerge asStored xs ys) ++ post)),
        scores (pre ++ (slots (childMerge asStored xs ys) ++ post))) := by
  -- what the child stores is a merge whose scores are taken as the code takes them
  rw [slots_childMerge]
  refine mergeChild_stores hpre (by rw [length_slots, hxs]) (by rw [length_slots, hstop])
    (by rwa [length_slots, length_slots]) fun e he => ?_
  rw [slots, slots, ← List.map_append] at he
  obtain ⟨c, hc, rfl⟩ := List.mem_map.mp he
  exact hfit c hc

/-! ### The levels -/

/-- The two arrays that hold a list of entries. -/
def columns (es : List (Entry α)) : List CString × List α := (names es, scores es)

/-- The slots after level `j`, when there are `c` runs. -/
def levelSlots (es : List (Entry α)) (s b j c : ℕ) : List (Entry α) :=
  blocks c fun t => slots (childRuns asStored es s b j t)

/-- All children of a level have the same number of slots, except the last, which has the rest. -/
theorem length_slots_childRuns (h : Chunked d es) {c : ℕ} (hc : c * 2 ^ j = d.base) (ht : t < c) :
    (slots (childRuns asStored es d.size d.base j t)).length =
      if t + 1 = c then 2 ^ j * d.size + d.cnt % d.base else 2 ^ j * d.size := by
  have htotal := h.total
  have hall : c * (2 ^ j * d.size) = d.base * d.size := by rw [← hc]; ring
  rw [length_slots, length_childRuns hc, Runs.length_run (by omega) ht]
  by_cases hlast : t + 1 = c
  · have hmul : c * (2 ^ j * d.size) = t * (2 ^ j * d.size) + 2 ^ j * d.size := by
      rw [← hlast, Nat.succ_mul]
    rw [if_pos hlast, if_pos hlast]
    omega
  · rw [if_neg hlast, if_neg hlast]

/-- The first level, in whatever order its children run. -/
theorem sortLevel_eq (h : Chunked d es) (hleft : d.left = d.cnt % d.base) (hvalid : ValidEntries es)
    (hfit : Fits es) (hle : es.length ≤ numOfMovies) {order : List ℕ}
    (horder : order.Perm (List.range d.base)) :
    order.foldlM (child numOfMovies d d.base d.size) (columns es) =
      .ok (columns (levelSlots es d.size d.base 0 d.base)) := by
  have hlen (t : ℕ) (ht : t + 1 < d.base) : (run es d.size d.base t).length = d.size := by
    rw [h.length_run (by omega), if_neg (by omega)]
  rw [← List.map_id (List.range d.base)] at horder
  -- the children write disjoint blocks, so their order does not matter
  have hphase := @foldlM_blocks _ (run es d.size d.base)
    (fun t => slots (childRuns asStored es d.size d.base 0 t)) d.base d.size _ _ _ _
    (child numOfMovies d d.base d.size) columns id Function.injective_id order horder hlen
    (fun t ht => by
      rw [length_slots_childRuns h (by rw [pow_zero, Nat.mul_one]) (by omega), if_neg (by omega),
        pow_zero, Nat.one_mul])
    fun t ht _ _ hpre => by
      rw [id, child, if_pos rfl]
      exact sortChild_eq h hleft hvalid hfit hle ht hpre
  rwa [blocks_run h.base_pos] at hphase

/-- A merge level, in whatever order its children run. -/
theorem mergeLevel_eq (h : Chunked d es) (hleft : d.left = d.cnt % d.base) (hfit : Fits es) {c : ℕ}
    (hc : c * 2 ^ (j + 1) = d.base) {order : List ℕ} (horder : order.Perm (List.range c)) :
    order.foldlM (child numOfMovies d c (2 ^ (j + 1) * d.size))
        (columns (levelSlots es d.size d.base j (2 * c))) =
      .ok (columns (levelSlots es d.size d.base (j + 1) c)) := by
  have hpow : 2 ^ (j + 1) = 2 * 2 ^ j := by rw [pow_succ]; ring
  have hc' : 2 * c * 2 ^ j = d.base := by rw [← hc, hpow]; ring
  have hhalf : 2 ^ (j + 1) * d.size / 2 = 2 ^ j * d.size := by
    rw [hpow, Nat.mul_assoc]
    omega
  have hsize : 2 ^ (j + 1) * d.size = 2 ^ j * d.size + 2 ^ j * d.size := by rw [hpow]; ring
  -- a merging level has fewer children than there are chunks
  have hbase : d.base ≠ c := by
    have hpos := h.base_pos
    have htwo : 2 ≤ 2 ^ (j + 1) := by
      have := Nat.two_pow_pos j
      omega
    have hmul : c * 2 ≤ c * 2 ^ (j + 1) := Nat.mul_le_mul_left c htwo
    omega
  have hx (t : ℕ) (ht : t < c) :
      (slots (childRuns asStored es d.size d.base j (2 * t))).length = 2 ^ j * d.size := by
    rw [length_slots_childRuns h hc' (by omega), if_neg (by omega)]
  have hy (t : ℕ) (ht : t < c) :
      (slots (childRuns asStored es d.size d.base j (2 * t + 1))).length =
        if t + 1 = c then 2 ^ j * d.size + d.cnt % d.base else 2 ^ j * d.size := by
    have hiff : 2 * t + 1 + 1 = 2 * c ↔ t + 1 = c := by omega
    rw [length_slots_childRuns h hc' (by omega)]
    simp only [hiff]
  rw [← List.map_id (List.range c)] at horder
  -- the children of a level work on disjoint blocks, in whatever order
  have hphase := @foldlM_blocks _
    (fun t => slots (childRuns asStored es d.size d.base j (2 * t)) ++
      slots (childRuns asStored es d.size d.base j (2 * t + 1)))
    (fun t => slots (childRuns asStored es d.size d.base (j + 1) t)) c (2 ^ (j + 1) * d.size)
    _ _ _ _ (child numOfMovies d c (2 ^ (j + 1) * d.size)) columns id Function.injective_id order
    horder
    (fun t ht => by
      rw [List.length_append, hx t (by omega), hy t (by omega), if_neg (by omega), hsize])
    (fun t ht => by rw [length_slots_childRuns h hc (by omega), if_neg (by omega)])
    fun t ht before after hpre => by
      rw [id, child, if_neg hbase, childRuns, List.append_assoc]
      have hxt := hx t ht
      have hyt := hy t ht
      rw [length_slots] at hxt hyt
      refine mergeChild_eq (by rw [hpre, Nat.mul_comm]) (by rw [hhalf, hxt]) ?_ ?_ ?_
      · rw [hyt, hhalf, hpre, Nat.mul_succ, Nat.mul_comm t, hleft]
        split <;> omega
      · rw [hxt, hyt, hleft]
        split <;> omega
      · intro e he
        have hmem : e.entry ∈ (childRuns asStored es d.size d.base (j + 1) t).map Carried.entry :=
          (childMerge_perm asStored _ _).mem_iff.mpr (by
            rw [← List.map_append]
            exact List.mem_map_of_mem he)
        exact hfit _ (run_sublist.subset ((childRuns_perm asStored es d.size hc t).subset hmem))
  rwa [← blocks_double c fun t => slots (childRuns asStored es d.size d.base j t)] at hphase

/-- The merge levels that are left when level `j` is done. -/
theorem mergeLevels_eq (h : Chunked d es) (hleft : d.left = d.cnt % d.base) (hfit : Fits es) (k : ℕ)
    (hk : 2 ^ k * 2 ^ j = d.base) {orders : List (List ℕ)}
    (horders : List.Forall₂ List.Perm orders (forkTasks (2 ^ k / 2))) :
    forkLevels numOfMovies d orders (2 ^ k / 2) (2 ^ (j + 1) * d.size)
        (columns (levelSlots es d.size d.base j (2 ^ k))) =
      .ok (columns (slots (childRuns asStored es d.size d.base (j + k) 0))) := by
  induction k generalizing j orders with
  | zero =>
    rw [forkTasks, if_neg (by omega)] at horders
    obtain rfl := List.forall₂_nil_right_iff.mp horders
    rw [forkLevels, if_neg (by omega), pow_zero, levelSlots, blocks, List.range_one,
      List.flatMap_singleton]
    rfl
  | succ k ih =>
    have hpos : 0 < 2 ^ k := Nat.two_pow_pos k
    have hhalf : 2 ^ (k + 1) / 2 = 2 ^ k := by rw [pow_succ]; omega
    rw [hhalf, forkTasks, if_pos (by omega)] at horders
    obtain ⟨order, rest, horder, hrest, rfl⟩ := List.forall₂_cons_right_iff.mp horders
    have hc : 2 ^ k * 2 ^ (j + 1) = d.base := by rw [← hk, pow_succ, pow_succ]; ring
    have hdouble : 2 ^ (j + 1) * d.size * 2 = 2 ^ (j + 1 + 1) * d.size := by
      rw [pow_succ 2 (j + 1)]
      ring
    have htwice : 2 ^ (k + 1) = 2 * 2 ^ k := by rw [pow_succ]; ring
    -- one level, then the rest of them with half as many children
    rw [hhalf, forkLevels, if_pos (by omega), htwice, mergeLevel_eq h hleft hfit hc horder, hdouble]
    show forkLevels _ _ _ _ _ _ = _
    rw [ih hc hrest, Nat.add_right_comm, Nat.add_assoc]

/-! ### The whole program -/

/-- The only run of the last level. -/
def lastRun (lt : Carried α → Carried α → Bool) (movies : List (MovieProfile α)) (r : Request α) :
    List (Carried α) :=
  childRuns lt (matching movies r) (cal movies r).size (cal movies r).base
    (Nat.log2 (cal movies r).base) 0

variable {movies : List (MovieProfile α)} {r : Request α}

/-- **The process build** writes the names of the last run, for any order of the children of each
    level. -/
theorem pserver_eq (hne : matching movies r ≠ []) (hvalid : ValidEntries (matching movies r))
    (hfit : Fits (matching movies r)) {orders : List (List ℕ)}
    (horders : ForkOrders movies r orders) :
    pserver movies r orders =
      .ok ((lastRun asStored movies r).map fun c => c.entry.name ++ secretKey) := by
  obtain ⟨hcal, hcut⟩ := cal_eq movies r
  have h := hcut hne
  have hleft : (cal movies r).left = (cal movies r).cnt % (cal movies r).base := rfl
  obtain ⟨k, hk⟩ := h.base
  have hpos : (cal movies r).base ≥ 1 := h.base_pos
  unfold ForkOrders at horders
  rw [forkTasks, if_pos hpos] at horders
  obtain ⟨order, rest, horder, hrest, rfl⟩ := List.forall₂_cons_right_iff.mp horders
  have hstart : ((cal movies r).moviename, (cal movies r).moviescore) =
      columns (matching movies r) := by
    rw [hcal]
    rfl
  -- one level of sorting children, then the merging levels
  have hlevels : forkLevels movies.length (cal movies r) (order :: rest) (cal movies r).base
      (cal movies r).size (columns (matching movies r)) =
        .ok (columns (slots (lastRun asStored movies r))) := by
    have hsort := sortLevel_eq h hleft hvalid hfit (length_matching_le movies r) horder
    rw [hk] at hrest
    have hone : 2 ^ k * 2 ^ 0 = (cal movies r).base := by rw [hk, pow_zero, Nat.mul_one]
    have hmerge := @mergeLevels_eq _ _ _ 0 _ movies.length h hleft hfit k hone rest hrest
    rw [forkLevels, if_pos hpos, hsort]
    show forkLevels _ _ _ _ _ _ = _
    rw [Nat.zero_add, pow_one, ← hk, Nat.mul_comm 2, Nat.zero_add] at hmerge
    rw [hmerge, lastRun, hk, Nat.log2_two_pow]
  -- the last run holds all matching titles
  have hlen : (slots (lastRun asStored movies r)).length = (cal movies r).cnt := by
    have hperm := (childRuns_perm asStored (matching movies r) (cal movies r).size
      (show 1 * 2 ^ k = (cal movies r).base by rw [hk, Nat.one_mul]) 0).length_eq
    have hwhole (s : ℕ) : run (matching movies r) s 1 0 = matching movies r := by simp [run]
    rw [List.length_map, hwhole] at hperm
    rw [length_slots, lastRun, hk, Nat.log2_two_pow, ← hk, hperm, h.cnt]
  have hread : (List.range (cal movies r).cnt).mapM
      (loadAt (names (slots (lastRun asStored movies r)))) =
        .ok (names (slots (lastRun asStored movies r))) := by
    have hall := @mapM_loadAt _ (names (slots (lastRun asStored movies r)))
      (names (slots (lastRun asStored movies r))) 0 _ (by rw [length_names, hlen])
      fun i _ => by rw [Nat.zero_add]
    simpa only [Nat.zero_add] using hall
  show (forkLevels _ _ _ _ _ ((cal movies r).moviename, (cal movies r).moviescore)).bind _ = _
  rw [hstart, hlevels]
  show (List.range _).mapM (loadAt (names (slots (lastRun asStored movies r)))) = _
  rw [hread, names, slots, List.map_map]
  rfl

end SystemProgramming.Movies
