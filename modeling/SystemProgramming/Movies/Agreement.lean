import Mathlib.Algebra.Order.Ring.Rat
import Mathlib.Tactic.NormNum
import SystemProgramming.Movies.Carried

namespace SystemProgramming.Movies

open Program Runs

/-!
# Movie recommendation — when the two builds agree

The process build writes what the thread build writes if and only if no score that stands with
another entry than its own decides a comparison the wrong way.

* `StoredAgree` — in the plain merges of a request, the stored scores order every two heads as
  their own scores do;
* `storedAgree_of_le` — there is nothing to go wrong with at most 5000 matching titles;
* `process_agrees_iff` — **the builds agree exactly then**;
* `process_differs` — a request with 5001 matching titles for which they do not.
-/

variable {α : Type} [Score α]

/-- The comparison of the entries themselves. -/
def asRanked (c c' : Carried α) : Bool := first c.entry c'.entry

variable {movies : List (MovieProfile α)} {r : Request α} {es : List (Entry α)}
  {xs ys : List (Carried α)} {s b c j t : ℕ}

/-- Merging by the entries themselves sorts them, whatever scores are stored. -/
theorem map_entry_ranked (hc : c * 2 ^ j = b) (t : ℕ) :
    (childRuns asRanked es s b j t).map Carried.entry = plainSort (run es (2 ^ j * s) c t) := by
  induction j generalizing c t with
  | zero =>
    rw [pow_zero, Nat.mul_one] at hc
    rw [childRuns, List.map_map, pow_zero, Nat.one_mul, hc]
    exact List.map_id _
  -- a level up halves the number of runs and doubles their length
  | succ j ih =>
    have hdouble : 2 * c * 2 ^ j = b := by
      rw [← hc, pow_succ]
      ring
    have hlen : 2 ^ (j + 1) * s = 2 * (2 ^ j * s) := by
      rw [pow_succ]
      ring
    have hmerge : ((childRuns asRanked es s b j (2 * t)).merge
        (childRuns asRanked es s b j (2 * t + 1)) asRanked).map Carried.entry =
          mergeRuns ((childRuns asRanked es s b j (2 * t)).map Carried.entry)
            ((childRuns asRanked es s b j (2 * t + 1)).map Carried.entry) :=
      List.map_merge fun _ _ _ _ => rfl
    rw [childRuns, map_entry_childMerge, hmerge, ih hdouble, ih hdouble, mergeRuns_plainSort,
      ← run_double, hlen]

/-- In every merge of two neighbouring runs, as the plain sort makes it, the scores that are stored
    with two heads order them as their own scores do. -/
def StoredAgree (movies : List (MovieProfile α)) (r : Request α) : Prop :=
  ∀ j c, c * 2 ^ (j + 1) = (cal movies r).base → ∀ t < c,
    SameHeads asStored asRanked
      (childRuns asRanked (matching movies r) (cal movies r).size (cal movies r).base j (2 * t))
      (childRuns asRanked (matching movies r) (cal movies r).size (cal movies r).base j (2 * t + 1))

/-! ### The condition is enough -/

/-- Two comparisons that agree on the heads merge alike. -/
theorem childMerge_congr (h : SameHeads asStored asRanked xs ys) :
    childMerge asStored xs ys = childMerge asRanked xs ys := by
  rw [childMerge, childMerge, h.mergeHeads_eq]

/-- Where the comparisons agree on every merge, the runs of every level are the same. By induction
    on the level. -/
theorem StoredAgree.childRuns_eq (h : StoredAgree movies r) (hc : c * 2 ^ j = (cal movies r).base)
    (ht : t < c) :
    childRuns asStored (matching movies r) (cal movies r).size (cal movies r).base j t =
      childRuns asRanked (matching movies r) (cal movies r).size (cal movies r).base j t := by
  induction j generalizing c t with
  | zero => rfl
  | succ j ih =>
    have hdouble : 2 * c * 2 ^ j = (cal movies r).base := by
      rw [← hc, pow_succ]
      ring
    rw [childRuns, childRuns, ih hdouble (by omega), ih hdouble (by omega)]
    exact childMerge_congr (h j c hc t ht)

/-- The number of chunks depends on the number of matches alone. -/
theorem cal_base (movies : List (MovieProfile α)) (r : Request α) :
    (cal movies r).base = baseOf (cal movies r).cnt := rfl

/-- The number of levels. -/
theorem log2_base (movies : List (MovieProfile α)) (r : Request α) :
    1 * 2 ^ Nat.log2 (cal movies r).base = (cal movies r).base := by
  obtain ⟨k, hk⟩ : ∃ k, (cal movies r).base = 2 ^ k := baseOf_pow _
  rw [hk, Nat.log2_two_pow, Nat.one_mul]

omit [Score α] in
/-- The one run of the whole list. -/
theorem run_one (l : List (Entry α)) (s : ℕ) : run l s 1 0 = l := by
  simp [run]

/-- Compared by their own scores, the titles end up in the order of a plain sort. -/
theorem map_entry_lastRun (movies : List (MovieProfile α)) (r : Request α) :
    (lastRun asRanked movies r).map Carried.entry = plainSort (matching movies r) := by
  rw [lastRun, map_entry_ranked (log2_base movies r), run_one]

omit [Score α] in
/-- The lines that are written from a run. -/
theorem lines_eq (cs : List (Carried α)) :
    (cs.map fun c => c.entry.name ++ secretKey) =
      (cs.map Carried.entry).map fun e => e.name ++ secretKey := by
  rw [List.map_map]
  rfl

/-- So the lines are those of a plain sort. -/
theorem StoredAgree.lines (h : StoredAgree movies r) :
    ((lastRun asStored movies r).map fun c => c.entry.name ++ secretKey) = plainLines movies r := by
  have hlast : lastRun asStored movies r = lastRun asRanked movies r :=
    h.childRuns_eq (log2_base movies r) (by omega)
  rw [lines_eq, hlast, map_entry_lastRun, plainLines]

/-- With at most two chunks all stored scores that are compared are the entries' own. -/
theorem storedAgree_of_le (hvalid : ValidEntries (matching movies r))
    (hne : matching movies r ≠ []) (hle : (matching movies r).length ≤ 5000) :
    StoredAgree movies r := by
  intro j c hc t ht
  -- up to 5000 titles there are at most two runs, so that only own entries meet
  have hbase : (cal movies r).base ≤ 2 := by
    rw [cal_base, ((cal_eq movies r).2 hne).cnt, baseOf]
    split_ifs <;> omega
  have hj : j = 0 := by
    by_contra hj
    have hfour : 2 ^ 2 ≤ 2 ^ (j + 1) := Nat.pow_le_pow_right (by omega) (by omega)
    have hmul : 1 * 2 ^ (j + 1) ≤ c * 2 ^ (j + 1) := Nat.mul_le_mul_right _ (by omega)
    omega
  subst hj
  have hown (u : ℕ) (c' : Carried α)
      (hmem : c' ∈ childRuns asRanked (matching movies r) (cal movies r).size
        (cal movies r).base 0 u) : ∃ e, ValidTitle e.name ∧ c' = .own e := by
    obtain ⟨e, he, rfl⟩ := List.mem_map.mp hmem
    have he' := run_sublist.subset ((plainSort_perm _).mem_iff.mp he)
    exact ⟨e, (hvalid e he').1, rfl⟩
  apply SameHeads.of_eq
  intro x hx y hy
  obtain ⟨e, he, rfl⟩ := hown _ x hx
  obtain ⟨e', he', rfl⟩ := hown _ y hy
  exact decide_eq_decide.mpr (Entry.addSecret_lt he he')

/-! ### The condition is necessary -/

/-- A sorted result has been merged from sorted runs, and without a wrong comparison. -/
theorem sorted_childMerge {x y : List (Carried α)}
    (h : (childMerge asStored x y).Pairwise fun c c' => c.entry < c'.entry) :
    x.Pairwise (fun c c' => c.entry < c'.entry) ∧ y.Pairwise (fun c c' => c.entry < c'.entry) ∧
      SameHeads asStored asRanked x y := by
  have hmerge : (x.merge y asStored).Pairwise fun c c' => c.entry < c'.entry := by
    have hmap := List.pairwise_map.mpr h
    rw [map_entry_childMerge] at hmap
    exact List.pairwise_map.mp hmap
  obtain ⟨hx, hy⟩ := pairwise_of_merge hmerge
  refine ⟨hx, hy, SameHeads.of_pairwise (fun c c' hlt => ?_) hmerge⟩
  exact ⟨decide_eq_true hlt, decide_eq_false (lt_asymm hlt)⟩

/-- If the last run is sorted, so are all runs before. -/
theorem sorted_childRuns (hc : c * 2 ^ j = (cal movies r).base)
    (hlast : (lastRun asStored movies r).Pairwise fun x y => x.entry < y.entry) (ht : t < c) :
    (childRuns asStored (matching movies r) (cal movies r).size (cal movies r).base j t).Pairwise
      fun x y => x.entry < y.entry := by
  obtain ⟨k, hk⟩ : ∃ k, (cal movies r).base = 2 ^ k := baseOf_pow _
  obtain ⟨i, rfl⟩ : ∃ i, k = i + j := by
    have hle : 2 ^ j ∣ 2 ^ k := ⟨c, by rw [← hk, ← hc, Nat.mul_comm]⟩
    exact ⟨k - j, by have := (Nat.pow_dvd_pow_iff_le_right (by omega)).mp hle; omega⟩
  have hci : c = 2 ^ i := by
    rw [hk, pow_add] at hc
    exact Nat.eq_of_mul_eq_mul_right (Nat.two_pow_pos j) hc
  subst hci
  -- from the last level down
  induction i generalizing j t with
  | zero =>
    have hzero : t = 0 := by omega
    rw [lastRun, hk, Nat.log2_two_pow, Nat.zero_add] at hlast
    rw [hzero, hk, Nat.zero_add]
    exact hlast
  | succ i ih =>
    have hhalf : t / 2 < 2 ^ i := by
      rw [pow_succ] at ht
      omega
    have hup := @ih (j + 1) (t / 2) (by rw [hk, Nat.add_right_comm, Nat.add_assoc])
      (by rw [← hc, pow_succ, pow_succ]; ring) hhalf
    rw [childRuns] at hup
    obtain ⟨hleft, hright, -⟩ := sorted_childMerge hup
    rcases Nat.even_or_odd' t with ⟨u, rfl | rfl⟩
    · rwa [show 2 * u / 2 = u by omega] at hleft
    · rwa [show (2 * u + 1) / 2 = u by omega] at hright

/-- A sorted result shows that the stored scores have agreed with the entries' own. -/
theorem storedAgree_of_sorted
    (hlast : (lastRun asStored movies r).Pairwise fun x y => x.entry < y.entry) :
    StoredAgree movies r := by
  have hdouble {j c : ℕ} (hc : c * 2 ^ (j + 1) = (cal movies r).base) :
      2 * c * 2 ^ j = (cal movies r).base := by
    rw [← hc, pow_succ]
    ring
  have hsame {j c t : ℕ} (hc : c * 2 ^ (j + 1) = (cal movies r).base) (ht : t < c) :=
    (sorted_childMerge (show (childMerge asStored _ _).Pairwise _ from
      sorted_childRuns hc hlast ht)).2.2
  -- below a merge that is right everywhere the two builds hold the same runs
  have hruns : ∀ j c, c * 2 ^ j = (cal movies r).base → ∀ t < c,
      childRuns asStored (matching movies r) (cal movies r).size (cal movies r).base j t =
        childRuns asRanked (matching movies r) (cal movies r).size (cal movies r).base j t := by
    intro j
    induction j with
    | zero => intro c _ t _; rfl
    | succ j ih =>
      intro c hc t ht
      rw [childRuns, childRuns, childMerge_congr (hsame hc ht), ih _ (hdouble hc) _ (by omega),
        ih _ (hdouble hc) _ (by omega)]
  intro j c hc t ht
  have h := hsame hc ht
  rwa [hruns j _ (hdouble hc) _ (by omega), hruns j _ (hdouble hc) _ (by omega)] at h

/-- Entries with different titles are known by their lines. -/
theorem sorted_of_lines (hnodup : (names (matching movies r)).Nodup)
    (hlines : ((lastRun asStored movies r).map fun c => c.entry.name ++ secretKey) =
      plainLines movies r) :
    (lastRun asStored movies r).Pairwise fun x y => x.entry < y.entry := by
  have hperm : ((lastRun asStored movies r).map Carried.entry).Perm (matching movies r) := by
    have h := childRuns_perm asStored (matching movies r) (cal movies r).size (log2_base movies r) 0
    rwa [run_one] at h
  -- the secret at the end of each line drops off
  have hnames : (plainSort (matching movies r)).map Entry.name =
      ((lastRun asStored movies r).map Carried.entry).map Entry.name := by
    rw [lines_eq, plainLines] at hlines
    have hdrop := congrArg (List.map fun l : CString => l.take (l.length - secretKey.length)) hlines
    simpa [Function.comp_def] using hdrop.symm
  -- the lines show names only, and different titles have different names
  have hinj : ∀ x ∈ matching movies r, ∀ y ∈ matching movies r, x.name = y.name → x = y :=
    fun x hx y hy => List.inj_on_of_nodup_map hnodup hx hy
  have hentries : (lastRun asStored movies r).map Carried.entry = plainSort (matching movies r) := by
    have hlen := congrArg List.length hnames
    apply List.ext_getElem
    · simpa using hlen.symm
    · intro n h1 h2
      refine hinj _ (hperm.subset (List.getElem_mem h1)) _
        ((plainSort_perm _).subset (List.getElem_mem h2)) ?_
      have hget := congrArg (fun l : List CString => l[n]?) hnames
      simp only [List.getElem?_map, List.getElem?_eq_getElem h2, Option.map_some,
        List.getElem?_eq_getElem (show n < (lastRun asStored movies r).length by simpa using h1)]
        at hget
      rw [List.getElem_map]
      exact (Option.some.inj hget).symm
  have hstrict : (plainSort (matching movies r)).Pairwise (· < ·) := by
    have hdistinct : (plainSort (matching movies r)).Nodup :=
      (plainSort_perm _).nodup_iff.mpr (List.Nodup.of_map _ hnodup)
    exact ((plainSort_sorted _).and hdistinct).imp fun h => lt_of_le_of_ne h.1 h.2
  rw [← hentries] at hstrict
  exact List.pairwise_map.mp hstrict

/-! ### The two builds -/

/-- For the first request the two builds write the same lines, those of the plain sort. -/
def Agrees (movies : List (MovieProfile α)) (r : Request α) (orders : List (List ℕ))
    (rest : List (Request α)) (o : Orders) : Prop :=
  ∃ others, pserver movies r orders = .ok (plainLines movies r) ∧
    tserver movies (r :: rest) o = .ok (plainLines movies r :: others)

/-- **When the builds agree.**  For every table and request with valid titles that fit into shared
    memory and a match, and for every order of the children and threads: if the stored scores agree
    with the entries' own, the two builds write the same, and when the matching titles are
    different from each other, they do only then. -/
theorem process_agrees_iff (movies : List (MovieProfile α)) (r : Request α) (rest : List (Request α))
    (h : ValidInput movies (r :: rest)) (hfit : Fits (matching movies r)) (orders : List (List ℕ))
    (horders : ForkOrders movies r orders) (o : Orders) (ho : o.Valid movies (r :: rest)) :
    (StoredAgree movies r → Agrees movies r orders rest o) ∧
      ((names (matching movies r)).Nodup →
        (Agrees movies r orders rest o ↔ StoredAgree movies r)) := by
  have hr : r ∈ r :: rest := by simp
  -- both programs are computed in closed form, so their lines can be compared
  have hprocess := pserver_eq (h.matching_ne_nil hr) (h.entries hr) hfit horders
  have hthread := tserver_eq h ho
  have henough : StoredAgree movies r → Agrees movies r orders rest o := by
    intro hagree
    refine ⟨rest.map (plainLines movies), ?_, hthread⟩
    rw [hprocess, hagree.lines]
  -- with distinct titles the lines determine the order of the entries
  refine ⟨henough, fun hnodup => ⟨?_, henough⟩⟩
  rintro ⟨-, hlines, -⟩
  rw [hprocess] at hlines
  exact storedAgree_of_sorted (sorted_of_lines hnodup (Except.ok.inj hlines))

/-- A request for all titles of `twoMovies`. -/
def allTitles : Request ℤ := ⟨star, fun _ => 1⟩

/-- Two titles are one chunk, and nothing is merged. -/
theorem process_agrees_iff_twoMovies :
    Agrees twoMovies allTitles [[0]] [] ⟨[0], [(0, 0)], []⟩ := by
  have hinput : ValidInput twoMovies [allTitles] :=
    ⟨validTitle_twoMovies, by decide, by decide⟩
  have hforks : ForkOrders twoMovies allTitles [[0]] := by
    have htasks : forkTasks 1 = [[0]] := by simp [forkTasks]
    have hbase : (cal twoMovies allTitles).base = 1 := by decide
    rw [ForkOrders, hbase, htasks]
    exact .cons (.refl _) .nil
  have horders : Orders.Valid twoMovies [allTitles] ⟨[0], [(0, 0)], []⟩ :=
    Orders.valid_oneChunk (by decide) (.refl _) (by decide) (by decide)
  apply (process_agrees_iff twoMovies allTitles [] hinput (by decide) [[0]] hforks _ horders).1
  exact storedAgree_of_le (hinput.entries (by simp)) (by decide) (by decide)

/-! ### Where they differ -/

/-- Exact scores. -/
instance : Score ℚ where
  minusOne := -1
  minusOne_neg := by decide

/-- A profile that is zero except for the first two genres. -/
def pair (a b : ℚ) : Fin numOfGenre → ℚ := fun j =>
  if j.val = 0 then a else if j.val = 1 then b else 0

/-- Three letters: a title for each of the first 17576 numbers. -/
def longTitle (i : ℕ) : CString := [.ofNat (65 + i / 676), .ofNat (65 + i / 26 % 26), .ofNat (65 + i % 26)]

/-- Unit vectors. -/
def longProfile (i : ℕ) : Fin numOfGenre → ℚ :=
  if i = 0 then pair (4 / 5) (3 / 5)
  else if i < 1250 then pair 0 1
  else if i < 2500 then pair 1 0
  else pair (3 / 5) (4 / 5)

/-- A table of 5001 titles. -/
def longMovies : List (MovieProfile ℚ) := (List.range 5001).map fun i => ⟨longTitle i, longProfile i⟩

/-- A request for all of them. -/
def longRequest : Request ℚ := ⟨star, pair 1 0⟩

/-- A profile that is zero except for the first genre selects the first genre. -/
theorem foldl_first {n : ℕ} (f g : Fin (n + 1) → ℚ) (hf : ∀ j : Fin n, f j.succ = 0) :
    (List.finRange (n + 1)).foldl (fun sum j => sum + f j * g j) 0 = f 0 * g 0 := by
  have hrest (l : List (Fin n)) (sum : ℚ) :
      (l.map Fin.succ).foldl (fun sum j => sum + f j * g j) sum = sum := by
    induction l generalizing sum with
    | nil => rfl
    | cons j l ih => rw [List.map_cons, List.foldl_cons, hf, zero_mul, add_zero, ih]
  rw [List.finRange_succ, List.foldl_cons, hrest, zero_add]

/-- The request asks for the first genre only. -/
theorem rate_longRequest (m : MovieProfile ℚ) :
    longRequest.rate m = m.profile ⟨0, by decide⟩ := by
  have hfirst : longRequest.rate m = 1 * m.profile ⟨0, by decide⟩ :=
    @foldl_first 18 longRequest.profile m.profile fun j => by
      show (if j.val + 1 = 0 then (1 : ℚ) else if j.val + 1 = 1 then 0 else 0) = 0
      rw [if_neg (by omega), ite_self]
  rw [hfirst, one_mul]

/-- The score of title `i`. -/
def longScore (i : ℕ) : ℚ :=
  if i = 0 then 4 / 5 else if i < 1250 then 0 else if i < 2500 then 1 else 3 / 5

/-- Title `i` as it is rated. -/
def longEntry (i : ℕ) : Entry ℚ := ⟨longTitle i, longScore i⟩

/-- The request matches every title of the table. -/
theorem matching_long : matching longMovies longRequest = (List.range 5001).map longEntry := by
  have hall : longMovies.filter longRequest.selects = longMovies :=
    List.filter_eq_self.mpr fun m _ => rfl
  rw [matching, hall, longMovies, List.map_map]
  generalize List.range 5001 = l
  apply List.map_congr_left
  intro i _
  have hscore : longRequest.rate ⟨longTitle i, longProfile i⟩ = longScore i := by
    rw [rate_longRequest]
    unfold longProfile longScore
    split_ifs <;> rfl
  exact congrArg (Entry.mk (longTitle i)) hscore

/-- There are four chunks of 1250 titles, and one title is left. -/
theorem cal_long : (cal longMovies longRequest).cnt = 5001 ∧
    (cal longMovies longRequest).base = 4 ∧ (cal longMovies longRequest).size = 1250 := by
  have hne : matching longMovies longRequest ≠ [] := by
    rw [matching_long]
    exact List.ne_nil_of_length_eq_add_one (n := 5000) (by simp)
  have h := (cal_eq longMovies longRequest).2 hne
  have hcnt : (cal longMovies longRequest).cnt = 5001 := by
    rw [h.cnt, matching_long, List.length_map, List.length_range]
  have hbase : (cal longMovies longRequest).base = 4 := by
    rw [cal_base, hcnt]
    rfl
  exact ⟨hcnt, hbase, by rw [h.size, hcnt, hbase]⟩

/-- The titles of chunk `t`. -/
theorem mem_run_long {t : ℕ} {e : Entry ℚ}
    (h : e ∈ run (matching longMovies longRequest) 1250 4 t) :
    ∃ i, t * 1250 ≤ i ∧ i < 5001 ∧ (t < 3 → i < (t + 1) * 1250) ∧ e = longEntry i := by
  rw [matching_long, run] at h
  have hdrop {n : ℕ} (hn : n < (((List.range 5001).map longEntry).drop (t * 1250)).length) :
      (((List.range 5001).map longEntry).drop (t * 1250))[n] = longEntry (t * 1250 + n) := by
    rw [List.getElem_drop, List.getElem_map, List.getElem_range]
  -- the last chunk runs to the end of the table, the others have 1250 entries
  split at h
  · obtain ⟨n, hn, rfl⟩ := List.mem_iff_getElem.mp h
    have hn' := hn
    rw [List.length_drop, List.length_map, List.length_range] at hn'
    exact ⟨t * 1250 + n, by omega, by omega, by omega, hdrop hn⟩
  · obtain ⟨n, hn, rfl⟩ := List.mem_iff_getElem.mp h
    rw [List.getElem_take]
    have hn' := hn
    rw [List.length_take, List.length_drop, List.length_map, List.length_range] at hn'
    exact ⟨t * 1250 + n, by omega, by omega, by omega, hdrop _⟩

/-- The larger score that was carried along goes first. -/
theorem asStored_of_gt {x y : Carried ℚ} (h : y.carried < x.carried) : asStored x y = true :=
  decide_eq_true (.inl h)

/-- The smaller one does not. -/
theorem asStored_of_lt {x y : Carried ℚ} (h : x.carried < y.carried) : asStored x y = false := by
  apply decide_eq_false
  intro hlt
  rcases hlt with hlt | ⟨heq, -⟩
  · exact lt_asymm h hlt
  · exact h.ne heq

/-- Run `t` of level `j` of the long request. -/
def longRun (j t : ℕ) : List (Carried ℚ) :=
  childRuns asStored (matching longMovies longRequest) 1250 4 j t

/-- The first level stores the scores of the entries. -/
theorem mem_longRun {t : ℕ} {c : Carried ℚ} (h : c ∈ longRun 0 t) :
    ∃ i, t * 1250 ≤ i ∧ i < 5001 ∧ (t < 3 → i < (t + 1) * 1250) ∧ c.entry = longEntry i ∧
      c.carried = longScore i := by
  obtain ⟨e, he, rfl⟩ := List.mem_map.mp h
  obtain ⟨i, hi1, hi2, hi3, rfl⟩ := mem_run_long ((plainSort_perm _).mem_iff.mp he)
  exact ⟨i, hi1, hi2, hi3, rfl, rfl⟩

/-- There is something to merge on every level. -/
theorem longRun_ne_nil (j t : ℕ) (hj : j ≤ 2) (ht : t < 2 ^ (2 - j)) : longRun j t ≠ [] := by
  have hc : 2 ^ (2 - j) * 2 ^ j = 4 := by
    rw [← pow_add, Nat.sub_add_cancel hj]
    rfl
  have hmul : 2 ^ (2 - j) * (2 ^ j * 1250) = 5000 := by
    rw [← Nat.mul_assoc, hc]
  apply List.ne_nil_of_length_pos
  rw [longRun, length_childRuns hc, Runs.length_run (by rw [hmul, matching_long]; simp) ht]
  have hpos := Nat.two_pow_pos j
  have hlt : t * (2 ^ j * 1250) < 5001 := by
    have := Nat.mul_le_mul_right (2 ^ j * 1250) ht.le
    omega
  rw [matching_long, List.length_map, List.length_range]
  split <;> omega

/-- The scores of the first chunk are small. -/
theorem longScore_first_lt {i : ℕ} (hi : i < 1250) : longScore i < 1 := by
  have hzero : (0 : ℚ) < 1 := by norm_num
  have hfourth : (4 / 5 : ℚ) < 1 := by norm_num
  unfold longScore
  split_ifs
  exacts [hfourth, hzero]

/-- Those of the second chunk are all `1`. -/
theorem longScore_second {k : ℕ} (hk : 1250 ≤ k) (hk' : k < 2500) : longScore k = 1 := by
  rw [longScore, if_neg (by omega), if_neg (by omega), if_pos hk']

/-- Those of the other chunks are all `3 / 5`. -/
theorem longScore_rest {k : ℕ} (hk : 2500 ≤ k) : longScore k = 3 / 5 := by
  rw [longScore, if_neg (by omega), if_neg (by omega), if_neg (by omega)]

/-- The first chunk is a rest as a whole: all of it comes after the second one. -/
theorem longRun_first : longRun 1 0 = longRun 0 1 ++ carry (longRun 0 0) := by
  have hheads : mergeHeads asStored (longRun 0 0) (longRun 0 1) =
      ⟨longRun 0 1, longRun 0 0, []⟩ := by
    refine mergeHeads_right_first (fun x hx y hy => asStored_of_lt ?_)
      (longRun_ne_nil 0 0 (by omega) (by omega))
    obtain ⟨i, -, -, hi, -, hxi⟩ := mem_longRun hx
    obtain ⟨k, hk1, -, hk2, -, hyk⟩ := mem_longRun hy
    rw [hxi, hyk, longScore_second (by omega) (hk2 (by omega))]
    exact longScore_first_lt (hi (by omega))
  show childMerge asStored (longRun 0 0) (longRun 0 1) = _
  rw [childMerge, hheads, List.append_nil]

/-- The title with score `4 / 5` is in the first chunk. -/
theorem le_carried_head : ∀ x ∈ (longRun 0 0).head?, (4 / 5 : ℚ) ≤ x.carried := by
  intro x hx
  have hmem : longEntry 0 ∈ plainSort (run (matching longMovies longRequest) 1250 4 0) := by
    apply (plainSort_perm _).mem_iff.mpr
    rw [matching_long, run, if_neg (by omega), Nat.zero_mul, List.drop_zero, ← List.map_take,
      List.take_range]
    exact List.mem_map_of_mem (List.mem_range.mpr (by norm_num))
  have hsorted := plainSort_sorted (run (matching longMovies longRequest) 1250 4 0)
  rw [longRun, childRuns, List.head?_map] at hx
  -- the head of a sorted run is at least as high as the entry with score 4/5
  cases hrun : plainSort (run (matching longMovies longRequest) 1250 4 0) with
  | nil =>
    rw [hrun] at hx
    cases hx
  | cons e rest =>
    rw [hrun] at hx hmem hsorted
    cases hx
    rcases List.mem_cons.mp hmem with heq | hrest
    · exact (congrArg Entry.score heq).le
    · exact Entry.score_le (List.rel_of_pairwise_cons hsorted hrest)

/-- After the first merge, every title on the left carries at least `4 / 5`. -/
theorem le_carried_first : ∀ x ∈ longRun 1 0, (4 / 5 : ℚ) ≤ x.carried := by
  intro x hx
  rw [longRun_first] at hx
  -- the second chunk keeps its own scores, and all of the first one gets the score of its head
  rcases List.mem_append.mp hx with hx | hx
  · obtain ⟨k, hk1, -, hk2, -, hxk⟩ := mem_longRun hx
    have hfourth : (4 / 5 : ℚ) ≤ 1 := by norm_num
    rw [hxk, longScore_second (by omega) (hk2 (by omega))]
    exact hfourth
  · have hhead := le_carried_head
    cases hrun : longRun 0 0 with
    | nil =>
      rw [hrun] at hx
      cases hx
    | cons c rest =>
      rw [hrun] at hx hhead
      obtain ⟨c', -, rfl⟩ := List.mem_map.mp hx
      exact hhead c rfl

/-- On the right, every title carries `3 / 5`. -/
theorem carried_rest : ∀ y ∈ longRun 1 1, y.carried = 3 / 5 := by
  intro y hy
  obtain ⟨y', hy', hcarried⟩ := carried_childMerge hy
  rw [← hcarried]
  rcases List.mem_append.mp hy' with hy' | hy'
  · obtain ⟨i, hi, -, -, -, hyi⟩ := mem_longRun hy'
    rw [hyi, longScore_rest (by omega)]
  · obtain ⟨i, hi, -, -, -, hyi⟩ := mem_longRun hy'
    rw [hyi, longScore_rest (by omega)]

/-- The second child of the last merge compares `3 / 5` with scores that are all larger: the titles
    with score zero have been stored with `4 / 5`. -/
theorem lastRun_long :
    lastRun asStored longMovies longRequest = longRun 1 0 ++ longRun 1 1 := by
  obtain ⟨-, hbase, hsize⟩ := cal_long
  have hlast : lastRun asStored longMovies longRequest =
      childMerge asStored (longRun 1 0) (longRun 1 1) := by
    rw [lastRun, hbase, hsize]
    rfl
  have hheads : mergeHeads asStored (longRun 1 0) (longRun 1 1) = ⟨longRun 1 0, [], longRun 1 1⟩ := by
    refine mergeHeads_left_first (fun x hx y hy => asStored_of_gt ?_)
      (longRun_ne_nil 1 1 (by omega) (by omega))
    have hthird : (3 / 5 : ℚ) < 4 / 5 := by norm_num
    rw [carried_rest y hy]
    exact lt_of_lt_of_le hthird (le_carried_first x hx)
  rw [hlast, childMerge, hheads]
  rfl

/-- An order of the threads for the long request. -/
def longOrders : Orders :=
  ⟨[0], [(0, 2), (0, 0), (0, 3), (0, 1)], [(0, ⟨2, 1250, 2⟩), (0, ⟨1, 1250, 2⟩), (0, ⟨1, 2500, 1⟩)]⟩

/-- No title of the first chunk is one of the third or fourth. -/
theorem longTitle_lt {i k : ℕ} (hi : i < 1250) (hk : 2500 ≤ k) (hk' : k < 5001) :
    longTitle i ≠ longTitle k := by
  intro heq
  have hbyte := congrArg UInt8.toNat (List.cons.inj heq).1
  simp only [UInt8.toNat_ofNat'] at hbyte
  omega

/-- The long table is a valid input. -/
theorem validInput_long : ValidInput longMovies [longRequest] := by
  refine ⟨?_, ?_, ?_⟩
  · intro m hm
    obtain ⟨i, hi, rfl⟩ := List.mem_map.mp hm
    have hi' : i < 5001 := List.mem_range.mp hi
    refine ⟨?_, show 3 < 0xff by omega⟩
    intro c hc
    simp only [longTitle, List.mem_cons, List.not_mem_nil, or_false] at hc
    rw [UInt8.le_iff_toNat_le]
    rcases hc with rfl | rfl | rfl <;> simp only [UInt8.toNat_ofNat', UInt8.toNat_ofNat] <;> omega
  · intro r hr m hm _
    obtain rfl := List.mem_singleton.mp hr
    obtain ⟨i, -, rfl⟩ := List.mem_map.mp hm
    rw [rate_longRequest]
    have h1 : (0 : ℚ) ≤ 4 / 5 := by norm_num
    have h2 : (0 : ℚ) ≤ 0 := le_rfl
    have h3 : (0 : ℚ) ≤ 1 := by norm_num
    have h4 : (0 : ℚ) ≤ 3 / 5 := by norm_num
    -- every profile rates the request with 0, 3/5, 4/5 or 1
    unfold longProfile
    split_ifs
    exacts [h1, h2, h3, h4]
  · intro r hr
    obtain rfl := List.mem_singleton.mp hr
    exact ⟨_, List.mem_map_of_mem (List.mem_range.mpr (show 0 < 5001 by omega)), rfl⟩

/-- Its titles are short, also with the suffix. -/
theorem fits_long : Fits (matching longMovies longRequest) := by
  intro e he
  rw [matching_long] at he
  obtain ⟨i, -, rfl⟩ := List.mem_map.mp he
  rw [List.length_append]
  show 3 + secretKey.length < 0xff
  decide

/-- The last line of the process build is one of the last two chunks. -/
theorem longRun_last : ∃ ys y k, longRun 1 1 = ys ++ [y] ∧ 2500 ≤ k ∧ k < 5001 ∧
    y.entry = longEntry k := by
  rcases List.eq_nil_or_concat (longRun 1 1) with hnil | ⟨ys, y, hys⟩
  · exact absurd hnil (longRun_ne_nil 1 1 (by omega) (by omega))
  · rw [List.concat_eq_append] at hys
    have hmem : y.entry ∈ (longRun 1 1).map Carried.entry := by
      rw [hys]
      exact List.mem_map_of_mem (by simp)
    have hmem' := (childMerge_perm asStored (longRun 0 2) (longRun 0 3)).subset hmem
    rw [← List.map_append] at hmem'
    obtain ⟨y', hy', hentry⟩ := List.mem_map.mp hmem'
    rcases List.mem_append.mp hy' with hy' | hy'
    · obtain ⟨k, hk1, hk2, -, hk, -⟩ := mem_longRun hy'
      exact ⟨ys, y, k, hys, by omega, hk2, by rw [← hentry, hk]⟩
    · obtain ⟨k, hk1, hk2, -, hk, -⟩ := mem_longRun hy'
      exact ⟨ys, y, k, hys, by omega, hk2, by rw [← hentry, hk]⟩

/-- The last line of the plain sort has score zero. -/
theorem plainSort_last :
    ∃ es i, plainSort (matching longMovies longRequest) = es ++ [longEntry i] ∧ i < 1250 := by
  have hmem (x : Entry ℚ) : x ∈ plainSort (matching longMovies longRequest) ↔
      x ∈ (List.range 5001).map longEntry := by
    rw [← matching_long]
    exact (plainSort_perm _).mem_iff
  -- the title numbered 1 has score zero, so that no title behind it has more
  have hone := (hmem (longEntry 1)).mpr
    (List.mem_map_of_mem (List.mem_range.mpr (show 1 < 5001 by omega)))
  have hsorted := plainSort_sorted (matching longMovies longRequest)
  rcases List.eq_nil_or_concat (plainSort (matching longMovies longRequest)) with
    hnil | ⟨es, e, hes⟩
  · rw [hnil] at hone
    cases hone
  · rw [List.concat_eq_append] at hes
    rw [hes] at hone hsorted
    obtain ⟨i, -, rfl⟩ := List.mem_map.mp ((hmem e).mp (by rw [hes]; simp))
    have hle : longScore i ≤ longScore 1 := by
      rcases List.mem_append.mp hone with hone | hone
      · exact Entry.score_le ((List.pairwise_append.mp hsorted).2.2 _ hone (longEntry i) (by simp))
      · exact (congrArg Entry.score (List.mem_singleton.mp hone)).ge
    refine ⟨es, i, hes, ?_⟩
    by_contra hi
    have hpos : (0 : ℚ) < longScore i := by
      rw [longScore, if_neg (by omega), if_neg hi]
      split_ifs <;> norm_num
    exact absurd hpos (not_lt.mpr hle)

/-- **Where the builds differ.**  The process build writes a title of score `3 / 5` last, after
    1249 titles of score zero. -/
theorem process_differs :
    ValidInput longMovies [longRequest] ∧ Fits (matching longMovies longRequest) ∧
      ForkOrders longMovies longRequest [[0, 1, 2, 3], [0, 1], [0]] ∧
      longOrders.Valid longMovies [longRequest] ∧
      ¬ Agrees longMovies longRequest [[0, 1, 2, 3], [0, 1], [0]] [] longOrders := by
  obtain ⟨hcnt, hbase, hsize⟩ := cal_long
  have horders : ForkOrders longMovies longRequest [[0, 1, 2, 3], [0, 1], [0]] := by
    have htasks : forkTasks 4 = [[0, 1, 2, 3], [0, 1], [0]] := by
      simp [forkTasks, List.range_succ]
    rw [ForkOrders, hbase, htasks]
    exact List.forall₂_same.mpr fun _ _ => .refl _
  refine ⟨validInput_long, fits_long, horders, ⟨.refl _, by decide, ?_, by decide, ?_⟩, ?_⟩
  · intro n r hn
    cases n with
    | zero =>
      cases hn
      rw [hbase]
      decide
    | succ n => cases hn
  · intro n r hn
    cases n with
    | zero =>
      cases hn
      have hlevels : mergeLevels 1250 4 1 = [[⟨1, 1250, 2⟩, ⟨2, 1250, 2⟩], [⟨1, 2500, 1⟩]] := by
        simp [mergeLevels, List.range_succ]
      rw [hbase, hsize, hlevels]
      exact ⟨[[⟨2, 1250, 2⟩, ⟨1, 1250, 2⟩], [⟨1, 2500, 1⟩]],
        .cons (.swap _ _ _) (.cons (.refl _) .nil), rfl⟩
    | succ n => cases hn
  · rintro ⟨-, hlines, -⟩
    -- the last lines of the two builds are titles of different scores
    have hr : longRequest ∈ [longRequest] := by simp
    have hprocess := pserver_eq (validInput_long.matching_ne_nil hr) (validInput_long.entries hr)
      fits_long horders
    obtain ⟨ys, y, k, hys, hk1, hk2, hk⟩ := longRun_last
    obtain ⟨es, i, hes, hi⟩ := plainSort_last
    rw [hprocess, lastRun_long, plainLines] at hlines
    have hlast := congrArg List.getLast? (Except.ok.inj hlines)
    rw [hys, hes] at hlast
    simp only [List.map_append, List.map_cons, List.map_nil, ← List.append_assoc,
      List.getLast?_concat, hk] at hlast
    exact longTitle_lt hi hk1 hk2 (List.append_cancel_right (Option.some.inj hlast)).symm

end SystemProgramming.Movies
