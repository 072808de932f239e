import SystemProgramming.Movies.PlainSort
import SystemProgramming.Movies.Pserver

namespace SystemProgramming.Movies

open Program Runs

/-!
# Movie recommendation — what a merging child stores

A merging child of `pserver` compares heads as `truemerge` does, but with the rest of the left run it
stores the score of its first entry all along.

* `mergeChild_stores` — a merging child replaces two runs by `stored` of them;
* `stored_correct_iff` — when this is a sorted permutation of their entries;
* `mergeChild_correct_iff` — **the merge step keeps every title with its own score** exactly then.
-/

variable {α : Type}

/-- The rest of the left run as a merging child stores it: with the score of its first entry. -/
def dragged : List (Entry α) → List (Entry α)
  | [] => []
  | e :: rest => (e :: rest).map fun e' => { e' with score := e.score }

section Dragged

variable {es : List (Entry α)} {e : Entry α} {k : ℕ}

@[simp] theorem length_dragged : (dragged es).length = es.length := by
  cases es
  · rfl
  · exact List.length_map _

@[simp] theorem names_dragged : names (dragged es) = names es := by
  cases es
  · rfl
  · rw [names, dragged, List.map_map]
    rfl

theorem getElem_dragged (hk : k < es.length) :
    ∃ e ∈ es.head?, (dragged es)[k]? = some { es[k] with score := e.score } := by
  cases es with
  | nil => simp at hk
  | cons e rest =>
    refine ⟨e, rfl, ?_⟩
    rw [dragged, List.getElem?_map, List.getElem?_eq_getElem hk]
    rfl

end Dragged

variable [Score α] {es xs ys left right taken pre post : List (Entry α)} {d : Data α}

/-- What a merging child makes of two runs. -/
def stored (xs ys : List (Entry α)) : List (Entry α) :=
  (mergeHeads first xs ys).taken ++
    (dragged (mergeHeads first xs ys).left ++ (mergeHeads first xs ys).right)

theorem names_stored (xs ys : List (Entry α)) : names (stored xs ys) = names (mergeRuns xs ys) := by
  have hmerge := (mergeHeads_spec first xs ys).2.2.2
  change _ = mergeRuns xs ys at hmerge
  rw [← hmerge, stored]
  simp only [names_append, names_dragged]

@[simp] theorem length_stored : (stored xs ys).length = xs.length + ys.length := by
  have h := congrArg List.length (names_stored xs ys)
  simpa using h

omit [Score α] in
/-- The loop of a merging child over the rest `left` of the left run. -/
theorem appendLeft_eq {room l r : ℕ} (hsrc : ∀ k < left.length, es[l + k]? = left[k]?)
    (hroom : taken.length + left.length ≤ room) :
    forRange left.length (appendLeft (names es, scores es) room l)
        ⟨l, r, names taken, scores taken⟩ =
      .ok ⟨l, r, names (taken ++ dragged left), scores (taken ++ dragged left)⟩ := by
  have hlen : (dragged left).length = left.length := length_dragged
  have hloop := forRange_eq (n := left.length) (f := appendLeft (names es, scores es) room l)
    (s := ⟨l, r, names taken, scores taken⟩)
    (fun k => ⟨l, r, names (taken ++ (dragged left).take k),
      scores (taken ++ (dragged left).take k)⟩) (by simp) fun k hk => by
      obtain ⟨e, he, hslot⟩ := getElem_dragged hk
      have hname : es[l + k]? = some left[k] := by
        rw [hsrc k hk, List.getElem?_eq_getElem hk]
      -- the score index stays at the first of the rest
      have hscore : es[l]? = some e := by
        have h0 := hsrc 0 (by omega)
        rwa [Nat.add_zero, ← List.head?_eq_getElem?, he] at h0
      have hlt : taken.length + k < room := by omega
      have htake : ((dragged left).take k).length = k := by
        rw [List.length_take]
        omega
      simp only [appendLeft, loadAt_names hname, loadAt_scores hscore, bind, Except.bind,
        Merging.push, length_names, List.length_append, htake, if_pos hlt]
      rw [List.take_add_one, hslot]
      simp only [names_append, scores_append, List.append_assoc]
      rfl
  rw [hloop, List.take_of_length_le (by omega)]

omit [Score α] in
/-- Private arrays are copied over a range of their length. -/
theorem copyBack_eq {a old c new : List (Entry α)} (h : new.length = old.length)
    (hfit : ∀ e ∈ new, e.name.length < 0xff) :
    forRange new.length (copyBack (names new) (scores new) a.length)
        (names (a ++ (old ++ c)), scores (a ++ (old ++ c))) =
      .ok (names (a ++ (new ++ c)), scores (a ++ (new ++ c))) := by
  apply writeLoop_eq h
  intro i hi
  have hget : new[i]? = some new[i] := List.getElem?_eq_getElem hi
  have hshort : new[i].name.length < 0xff := hfit _ (List.getElem_mem hi)
  simp only [copyBack, loadAt_names hget, loadAt_scores hget, bind, Except.bind, copyPair,
    if_pos hshort]

/-- A merging child after its comparison loop: `taken` has been taken from the fronts `xs` and `ys`
    of the two runs, and `left` and `right` are left of them. -/
theorem mergeChild_of_loop {base size i r : ℕ} (hpre : pre.length = size * i)
    (hmid : xs.length + left.length = size / 2) (htaken : taken.length = xs.length + ys.length)
    (hroom : xs.length + left.length + ys.length ≤ size + d.left)
    (hfit : ∀ e ∈ taken ++ dragged left, e.name.length < 0xff)
    (hes : es = pre ++ (xs ++ left ++ (ys ++ right ++ post)))
    (hloop : ∀ stop, stop = (if i + 1 = base then size * (i + 1) + d.left else size * (i + 1)) →
      mergeLoop (names es) (scores es) (size + d.left) (pre.length + size / 2) stop
        ((pre.length + size / 2 - pre.length) + (stop - (pre.length + size / 2)) + 1)
        ⟨pre.length, pre.length + size / 2, [], []⟩ =
      .ok ⟨pre.length + xs.length, r, names taken, scores taken⟩) :
    mergeChild d base size (names es, scores es) i =
      .ok (names (pre ++ (taken ++ (dragged left ++ right) ++ post)),
        scores (pre ++ (taken ++ (dragged left ++ right) ++ post))) := by
  have hrest : pre.length + size / 2 - (pre.length + xs.length) = left.length := by omega
  have happend := @appendLeft_eq _ es left taken (size + d.left) (pre.length + xs.length) r
    (fun k hk => by
      have hk' : pre.length + xs.length + k - pre.length - xs.length = k := by omega
      rw [hes, List.append_assoc, List.getElem?_append_right (by omega),
        List.getElem?_append_right (by omega), hk', List.getElem?_append_left hk])
    (by omega)
  have hsplit : es = pre ++ (xs ++ left ++ ys ++ (right ++ post)) := by
    rw [hes]
    simp only [List.append_assoc]
  -- the rest of the right run is in place and is not copied
  have hcopy := @copyBack_eq _ pre (xs ++ left ++ ys) (right ++ post) (taken ++ dragged left)
    (by simp; omega) hfit
  rw [← hsplit] at hcopy
  have hdone : pre ++ (taken ++ (dragged left ++ right) ++ post) =
      pre ++ (taken ++ dragged left ++ (right ++ post)) := by
    simp only [List.append_assoc]
  unfold mergeChild
  simp only [← hpre]
  show (mergeLoop _ _ _ _ _ _ _).bind _ = _
  rw [hloop _ rfl]
  show (forRange (pre.length + size / 2 - (pre.length + xs.length)) _ _).bind _ = _
  rw [hrest, happend]
  show forRange (names _).length _ _ = _
  rw [length_names, hcopy, hdone]

/-- **A merging child** replaces the two runs `xs` and `ys` by `stored` of them. -/
theorem mergeChild_stores {base size i : ℕ} (hpre : pre.length = size * i)
    (hxs : xs.length = size / 2)
    (hstop : (if i + 1 = base then size * (i + 1) + d.left else size * (i + 1)) =
      pre.length + size / 2 + ys.length)
    (hroom : xs.length + ys.length ≤ size + d.left)
    (hfit : ∀ e ∈ xs ++ ys, e.name.length < 0xff) :
    mergeChild d base size
        (names (pre ++ (xs ++ (ys ++ post))), scores (pre ++ (xs ++ (ys ++ post)))) i =
      .ok (names (pre ++ (stored xs ys ++ post)), scores (pre ++ (stored xs ys ++ post))) := by
  have hget1 (k : ℕ) (hk : k < xs.length) :
      (pre ++ (xs ++ (ys ++ post)))[pre.length + k]? = xs[k]? := by
    rw [List.getElem?_append_right (by omega), Nat.add_sub_cancel_left,
      List.getElem?_append_left hk]
  have hget2 (k : ℕ) (hk : k < ys.length) :
      (pre ++ (xs ++ (ys ++ post)))[pre.length + size / 2 + k]? = ys[k]? := by
    have hk' : pre.length + size / 2 + k - pre.length - xs.length = k := by omega
    rw [List.getElem?_append_right (by omega), List.getElem?_append_right (by omega), hk',
      List.getElem?_append_left hk]
  obtain ⟨-, ⟨xs', hxs'⟩, ⟨ys', hys'⟩, -⟩ := mergeHeads_spec first xs ys
  have hlenX := congrArg List.length hxs'
  have hlenY := congrArg List.length hys'
  have hlen : (stored xs ys).length = xs.length + ys.length := length_stored
  simp only [stored, List.length_append, length_dragged] at hlenX hlenY hlen
  -- `xs'` and `ys'` are what the comparison loop has used up
  refine @mergeChild_of_loop _ _ _ xs' ys' (mergeHeads first xs ys).left
    (mergeHeads first xs ys).right (mergeHeads first xs ys).taken pre post d base size i
    (pre.length + size / 2 + ys.length - (mergeHeads first xs ys).right.length) hpre (by omega)
    (by omega) (by omega) ?_ (by rw [hxs', hys']) ?_
  · intro e he
    have hname : e.name ∈ names (stored xs ys) := by
      apply List.mem_map_of_mem
      rw [stored, ← List.append_assoc]
      exact List.mem_append_left _ he
    rw [names_stored] at hname
    obtain ⟨e', he', heq⟩ := List.mem_map.mp hname
    rw [← heq]
    exact hfit e' ((mergeRuns_perm xs ys).subset he')
  · intro stop hstop'
    rw [hstop] at hstop'
    subst hstop'
    have hloop := @mergeLoop_eq _ _ (pre ++ (xs ++ (ys ++ post))) xs ys [] (size + d.left)
      (pre.length + size / 2) (pre.length + size / 2 + ys.length) pre.length (pre.length + size / 2)
      ((pre.length + size / 2 - pre.length) +
        (pre.length + size / 2 + ys.length - (pre.length + size / 2)) + 1)
      (by omega) (by omega) rfl hget1 hget2 (by simp only [List.length_nil]; omega)
    have hl : pre.length + size / 2 - (mergeHeads first xs ys).left.length =
        pre.length + xs'.length := by omega
    rw [hl] at hloop
    exact hloop

/-! ### When the scores are right -/

/-- The entries of the left run that come after the whole right run have one score. -/
def OneScore (xs ys : List (Entry α)) : Prop :=
  ∀ x ∈ xs, ∀ x' ∈ xs, (∀ y ∈ ys, ¬ x < y) → (∀ y ∈ ys, ¬ x' < y) → x.score = x'.score

omit [Score α] in
/-- Entries of one score keep it. -/
theorem dragged_eq_self (h : ∀ e ∈ es, ∀ e' ∈ es, e.score = e'.score) : dragged es = es := by
  cases es with
  | nil => rfl
  | cons e rest =>
    refine (List.map_congr_left fun e' he' => ?_).trans (List.map_id _)
    rw [h e List.mem_cons_self e' he']
    rfl

omit [Score α] in
/-- Entries that keep their scores have one score. -/
theorem oneScore_of_dragged_perm (h : (dragged es).Perm es) :
    ∀ e ∈ es, ∀ e' ∈ es, e.score = e'.score := by
  cases es with
  | nil => simp
  | cons e₀ rest =>
    have hhead (e : Entry α) (he : e ∈ e₀ :: rest) : e.score = e₀.score := by
      obtain ⟨e', -, rfl⟩ := List.mem_map.mp (h.mem_iff.mpr he)
      rfl
    intro e he e' he'
    rw [hhead e he, hhead e' he']

/-- **What a merging child stores is right** exactly if no two different scores are left over. -/
theorem stored_correct_iff (hx : xs.Pairwise (· ≤ ·)) (hy : ys.Pairwise (· ≤ ·)) :
    (stored xs ys).Perm (xs ++ ys) ∧ (stored xs ys).Pairwise (· ≤ ·) ↔ OneScore xs ys := by
  have hmerge := (mergeHeads_spec first xs ys).2.2.2
  change _ = mergeRuns xs ys at hmerge
  have hmem (x : Entry α) :
      x ∈ (mergeHeads first xs ys).left ↔ x ∈ xs ∧ ∀ y ∈ ys, ¬ x < y := mem_mergeHeads_left hx
  constructor
  · -- a permutation keeps the scores of the rest, which all became the first one
    rintro ⟨hperm, -⟩
    have hall := hperm.trans (mergeRuns_perm xs ys).symm
    rw [← hmerge, stored, List.perm_append_left_iff, List.perm_append_right_iff] at hall
    have hone := oneScore_of_dragged_perm hall
    exact fun x hxs x' hxs' h h' => hone x ((hmem x).mpr ⟨hxs, h⟩) x' ((hmem x').mpr ⟨hxs', h'⟩)
  · intro hone
    have hkeep : dragged (mergeHeads first xs ys).left = (mergeHeads first xs ys).left := by
      apply dragged_eq_self
      intro e he e' he'
      obtain ⟨hxs, h⟩ := (hmem e).mp he
      obtain ⟨hxs', h'⟩ := (hmem e').mp he'
      exact hone e hxs e' hxs' h h'
    rw [stored, hkeep, hmerge]
    exact ⟨mergeRuns_perm xs ys, mergeRuns_sorted hx hy⟩

omit [Score α] in
/-- The two columns determine the entries. -/
theorem columns_inj {es fs : List (Entry α)} (hnames : names es = names fs)
    (hscores : scores es = scores fs) : es = fs := by
  induction es generalizing fs with
  | nil => exact (List.map_eq_nil_iff.mp hnames.symm).symm
  | cons e es ih =>
    cases fs with
    | nil => cases hnames
    | cons f fs =>
      obtain ⟨hname, hnames⟩ := List.cons.inj hnames
      obtain ⟨hscore, hscores⟩ := List.cons.inj hscores
      rw [Entry.ext hname hscore, ih hnames hscores]

/-- The arrays that a merging child leaves behind hold a sorted permutation of the two runs `xs` and
    `ys` between `pre` and `post`. -/
def MergesRuns (d : Data α) (base size i : ℕ) (pre xs ys post : List (Entry α)) : Prop :=
  ∃ zs : List (Entry α), zs.Perm (xs ++ ys) ∧ zs.Pairwise (· ≤ ·) ∧
    mergeChild d base size
        (names (pre ++ (xs ++ (ys ++ post))), scores (pre ++ (xs ++ (ys ++ post)))) i =
      .ok (names (pre ++ (zs ++ post)), scores (pre ++ (zs ++ post)))

/-- **The merge step keeps every title with its own score** exactly if the entries of the left run
    that come after the whole right run have one score. -/
theorem mergeChild_correct_iff (d : Data α) (pre xs ys post : List (Entry α)) {base size i : ℕ}
    (hpre : pre.length = size * i) (hxs : xs.length = size / 2)
    (hstop : (if i + 1 = base then size * (i + 1) + d.left else size * (i + 1)) =
      pre.length + size / 2 + ys.length)
    (hfit : ∀ e ∈ xs ++ ys, e.name.length < 0xff) (hx : xs.Pairwise (· ≤ ·))
    (hy : ys.Pairwise (· ≤ ·)) :
    MergesRuns d base size i pre xs ys post ↔ OneScore xs ys := by
  -- the temporary arrays of the child have `size + left` entries
  have hroom : xs.length + ys.length ≤ size + d.left := by
    rw [Nat.mul_succ] at hstop
    split at hstop <;> omega
  have hstores := @mergeChild_stores _ _ xs ys pre post d base size i hpre hxs hstop hroom hfit
  rw [← stored_correct_iff hx hy]
  constructor
  · -- what the child stores is known, so another sorted list of the same entries must be equal to
    -- it
    rintro ⟨zs, hperm, hsorted, hzs⟩
    rw [hstores] at hzs
    obtain ⟨hnames, hscores⟩ := Prod.mk.inj (Except.ok.inj hzs)
    have heq := List.append_cancel_right (List.append_cancel_left (columns_inj hnames hscores))
    rw [heq]
    exact ⟨hperm, hsorted⟩
  · rintro ⟨hperm, hsorted⟩
    exact ⟨stored xs ys, hperm, hsorted, hstores⟩

/-- Two runs of two titles. -/
def fourTitles (a b : ℤ) : Data ℤ :=
  { moviename := names [⟨[65], a⟩, ⟨[66], b⟩, ⟨[67], 5⟩, ⟨[68], 4⟩]
    moviescore := scores [⟨[65], a⟩, ⟨[66], b⟩, ⟨[67], 5⟩, ⟨[68], 4⟩]
    cnt := 4
    base := 2
    size := 2
    left := 0 }

/-- When equal scores are left over, nothing goes wrong. -/
theorem mergeChild_correct_iff_equal :
    MergesRuns (fourTitles 3 3) 1 4 0 [] [⟨[65], 3⟩, ⟨[66], 3⟩] [⟨[67], 5⟩, ⟨[68], 4⟩] [] :=
  (mergeChild_correct_iff (fourTitles 3 3) [] [⟨[65], 3⟩, ⟨[66], 3⟩] [⟨[67], 5⟩, ⟨[68], 4⟩] []
    rfl rfl rfl (by decide) (by decide) (by decide)).mpr (by simp [OneScore])

/-- The second of two titles that are left over gets the score of the first one. -/
theorem mergeChild_wrong_score :
    ¬ MergesRuns (fourTitles 3 2) 1 4 0 [] [⟨[65], 3⟩, ⟨[66], 2⟩] [⟨[67], 5⟩, ⟨[68], 4⟩] [] := by
  rintro ⟨zs, hperm, hsorted, hzs⟩
  have hstores := @mergeChild_stores _ _ [⟨[65], 3⟩, ⟨[66], 2⟩] [⟨[67], 5⟩, ⟨[68], 4⟩] [] []
    (fourTitles 3 2) 1 4 0 rfl rfl rfl (by decide) (by decide)
  rw [hstores] at hzs
  obtain ⟨hnames, hscores⟩ := Prod.mk.inj (Except.ok.inj hzs)
  have heq := List.append_cancel_right (List.append_cancel_left (columns_inj hnames hscores))
  subst heq
  have hone := (stored_correct_iff (by decide) (by decide)).mp ⟨hperm, hsorted⟩
  have hscore := hone ⟨[65], 3⟩ (by simp) ⟨[66], 2⟩ (by simp) (by decide) (by decide)
  exact absurd hscore (by decide)

end SystemProgramming.Movies
