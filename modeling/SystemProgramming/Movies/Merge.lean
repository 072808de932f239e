import SystemProgramming.Movies.ChunkSort

namespace SystemProgramming.Movies

open Program Runs

/-!
# Movie recommendation — `truemerge`

The merge of two neighbouring runs in the two arrays of a request: the comparison loop, which also
the process build has, and the two loops with which `truemerge` writes its result back in place.

* `mergeLoop_eq` — the comparison loop yields a front of the merge of the two runs and stops when
  one run is used up;
* `writeLoop_eq` — copying a list over a range of the same length;
* `truemerge_eq` — **`truemerge` merges**: the two runs are replaced by their merge.
-/

variable {α : Type} [Score α]

/-- The state of the comparison loop: the two heads and what has been taken (`newname` and
    `newscore`, whose length is the variable `c`). -/
structure Merging (α : Type) where
  l : ℕ
  r : ℕ
  newname : List CString
  newscore : List α

/-- `newname[c] = name; newscore[c] = score; c += 1;` in temporaries of length `room`. -/
def Merging.push (room : ℕ) (m : Merging α) (name : CString) (score : α) :
    Except Fault (Merging α) :=
  if m.newname.length < room then
    .ok { m with newname := m.newname ++ [name], newscore := m.newscore ++ [score] }
  else
    .error .index

/-- Take the head of the left run. -/
def Merging.takeLeft (movies : List CString) (pts : List α) (room : ℕ) (m : Merging α) :
    Except Fault (Merging α) := do
  let name ← loadAt movies m.l
  let score ← loadAt pts m.l
  let m' ← m.push room name score
  .ok { m' with l := m.l + 1 }

/-- Take the head of the right run. -/
def Merging.takeRight (movies : List CString) (pts : List α) (room : ℕ) (m : Merging α) :
    Except Fault (Merging α) := do
  let name ← loadAt movies m.r
  let score ← loadAt pts m.r
  let m' ← m.push room name score
  .ok { m' with r := m.r + 1 }

/-- One comparison of the heads: by score, and with equal scores by name. -/
def mergeStep (movies : List CString) (pts : List α) (room : ℕ) (m : Merging α) :
    Except Fault (Merging α) := do
  let p ← loadAt pts m.l
  let p' ← loadAt pts m.r
  if p > p' then
    m.takeLeft movies pts room
  else if p < p' then
    m.takeRight movies pts room
  else
    let a ← loadAt movies m.l
    let b ← loadAt movies m.r
    if strcmp a b = .lt then m.takeLeft movies pts room else m.takeRight movies pts room

/-- `while (l < mid && r < end)`; the first argument bounds the number of iterations. -/
def mergeLoop (movies : List CString) (pts : List α) (room mid stop : ℕ) :
    ℕ → Merging α → Except Fault (Merging α)
  | 0, _ => .error .fuel
  | fuel + 1, m =>
    if m.l < mid ∧ m.r < stop then
      (mergeStep movies pts room m).bind (mergeLoop movies pts room mid stop fuel)
    else
      .ok m

/-- `movies[p] = name; pts[p] = score;` -/
def storePair (arrays : List CString × List α) (p : ℕ) (name : CString) (score : α) :
    Except Fault (List CString × List α) := do
  let movies ← storeAt arrays.1 p name
  let pts ← storeAt arrays.2 p score
  .ok (movies, pts)

/-- One iteration of the loop over the rest `[l, mid)` of the left run: element `j = l + k` moves
    to the end of the right run. -/
def keepLeft (mid stop l : ℕ) (arrays : List CString × List α) (k : ℕ) :
    Except Fault (List CString × List α) := do
  let name ← loadAt arrays.1 (l + k)
  let score ← loadAt arrays.2 (l + k)
  storePair arrays (stop - (mid - (l + k))) name score

/-- One iteration of the loop that copies the temporaries back to `first` and after. -/
def writeBack (newname : List CString) (newscore : List α) (first : ℕ)
    (arrays : List CString × List α) (i : ℕ) : Except Fault (List CString × List α) := do
  let name ← loadAt newname i
  let score ← loadAt newscore i
  storePair arrays (first + i) name score

/-- `struct data`: the arrays of one request, and how they are cut into chunks. -/
structure Data (α : Type) where
  moviename : List CString
  moviescore : List α
  cnt : ℕ
  base : ℕ
  size : ℕ
  left : ℕ

/-- `struct send` without the number of the request: task `time` of `b`, on runs of length `mer`. -/
structure Send where
  time : ℕ
  mer : ℕ
  b : ℕ
  deriving DecidableEq, Repr

/-- `truemerge(arg)` -/
def truemerge (d : Data α) (temp : Send) : Except Fault (Data α) := do
  let s := temp.mer
  let t := temp.time - 1
  let l := 2 * s * t
  let mid := l + s
  let r := l + s
  let stop := if temp.time = temp.b then d.cnt else r + s
  let m ← mergeLoop d.moviename d.moviescore (2 * s + d.base) mid stop
    ((mid - l) + (stop - r) + 1) ⟨l, r, [], []⟩
  let arrays ← forRange (mid - m.l) (keepLeft mid stop m.l) (d.moviename, d.moviescore)
  let arrays ← forRange m.newname.length (writeBack m.newname m.newscore l) arrays
  .ok { d with moviename := arrays.1, moviescore := arrays.2 }

/-! ### The comparison loop -/

variable {es xs ys tmp : List (Entry α)} {x y : Entry α} {room mid stop l r : ℕ}

omit [Score α] in
theorem takeLeft_eq (hx : es[l]? = some x) (hroom : tmp.length < room) :
    Merging.takeLeft (names es) (scores es) room ⟨l, r, names tmp, scores tmp⟩ =
      .ok ⟨l + 1, r, names (tmp ++ [x]), scores (tmp ++ [x])⟩ := by
  simp only [Merging.takeLeft, loadAt_names hx, loadAt_scores hx, bind, Except.bind, Merging.push,
    length_names, if_pos hroom, names_append, scores_append]
  rfl

omit [Score α] in
theorem takeRight_eq (hy : es[r]? = some y) (hroom : tmp.length < room) :
    Merging.takeRight (names es) (scores es) room ⟨l, r, names tmp, scores tmp⟩ =
      .ok ⟨l, r + 1, names (tmp ++ [y]), scores (tmp ++ [y])⟩ := by
  simp only [Merging.takeRight, loadAt_names hy, loadAt_scores hy, bind, Except.bind, Merging.push,
    length_names, if_pos hroom, names_append, scores_append]
  rfl

/-- One comparison takes the left head exactly when it comes first. -/
theorem mergeStep_eq (hx : es[l]? = some x) (hy : es[r]? = some y) (hroom : tmp.length < room) :
    mergeStep (names es) (scores es) room ⟨l, r, names tmp, scores tmp⟩ =
      .ok (if x < y then ⟨l + 1, r, names (tmp ++ [x]), scores (tmp ++ [x])⟩
        else ⟨l, r + 1, names (tmp ++ [y]), scores (tmp ++ [y])⟩) := by
  simp only [mergeStep, loadAt_scores hx, loadAt_scores hy, loadAt_names hx, loadAt_names hy, bind,
    Except.bind, takeLeft_eq hx hroom, takeRight_eq hy hroom, Entry.lt_iff, Entry.Before]
  rcases lt_trichotomy x.score y.score with h | h | h
  · rw [if_neg h.not_gt, if_pos h, if_neg (by simp [h.not_gt, h.ne])]
  · simp only [h, gt_iff_lt, lt_irrefl, if_false, true_and, false_or]
    split <;> rfl
  · rw [if_pos h, if_pos (.inl h)]

/-- `x` is written before `y`, as a test. -/
def first (x y : Entry α) : Bool := decide (x < y)

/-- **The comparison loop** compares heads until one of the runs is used up. -/
theorem mergeLoop_eq {fuel : ℕ} (hfuel : xs.length + ys.length < fuel)
    (hmid : mid = l + xs.length) (hstop : stop = r + ys.length)
    (hxs : ∀ k < xs.length, es[l + k]? = xs[k]?) (hys : ∀ k < ys.length, es[r + k]? = ys[k]?)
    (hroom : tmp.length + xs.length + ys.length ≤ room) :
    mergeLoop (names es) (scores es) room mid stop fuel ⟨l, r, names tmp, scores tmp⟩ =
      .ok ⟨mid - (mergeHeads first xs ys).left.length,
        stop - (mergeHeads first xs ys).right.length,
        names (tmp ++ (mergeHeads first xs ys).taken),
        scores (tmp ++ (mergeHeads first xs ys).taken)⟩ := by
  induction fuel generalizing xs ys l r tmp with
  | zero => omega
  | succ fuel ih =>
    cases xs with
    | nil =>
      have hr : stop - ys.length = r := by omega
      rw [mergeLoop, if_neg (by simp [hmid]), mergeHeads_nil_left]
      simp [hmid, hr]
    | cons x xs =>
      cases ys with
      | nil =>
        have hl : mid - (x :: xs).length = l := by omega
        rw [mergeLoop, if_neg (by simp [hstop]), mergeHeads_nil_right, hl]
        simp [hstop]
      | cons y ys =>
        -- both runs have a head: one of them moves to the temporaries
        have hx : es[l]? = some x := hxs 0 (by simp)
        have hy : es[r]? = some y := hys 0 (by simp)
        have hxs' (k : ℕ) (hk : k < xs.length) : es[l + 1 + k]? = xs[k]? := by
          rw [Nat.add_right_comm, Nat.add_assoc]
          exact hxs (k + 1) (by simpa using hk)
        have hys' (k : ℕ) (hk : k < ys.length) : es[r + 1 + k]? = ys[k]? := by
          rw [Nat.add_right_comm, Nat.add_assoc]
          exact hys (k + 1) (by simpa using hk)
        have hone (z : Entry α) : (tmp ++ [z]).length = tmp.length + 1 := by simp
        simp only [List.length_cons] at hfuel hmid hstop hroom
        have hl : l < mid := by omega
        have hr : r < stop := by omega
        rw [mergeLoop, if_pos ⟨hl, hr⟩, mergeStep_eq hx hy (by omega), mergeHeads_cons]
        by_cases hlt : x < y
        · have hnext := @ih xs (y :: ys) (tmp ++ [x]) (l + 1) r
            (by rw [List.length_cons]; omega) (by omega) (by rw [List.length_cons]; omega) hxs' hys
            (by rw [hone, List.length_cons]; omega)
          rw [if_pos hlt, if_pos (show first x y = true by simp [first, hlt])]
          show mergeLoop _ _ _ _ _ _ _ = _
          rw [hnext, List.append_assoc]
          rfl
        · have hnext := @ih (x :: xs) ys (tmp ++ [y]) l (r + 1)
            (by rw [List.length_cons]; omega) (by rw [List.length_cons]; omega) (by omega) hxs hys'
            (by rw [hone, List.length_cons]; omega)
          rw [if_neg hlt, if_neg (show ¬ first x y = true by simp [first, hlt])]
          show mergeLoop _ _ _ _ _ _ _ = _
          rw [hnext, List.append_assoc]
          rfl

/-! ### Writing the result back -/

omit [Score α]

theorem storePair_eq {p : ℕ} (h : p < es.length) (x : Entry α) :
    storePair (names es, scores es) p x.name x.score =
      .ok (names (es.set p x), scores (es.set p x)) := by
  simp only [storePair, storeAt_names h, storeAt_scores h, bind, Except.bind]

/-- The arrays while `new` replaces `old` between `a` and `c`: `i` entries are written. -/
def replaced (a old c new : List (Entry α)) (i : ℕ) : List (Entry α) :=
  a ++ (new.take i ++ (old.drop i ++ c))

theorem replaced_zero (a old c new : List (Entry α)) :
    replaced a old c new 0 = a ++ (old ++ c) := by
  simp [replaced]

theorem replaced_length {a old c new : List (Entry α)} (h : new.length = old.length) :
    replaced a old c new new.length = a ++ (new ++ c) := by
  simp [replaced, h]

variable {a old c new : List (Entry α)} {i : ℕ}

/-- Writing the next entry. -/
theorem replaced_set (h : new.length = old.length) (hi : i < new.length) :
    (replaced a old c new i).set (a.length + i) new[i] = replaced a old c new (i + 1) := by
  have htake : (new.take i).length = i := by rw [List.length_take]; omega
  have hdrop : old.drop i = old[i] :: old.drop (i + 1) := List.drop_eq_getElem_cons (by omega)
  rw [replaced, List.set_append_right _ _ (by omega), List.set_append_right _ _ (by omega),
    Nat.add_sub_cancel_left, htake, Nat.sub_self, hdrop, List.cons_append, List.set_cons_zero,
    replaced, List.take_add_one, List.getElem?_eq_getElem hi, Option.toList_some,
    List.append_assoc]
  rfl

theorem length_replaced (h : new.length = old.length) (hi : i ≤ new.length) :
    (replaced a old c new i).length = a.length + (new.length + c.length) := by
  simp only [replaced, List.length_append, List.length_take, List.length_drop]
  omega

/-- A loop whose iterations write the entries of `new` one after the other replaces `old`. -/
theorem writeLoop_eq {f : List CString × List α → ℕ → Except Fault (List CString × List α)}
    (h : new.length = old.length)
    (hf : ∀ i (hi : i < new.length), f (names (replaced a old c new i),
        scores (replaced a old c new i)) i =
      storePair (names (replaced a old c new i), scores (replaced a old c new i)) (a.length + i)
        new[i].name new[i].score) :
    forRange new.length f (names (a ++ (old ++ c)), scores (a ++ (old ++ c))) =
      .ok (names (a ++ (new ++ c)), scores (a ++ (new ++ c))) := by
  -- after `i` rounds the first `i` entries are the new ones
  have key := forRange_eq (n := new.length) (f := f)
    (s := (names (a ++ (old ++ c)), scores (a ++ (old ++ c))))
    (fun i => (names (replaced a old c new i), scores (replaced a old c new i)))
    (by rw [replaced_zero]) fun i hi => by
      have hlt : a.length + i < (replaced a old c new i).length := by
        rw [length_replaced h (by omega)]
        omega
      rw [hf i hi, storePair_eq hlt, replaced_set h hi]
  rw [key, replaced_length h]

/-- The temporaries are copied over a range of their length. -/
theorem writeBack_eq (h : new.length = old.length) :
    forRange new.length (writeBack (names new) (scores new) a.length)
        (names (a ++ (old ++ c)), scores (a ++ (old ++ c))) =
      .ok (names (a ++ (new ++ c)), scores (a ++ (new ++ c))) := by
  apply writeLoop_eq h
  intro i hi
  have hget : new[i]? = some new[i] := List.getElem?_eq_getElem hi
  simp only [writeBack, loadAt_names hget, loadAt_scores hget, bind, Except.bind]

/-- The rest `left` of the left run is copied over the end of the right run: it is read from before
    the range that is written. -/
theorem keepLeft_eq {left : List (Entry α)} (h : left.length = old.length)
    (hsrc : ∀ k < left.length, a[l + k]? = left[k]?) (hmid : mid = l + left.length)
    (hstop : stop = a.length + left.length) :
    forRange left.length (keepLeft mid stop l) (names (a ++ (old ++ c)), scores (a ++ (old ++ c))) =
      .ok (names (a ++ (left ++ c)), scores (a ++ (left ++ c))) := by
  apply writeLoop_eq h
  intro k hk
  have hget : (replaced a old c left k)[l + k]? = some left[k] := by
    have hsome := hsrc k hk
    rw [List.getElem?_eq_getElem hk] at hsome
    have hlt := (List.getElem?_eq_some_iff.mp hsome).1
    rw [replaced, List.getElem?_append_left hlt, hsome]
  have hdst : stop - (mid - (l + k)) = a.length + k := by omega
  simp only [keepLeft, loadAt_names hget, loadAt_scores hget, bind, Except.bind, hdst]

/-- The two loops after the comparison loop: with `merged` taken from `xs` and `ys`, and one of
    `left` and `right` empty, the arrays get `merged`, `left` and `right` in this order. -/
theorem writeResult_eq {pre post merged left right : List (Entry α)}
    (hone : left = [] ∨ right = []) (hlen : merged.length = xs.length + ys.length)
    (hlong : xs.length + left.length ≤ ys.length + right.length)
    (hmid : mid = pre.length + (xs.length + left.length))
    (hstop : stop = mid + (ys.length + right.length)) :
    ∃ arrays,
      forRange left.length (keepLeft mid stop (mid - left.length))
          (names (pre ++ (xs ++ left ++ (ys ++ right ++ post))),
            scores (pre ++ (xs ++ left ++ (ys ++ right ++ post)))) = .ok arrays ∧
      forRange merged.length (writeBack (names merged) (scores merged) pre.length) arrays =
        .ok (names (pre ++ (merged ++ (left ++ right) ++ post)),
          scores (pre ++ (merged ++ (left ++ right) ++ post))) := by
  rcases hone with rfl | rfl
  · -- the left run is used up: the rest of the right run is in place
    have hes : pre ++ (xs ++ [] ++ (ys ++ right ++ post)) =
        pre ++ ((xs ++ ys) ++ (right ++ post)) := by simp
    have hwrite := writeBack_eq (a := pre) (c := right ++ post)
      (show merged.length = (xs ++ ys).length by rw [hlen, List.length_append])
    refine ⟨_, rfl, ?_⟩
    rw [hes, hwrite, List.nil_append, List.append_assoc]
  · -- the right run is used up: its last slots take the rest of the left run
    simp only [List.append_nil, List.length_nil, Nat.add_zero] at *
    obtain ⟨ys₁, ys₂, rfl, hys⟩ : ∃ ys₁ ys₂, ys = ys₁ ++ ys₂ ∧ left.length = ys₂.length :=
      ⟨ys.take (ys.length - left.length), ys.drop (ys.length - left.length),
        (List.take_append_drop _ _).symm, by rw [List.length_drop]; omega⟩
    have hes : pre ++ (xs ++ left ++ (ys₁ ++ ys₂ ++ post)) =
        (pre ++ (xs ++ (left ++ ys₁))) ++ (ys₂ ++ post) := by simp
    have hsrc (k : ℕ) (hk : k < left.length) :
        (pre ++ (xs ++ (left ++ ys₁)))[mid - left.length + k]? = left[k]? := by
      have hl : mid - left.length + k - pre.length - xs.length = k := by omega
      rw [List.getElem?_append_right (by omega), List.getElem?_append_right (by omega), hl,
        List.getElem?_append_left hk]
    have hend : stop = (pre ++ (xs ++ (left ++ ys₁))).length + left.length := by
      simp only [List.length_append] at hstop ⊢
      omega
    have hkeep : forRange left.length (keepLeft mid stop (mid - left.length))
        (names (pre ++ (xs ++ (left ++ ys₁)) ++ (ys₂ ++ post)),
          scores (pre ++ (xs ++ (left ++ ys₁)) ++ (ys₂ ++ post))) = _ :=
      keepLeft_eq hys hsrc (by omega) hend
    have hes' : pre ++ (xs ++ (left ++ ys₁)) ++ (left ++ post) =
        pre ++ ((xs ++ (left ++ ys₁)) ++ (left ++ post)) := by simp
    have hwrite := writeBack_eq (a := pre) (c := left ++ post)
      (show merged.length = (xs ++ (left ++ ys₁)).length by
        simp only [List.length_append] at hlen ⊢
        omega)
    refine ⟨_, by rw [hes, hkeep], ?_⟩
    rw [hes', hwrite, List.append_assoc]

variable [Score α]

/-- The three loops of `truemerge`, on a left run `xs` of length `s` and a right run `ys` that is at
    least as long: `merged` is taken, `left` is kept at the end, and `right` stays in place. -/
theorem truemerge_loops {pre post : List (Entry α)} {s : ℕ} (hxs : xs.length = s)
    (hlong : xs.length ≤ ys.length) (hroom : xs.length + ys.length ≤ room)
    (hes : es = pre ++ (xs ++ (ys ++ post))) :
    ∃ (merged left right : List (Entry α)) (arrays : List CString × List α),
      (left = [] ∨ right = []) ∧ left.length ≤ s ∧
      merged.length + (left.length + right.length) = s + ys.length ∧
      mergeLoop (names es) (scores es) room (pre.length + s) (pre.length + s + ys.length)
          ((pre.length + s - pre.length) + (pre.length + s + ys.length - (pre.length + s)) + 1)
          ⟨pre.length, pre.length + s, [], []⟩ =
        .ok ⟨pre.length + s - left.length, pre.length + s + ys.length - right.length, names merged,
          scores merged⟩ ∧
      forRange left.length (keepLeft (pre.length + s) (pre.length + s + ys.length)
          (pre.length + s - left.length)) (names es, scores es) = .ok arrays ∧
      forRange merged.length (writeBack (names merged) (scores merged) pre.length) arrays =
        .ok (names (pre ++ (mergeRuns xs ys ++ post)),
          scores (pre ++ (mergeRuns xs ys ++ post))) := by
  subst hes hxs
  have hget1 (k : ℕ) (hk : k < xs.length) :
      (pre ++ (xs ++ (ys ++ post)))[pre.length + k]? = xs[k]? := by
    rw [List.getElem?_append_right (by omega), Nat.add_sub_cancel_left,
      List.getElem?_append_left hk]
  have hget2 (k : ℕ) (hk : k < ys.length) :
      (pre ++ (xs ++ (ys ++ post)))[pre.length + xs.length + k]? = ys[k]? := by
    rw [List.getElem?_append_right (by omega), List.getElem?_append_right (by omega),
      List.getElem?_append_left (by omega)]
    congr 1
    omega
  -- what the comparison loop leaves of one of the runs, and its length
  obtain ⟨hone, hleft, hright, hmerge⟩ := mergeHeads_spec first xs ys
  have hloop := @mergeLoop_eq _ _ (pre ++ (xs ++ (ys ++ post))) xs ys [] room
    (pre.length + xs.length) (pre.length + xs.length + ys.length) pre.length
    (pre.length + xs.length) ((pre.length + xs.length - pre.length) +
      (pre.length + xs.length + ys.length - (pre.length + xs.length)) + 1)
    (by omega) rfl rfl hget1 hget2 (by simpa using hroom)
  change _ = mergeRuns xs ys at hmerge
  revert hone hleft hright hmerge hloop
  generalize mergeHeads first xs ys = h
  obtain ⟨merged, left, right⟩ := h
  rintro hone ⟨xs', rfl⟩ ⟨ys', rfl⟩ hloop hmerge
  simp only at hone hmerge hloop
  have hlen := congrArg List.length hmerge
  simp only [List.length_append, length_mergeRuns, List.nil_append] at hlen hlong hloop
  obtain ⟨arrays, hkeep, hwrite⟩ := @writeResult_eq _ _ _ _ _ pre post merged left right hone
    (show merged.length = xs'.length + ys'.length by omega) hlong
    (show pre.length + (xs' ++ left).length = pre.length + (xs'.length + left.length) by simp) rfl
  simp only [List.length_append] at hkeep ⊢
  exact ⟨merged, left, right, arrays, hone, by omega, by omega, hloop, hkeep, by rw [hwrite, hmerge]⟩

/-- **`truemerge` merges**: in the arrays of request `d`, the left run `xs` of length `s` and the
    right run `ys`, at least as long, are replaced by their merge; the rest stays. -/
theorem truemerge_eq {d : Data α} {temp : Send} {pre post : List (Entry α)}
    (hnames : d.moviename = names (pre ++ (xs ++ (ys ++ post))))
    (hscores : d.moviescore = scores (pre ++ (xs ++ (ys ++ post))))
    (hpre : pre.length = 2 * temp.mer * (temp.time - 1)) (hxs : xs.length = temp.mer)
    (hlong : xs.length ≤ ys.length)
    (hstop : (if temp.time = temp.b then d.cnt else pre.length + temp.mer + temp.mer) =
      pre.length + temp.mer + ys.length)
    (hroom : xs.length + ys.length ≤ 2 * temp.mer + d.base) :
    truemerge d temp = .ok { d with
      moviename := names (pre ++ (mergeRuns xs ys ++ post))
      moviescore := scores (pre ++ (mergeRuns xs ys ++ post)) } := by
  obtain ⟨merged, left, right, arrays, -, hleft, -, hloop, hkeep, hwrite⟩ :=
    truemerge_loops hxs hlong hroom (rfl : pre ++ (xs ++ (ys ++ post)) = _)
  -- the rest of the left half moves to the end, behind what the loop has taken
  have hrest : pre.length + temp.mer - (pre.length + temp.mer - left.length) = left.length := by
    omega
  unfold truemerge
  simp only [← hpre, hstop, hnames, hscores]
  show (mergeLoop _ _ _ _ _ _ _).bind _ = _
  rw [hloop]
  show (forRange (pre.length + temp.mer - (pre.length + temp.mer - left.length)) _ _).bind _ = _
  rw [hrest, hkeep]
  show (forRange (names merged).length _ _).bind _ = _
  rw [length_names, hwrite]
  rfl

end SystemProgramming.Movies
