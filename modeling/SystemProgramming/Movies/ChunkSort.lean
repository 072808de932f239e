import Mathlib.Data.List.Nodup
import SystemProgramming.Lib.Program
import SystemProgramming.Lib.SortedRuns
import SystemProgramming.Movies.Arrays

namespace SystemProgramming.Movies

open Program Runs

/-!
# Movie recommendation — `lib.c`

The selection sort that the server runs on each chunk: `sort(movies, pts, size)` with `argmax`,
`swap` and `add_secret`.  `off` is the offset of the two pointers that `sort` is given.

* `argmax_eq` — `argmax` finds an entry that none of the others precedes;
* `sortStep_inv` — the invariant of the outer loop;
* `sort_eq` — **a chunk sort is the plain sort** of its chunk, with the suffix on every title;
* `sort_correct` — so the two arrays end sorted, whatever titles and scores they hold;
* `tie_break_agrees` — the titles compare in the same way before and after `add_secret`.
-/

variable {α : Type} [Score α]

/-- The larger value so far, and where it is: the state of the loop of `argmax`. -/
structure Candidate (α : Type) where
  ret : ℕ
  max : α

/-- One iteration of `argmax`, at index `i`. -/
def argmaxStep (src : List α) (movie : List CString) (off : ℕ) (c : Candidate α) (i : ℕ) :
    Except Fault (Candidate α) := do
  let p ← loadAt src (off + i)
  if p > c.max then
    .ok ⟨i, p⟩
  else if p = c.max then
    let a ← loadAt movie (off + c.ret)
    let b ← loadAt movie (off + i)
    if strcmp a b = .gt then .ok { c with ret := i } else .ok c
  else
    .ok c

/-- `argmax(src, movie, start, end)` on the arrays from `off` on. -/
def argmax (src : List α) (movie : List CString) (off start stop : ℕ) : Except Fault ℕ := do
  let c ← forRange (stop - start) (fun c k => argmaxStep src movie off c (start + k))
    ⟨start, Score.minusOne⟩
  if c.max ≥ 0 then .ok c.ret else .error .assertion

/-- `swap(&movies[i], &movies[j], &pts[i], &pts[j])` -/
def swap (movies : List CString) (pts : List α) (i j : ℕ) :
    Except Fault (List CString × List α) := do
  let m ← loadAt movies i
  let m' ← loadAt movies j
  let movies ← storeAt movies i m'
  let movies ← storeAt movies j m
  let p ← loadAt pts i
  let p' ← loadAt pts j
  let pts ← storeAt pts i p'
  let pts ← storeAt pts j p
  .ok (movies, pts)

/-- `add_secret(s, strlen(s))` -/
def addSecret (s : CString) : Except Fault CString :=
  if s.length < 0xff then .ok (s ++ secretKey) else .error .assertion

/-- `movies[i] = add_secret(movies[i], strlen(movies[i]));` -/
def addSecretAt (movies : List CString) (i : ℕ) : Except Fault (List CString) := do
  let m ← loadAt movies i
  let m ← addSecret m
  storeAt movies i m

/-- One iteration of the outer loop of `sort`. -/
def sortStep (off size : ℕ) (arrays : List CString × List α) (i : ℕ) :
    Except Fault (List CString × List α) := do
  let (movies, pts) := arrays
  let idx ← argmax pts movies off i size
  if idx < size then
    let (movies, pts) ← swap movies pts (off + i) (off + idx)
    let movies ← addSecretAt movies (off + i)
    .ok (movies, pts)
  else
    .error .assertion

/-- `validate(movies, pts, size)`: the table is long enough and every name is there. -/
def validate (numOfMovies : ℕ) (movies : List CString) (off size : ℕ) : Except Fault Unit :=
  if size ≤ numOfMovies then
    forRange size (fun _ i => (loadAt movies (off + i)).map fun _ => ()) ()
  else
    .error .assertion

/-- `sort(movies + off, pts + off, size)` -/
def sort (numOfMovies : ℕ) (movies : List CString) (pts : List α) (off size : ℕ) :
    Except Fault (List CString × List α) := do
  validate numOfMovies movies off size
  let (movies, pts) ← forRange (size - 1) (sortStep off size) (movies, pts)
  -- the last title is treated after the loop; for `size = 0` its index is one below `off`
  if off + size = 0 then
    .error .index
  else
    let movies ← addSecretAt movies (off + size - 1)
    .ok (movies, pts)

/-! ### The arrays as a list of entries -/

variable {es : List (Entry α)} {x y : Entry α} {i j off : ℕ}

omit [Score α] in
theorem swap_eq (hi : es[i]? = some x) (hj : es[j]? = some y) :
    swap (names es) (scores es) i j =
      .ok (names ((es.set i y).set j x), scores ((es.set i y).set j x)) := by
  have hi' := (List.getElem?_eq_some_iff.mp hi).1
  have hj' := (List.getElem?_eq_some_iff.mp hj).1
  have hj'' : j < (es.set i y).length := by rwa [List.length_set]
  simp only [swap, loadAt_names hi, loadAt_names hj, loadAt_scores hi, loadAt_scores hj, bind,
    Except.bind, storeAt_names hi' y, storeAt_scores hi' y, storeAt_names hj'' x,
    storeAt_scores hj'' x]

omit [Score α] in
theorem addSecretAt_eq (h : es[i]? = some x) (hx : x.name.length < 0xff) :
    addSecretAt (names es) i = .ok (names (es.set i x.addSecret)) := by
  have hi := (List.getElem?_eq_some_iff.mp h).1
  simp only [addSecretAt, loadAt_names h, bind, Except.bind, addSecret, if_pos hx]
  exact storeAt_names hi x.addSecret

theorem eq_of_addSecret {s s' : CString} (h : addSecret s = .ok s') : s ++ secretKey = s' := by
  unfold addSecret at h
  split at h
  · exact Except.ok.inj h
  · cases h

/-! ### `argmax` -/

/-- One iteration keeps the candidate the first of the entries looked at. -/
theorem argmaxStep_eq {k : ℕ} (hc : es[off + k]? = some x) (hi : es[off + i]? = some y) :
    argmaxStep (scores es) (names es) off ⟨k, x.score⟩ i =
      .ok (if y < x then ⟨i, y.score⟩ else ⟨k, x.score⟩) := by
  show (loadAt (scores es) (off + i)).bind _ = _
  rw [loadAt_scores hi]
  show (if y.score > x.score then _ else _) = _
  by_cases hgt : y.score > x.score
  · rw [if_pos hgt, if_pos (.inl hgt)]
  · rw [if_neg hgt]
    -- the names decide when the scores are equal
    by_cases heq : y.score = x.score
    · rw [if_pos heq]
      show (loadAt (names es) (off + k)).bind _ = _
      rw [loadAt_names hc]
      show (loadAt (names es) (off + i)).bind _ = _
      rw [loadAt_names hi]
      show (if strcmp x.name y.name = .gt then _ else _) = _
      have hiff : strcmp x.name y.name = .gt ↔ y < x := by
        rw [strcmp_eq_gt, Entry.lt_iff, Entry.Before]
        exact ⟨fun h => .inr ⟨heq, h⟩, fun h => h.elim (fun h => absurd h hgt) And.right⟩
      simp only [hiff, heq]
      split <;> rfl
    · rw [if_neg heq, if_neg]
      rintro (h | ⟨h, -⟩)
      · exact hgt h
      · exact heq h

/-- The first iteration replaces the sentinel by the first score. -/
theorem argmaxStep_sentinel (hi : es[off + i]? = some y) (hy : 0 ≤ y.score) :
    argmaxStep (scores es) (names es) off ⟨i, Score.minusOne⟩ i = .ok ⟨i, y.score⟩ := by
  show (loadAt (scores es) (off + i)).bind _ = _
  rw [loadAt_scores hi]
  exact if_pos (Score.minusOne_neg.trans_le hy)

/-- **`argmax` finds the first entry** of the part of the arrays that it looks at. -/
theorem argmax_eq {start stop : ℕ} (hlt : start < stop) (hlen : off + stop ≤ es.length)
    (hpos : ∀ j, start ≤ j → j < stop → ∀ y, es[off + j]? = some y → 0 ≤ y.score) :
    ∃ k x, start ≤ k ∧ k < stop ∧ es[off + k]? = some x ∧
      argmax (scores es) (names es) off start stop = .ok k ∧
      ∀ j, start ≤ j → j < stop → ∀ y, es[off + j]? = some y → x ≤ y := by
  -- after `m > 0` iterations the candidate is the first of the entries looked at
  let I (m : ℕ) (c : Candidate α) : Prop :=
    (m = 0 ∧ c = ⟨start, Score.minusOne⟩) ∨
    ∃ k x, start ≤ k ∧ k < start + m ∧ es[off + k]? = some x ∧ c = ⟨k, x.score⟩ ∧
      ∀ j, start ≤ j → j < start + m → ∀ y, es[off + j]? = some y → x ≤ y
  have hloop := forRange_inv (n := stop - start) (s := ⟨start, Score.minusOne⟩)
    (f := fun c k => argmaxStep (scores es) (names es) off c (start + k)) I (.inl ⟨rfl, rfl⟩) ?_
  · obtain ⟨c, hc, ⟨h0, -⟩ | ⟨k, x, hk1, hk2, hx, rfl, hmin⟩⟩ := hloop
    · omega
    · have hstop : start + (stop - start) = stop := by omega
      rw [hstop] at hk2 hmin
      refine ⟨k, x, hk1, hk2, hx, ?_, hmin⟩
      show (forRange _ _ _).bind _ = _
      rw [hc]
      exact if_pos (hpos k hk1 hk2 x hx)
  · intro m hm c hI
    obtain ⟨y, hy⟩ : ∃ y, es[off + (start + m)]? = some y :=
      ⟨_, List.getElem?_eq_getElem (by omega)⟩
    rcases hI with ⟨rfl, rfl⟩ | ⟨k, x, hk1, hk2, hx, rfl, hmin⟩
    · have hy0 := hpos _ (by omega) (by omega) y hy
      refine ⟨_, argmaxStep_sentinel hy hy0, .inr ⟨start, y, le_rfl, by omega, hy, rfl, ?_⟩⟩
      intro j hj1 hj2 z hz
      obtain rfl : j = start := by omega
      exact (Option.some.inj (hy.symm.trans hz)).le
    · refine ⟨_, argmaxStep_eq hx hy, .inr ?_⟩
      by_cases hlt : y < x
      · refine ⟨start + m, y, by omega, by omega, hy, by rw [if_pos hlt], ?_⟩
        intro j hj1 hj2 z hz
        rcases Nat.lt_or_eq_of_le (Nat.le_of_lt_succ hj2) with hj | rfl
        · exact hlt.le.trans (hmin j hj1 hj z hz)
        · exact (Option.some.inj (hy.symm.trans hz)).le
      · refine ⟨k, x, hk1, by omega, hx, by rw [if_neg hlt], ?_⟩
        intro j hj1 hj2 z hz
        rcases Nat.lt_or_eq_of_le (Nat.le_of_lt_succ hj2) with hj | rfl
        · exact hmin j hj1 hj z hz
        · exact Option.some.inj (hy.symm.trans hz) ▸ not_lt.mp hlt

/-! ### The outer loop -/

omit [Score α] in
/-- Bringing element `m` to the front by a swap. -/
theorem swap_front {r : Entry α} {rs : List (Entry α)} {m : ℕ} (hx : (r :: rs)[m]? = some x) :
    ∃ rs', ((r :: rs).set 0 x).set m r = x :: rs' ∧ (x :: rs').Perm (r :: rs) := by
  cases m with
  | zero =>
    obtain rfl : r = x := Option.some.inj hx
    exact ⟨rs, rfl, .refl _⟩
  | succ m =>
    obtain ⟨hm, rfl⟩ := List.getElem?_eq_some_iff.mp hx
    rw [List.length_cons] at hm
    have hm' : m < rs.length := by omega
    refine ⟨rs.set m r, rfl, ?_⟩
    have hset : (rs.set m r).Perm (r :: rs.eraseIdx m) := List.set_perm_cons_eraseIdx hm' r
    have hget : (rs[m] :: rs.eraseIdx m).Perm rs := List.getElem_cons_eraseIdx_perm hm'
    exact (hset.cons _).trans ((List.Perm.swap r _ _).trans (hget.cons r))

/-- What `sort` needs of a chunk: titles shorter than `MAX_LEN` and scores that are not negative. -/
def Sortable (es : List (Entry α)) : Prop := ∀ e ∈ es, e.name.length < 0xff ∧ 0 ≤ e.score

/-- What the server gives to `sort`: valid titles and scores that are not negative. -/
def ValidEntries (es : List (Entry α)) : Prop := ∀ e ∈ es, ValidTitle e.name ∧ 0 ≤ e.score

theorem ValidEntries.sortable {es : List (Entry α)} (h : ValidEntries es) : Sortable es :=
  fun e he => ⟨(h e he).1.short, (h e he).2⟩

/-- The state of the outer loop: `done` is sorted, precedes `rest`, and carries the suffix. -/
structure Sorting (pre chunk post done rest : List (Entry α))
    (arrays : List CString × List α) : Prop where
  perm : (done ++ rest).Perm chunk
  sorted : done.Pairwise (· ≤ ·)
  le : ∀ d ∈ done, ∀ r ∈ rest, d ≤ r
  names : arrays.1 = names (pre ++ (done.map Entry.addSecret ++ (rest ++ post)))
  scores : arrays.2 = scores (pre ++ (done.map Entry.addSecret ++ (rest ++ post)))

variable {pre chunk post done rest : List (Entry α)} {arrays : List CString × List α}

theorem Sorting.snoc {rs : List (Entry α)} (h : Sorting pre chunk post done rest arrays)
    (hperm : (x :: rs).Perm rest) (hmin : ∀ r ∈ rest, x ≤ r) {arrays' : List CString × List α}
    (hnames : arrays'.1 = Movies.names
      (pre ++ (done.map Entry.addSecret ++ (x.addSecret :: rs ++ post))))
    (hscores : arrays'.2 = Movies.scores
      (pre ++ (done.map Entry.addSecret ++ (x.addSecret :: rs ++ post)))) :
    Sorting pre chunk post (done ++ [x]) rs arrays' where
  perm := by
    have hmid : (done ++ [x] ++ rs).Perm (done ++ rest) := by
      rw [List.append_assoc]
      exact hperm.append_left done
    exact hmid.trans h.perm
  sorted := by
    refine List.pairwise_append.mpr ⟨h.sorted, List.pairwise_singleton _ _, fun d hd e he => ?_⟩
    rw [List.mem_singleton.mp he]
    exact h.le d hd x (hperm.mem_iff.mp (by simp))
  le d hd r hr := by
    have hr' : r ∈ rest := hperm.mem_iff.mp (List.mem_cons_of_mem x hr)
    -- the new last entry is the least of the rest
    rcases List.mem_append.mp hd with hd | hd
    · exact h.le d hd r hr'
    · rw [List.mem_singleton.mp hd]
      exact hmin r hr'
  names := by
    rw [hnames, List.map_append, List.append_assoc]
    rfl
  scores := by
    rw [hscores, List.map_append, List.append_assoc]
    rfl

/-- **One iteration** puts the first of the remaining entries, with the suffix, in its place. -/
theorem sortStep_eq (hvalid : Sortable chunk) (h : Sorting pre chunk post done rest arrays)
    (hi : done.length + 1 < chunk.length) :
    ∃ arrays' x rs, sortStep pre.length chunk.length arrays done.length = .ok arrays' ∧
      Sorting pre chunk post (done ++ [x]) rs arrays' := by
  have hlen : done.length + rest.length = chunk.length := by
    rw [← List.length_append, h.perm.length_eq]
  obtain ⟨r, rs, rfl⟩ : ∃ r rs, rest = r :: rs :=
    List.exists_cons_of_length_pos (by omega)
  have hvalid' : Sortable (r :: rs) := fun e he =>
    hvalid e (h.perm.mem_iff.mp (List.mem_append_right done he))
  let front := pre ++ done.map Entry.addSecret
  have hfront : front.length = pre.length + done.length := by simp [front]
  let es := front ++ (r :: rs ++ post)
  have hes : pre ++ (done.map Entry.addSecret ++ (r :: rs ++ post)) = es :=
    (List.append_assoc _ _ _).symm
  have hget (j : ℕ) (hj1 : done.length ≤ j) (hj2 : j < chunk.length) :
      es[pre.length + j]? = (r :: rs)[j - done.length]? := by
    rw [List.getElem?_append_right (by omega), List.getElem?_append_left (by omega)]
    congr 1
    omega
  obtain ⟨movies, pts⟩ := arrays
  have hmovies : movies = Movies.names es := hes ▸ h.names
  have hpts : pts = Movies.scores es := hes ▸ h.scores
  have hfits : pre.length + chunk.length ≤ es.length := by
    simp only [es, List.length_append, hfront]
    omega
  -- the inner loop finds the least entry of the rest
  obtain ⟨k, x, hk1, hk2, hx, hargmax, hmin⟩ := argmax_eq (show done.length < chunk.length by omega)
    hfits fun j hj1 hj2 y hy => by
      rw [hget j hj1 hj2] at hy
      exact (hvalid' y (List.mem_of_getElem? hy)).2
  have hxr : (r :: rs)[k - done.length]? = some x := by rw [← hget k hk1 hk2, hx]
  have hr : es[pre.length + done.length]? = some r := by
    rw [hget _ le_rfl (by omega), Nat.sub_self]
    rfl
  obtain ⟨rs', hswap, hperm⟩ := swap_front hxr
  have hset : (es.set (pre.length + done.length) x).set (pre.length + k) r =
      front ++ (x :: rs' ++ post) := by
    have h0 : pre.length + done.length - front.length = 0 := by omega
    have hk : pre.length + k - front.length = k - done.length := by omega
    rw [List.set_append_right _ _ (by omega), List.set_append_right _ _ (by omega), h0, hk,
      List.set_append_left _ _ (by simp),
      List.set_append_left _ _ (by rw [List.length_set]; omega), hswap]
  have hx' : (front ++ (x :: rs' ++ post))[pre.length + done.length]? = some x := by
    rw [← hfront]
    simp
  refine ⟨(Movies.names (front ++ (x.addSecret :: rs' ++ post)),
    Movies.scores (front ++ (x.addSecret :: rs' ++ post))), x, rs', ?_, ?_⟩
  · -- the exchange brings it to the front, and it gets the secret
    have hsecret : (front ++ (x :: rs' ++ post)).set (pre.length + done.length) x.addSecret =
        front ++ (x.addSecret :: rs' ++ post) := by
      rw [← hfront]
      simp
    show (argmax pts movies _ _ _).bind _ = _
    rw [hmovies, hpts, hargmax]
    show (if k < chunk.length then _ else _) = _
    rw [if_pos hk2]
    show (swap (Movies.names es) (Movies.scores es) _ _).bind _ = _
    rw [swap_eq hr hx, hset]
    show (addSecretAt (Movies.names _) _).bind _ = _
    rw [addSecretAt_eq hx' (hvalid' x (List.mem_of_getElem? hxr)).1, hsecret,
      ← scores_set_addSecret hx', hsecret]
    rfl
  · refine h.snoc hperm (fun e he => ?_) ?_ ?_
    · obtain ⟨j, hj, rfl⟩ := List.mem_iff_getElem.mp he
      apply hmin (done.length + j) (by omega) (by omega) _
      rw [hget _ (by omega) (by omega), Nat.add_sub_cancel_left]
      exact List.getElem?_eq_getElem hj
    · exact congrArg Movies.names (List.append_assoc pre _ _)
    · exact congrArg Movies.scores (List.append_assoc pre _ _)

omit [Score α] in
/-- The names are all there, so `validate` only checks the size. -/
theorem validate_eq {numOfMovies size : ℕ} (hsize : size ≤ numOfMovies)
    (hlen : off + size ≤ es.length) : validate numOfMovies (Movies.names es) off size = .ok () := by
  rw [validate, if_pos hsize]
  apply forRange_eq (fun _ => ()) rfl
  intro i hi
  rw [loadAt_names (List.getElem?_eq_getElem (show off + i < es.length by omega))]
  rfl

/-- **A chunk sort is the plain sort** of the chunk it is given, with the secret suffix on every
    title, and leaves the rest of the arrays alone. -/
theorem sort_eq {numOfMovies : ℕ} (hne : chunk ≠ []) (hvalid : Sortable chunk)
    (hsize : chunk.length ≤ numOfMovies) (pre post : List (Entry α)) :
    sort numOfMovies (Movies.names (pre ++ (chunk ++ post))) (Movies.scores (pre ++ (chunk ++ post)))
        pre.length chunk.length =
      .ok (Movies.names (pre ++ ((plainSort chunk).map Entry.addSecret ++ post)),
        Movies.scores (pre ++ ((plainSort chunk).map Entry.addSecret ++ post))) := by
  have hpos : 0 < chunk.length := List.length_pos_iff.mpr hne
  have hstart : Sorting pre chunk post [] chunk
      (Movies.names (pre ++ (chunk ++ post)), Movies.scores (pre ++ (chunk ++ post))) :=
    ⟨.refl _, List.Pairwise.nil, by simp, rfl, rfl⟩
  obtain ⟨arrays, hloop, done, rest, hlen, h⟩ := forRange_inv
    (n := chunk.length - 1) (f := sortStep pre.length chunk.length)
    (fun i arrays => ∃ done rest, done.length = i ∧ Sorting pre chunk post done rest arrays)
    ⟨[], chunk, rfl, hstart⟩ fun i hi arrays ⟨done, rest, hdone, h⟩ => by
      subst hdone
      obtain ⟨arrays', x, rs, hstep, h'⟩ := sortStep_eq hvalid h (by omega)
      exact ⟨arrays', hstep, done ++ [x], rs, by simp, h'⟩
  obtain ⟨movies, pts⟩ := arrays
  -- one entry is left, and it comes last
  obtain ⟨x, rfl⟩ : ∃ x, rest = [x] := by
    apply List.length_eq_one_iff.mp
    have := h.perm.length_eq
    rw [List.length_append] at this
    omega
  have hdone : done ++ [x] = plainSort chunk := by
    apply eq_plainSort h.perm
    refine List.pairwise_append.mpr ⟨h.sorted, List.pairwise_singleton _ _, fun d hd e he => ?_⟩
    exact h.le d hd e he
  have hx : x.name.length < 0xff := (hvalid x (h.perm.mem_iff.mp (by simp))).1
  let es := pre ++ (done.map Entry.addSecret ++ ([x] ++ post))
  have hlast : pre.length + chunk.length - 1 = pre.length + done.length := by omega
  have hget : es[pre.length + done.length]? = some x := by simp [es]
  have hset : es.set (pre.length + done.length) x.addSecret =
      pre ++ ((plainSort chunk).map Entry.addSecret ++ post) := by
    rw [← hdone]
    simp [es]
  show (validate numOfMovies _ _ _).bind _ = _
  rw [validate_eq hsize (by simp)]
  show (forRange _ _ _).bind _ = _
  rw [hloop]
  show (if pre.length + chunk.length = 0 then _ else _) = _
  rw [if_neg (by omega), hlast]
  show (addSecretAt movies _).bind _ = _
  rw [show movies = Movies.names es from h.names, addSecretAt_eq hget hx, hset,
    show pts = Movies.scores es from h.scores, ← scores_set_addSecret hget, hset]
  rfl

/-! ### The two arrays -/

/-- **The chunk sort is correct.**  For arrays of any titles shorter than `MAX_LEN` and any scores
    that are not negative, `sort` comes to its end, and its chunk of the arrays then holds its pairs
    sorted by decreasing score and by increasing title, each title with the suffix once; the rest of
    the arrays stays. -/
theorem sort_correct {numOfMovies : ℕ} (movies : List CString) (pts : List α)
    (pre post : List (Entry α)) (hpos : 1 ≤ movies.length) (hlen : pts.length = movies.length)
    (htitles : ∀ t ∈ movies, t.length < 0xff) (hscores : ∀ p ∈ pts, 0 ≤ p)
    (hsize : movies.length ≤ numOfMovies) :
    ∃ zs : List (Entry α), zs.Perm (List.zipWith Entry.mk movies pts) ∧
      zs.Pairwise (fun x y =>
        y.score < x.score ∨ (x.score = y.score ∧ strcmp x.name y.name ≠ .gt)) ∧
      sort numOfMovies (names pre ++ (movies ++ names post)) (scores pre ++ (pts ++ scores post))
          pre.length movies.length =
        .ok (names pre ++ ((zs.map fun e => e.name ++ secretKey) ++ names post),
          scores pre ++ (zs.map Entry.score ++ scores post)) := by
  -- the two columns of a chunk are those of one list of entries
  obtain ⟨es, hnames, hpts⟩ := exists_columns hlen
  have hzip : List.zipWith Entry.mk movies pts = es := by
    rw [← hnames, ← hpts]
    exact zipWith_columns es
  have hes : es.length = movies.length := by rw [← hnames, length_names]
  -- the conditions of the assertions carry over to the entries
  have hsortable : Sortable es := by
    intro e he
    refine ⟨htitles _ ?_, hscores _ ?_⟩
    · rw [← hnames]
      exact List.mem_map_of_mem he
    · rw [← hpts]
      exact List.mem_map_of_mem he
  have hne : es ≠ [] := List.length_pos_iff.mp (by omega)
  have hsort := sort_eq hne hsortable (hes.trans_le hsize) pre post
  rw [names_append, names_append, scores_append, scores_append, hnames, hpts, hes, names_append,
    names_append, scores_append, scores_append, names_addSecret, scores_addSecret] at hsort
  refine ⟨plainSort es, ?_, ?_, hsort⟩
  · rw [hzip]
    exact plainSort_perm es
  · refine (plainSort_sorted es).imp fun {x y} hle => ?_
    exact Entry.le_iff.mp hle

/-- Two titles of one score, which have to change places. -/
theorem sort_correct_twoTitles :
    ∃ zs : List (Entry ℤ), zs.Perm [⟨[66], 1⟩, ⟨[65, 66], 1⟩] ∧
      sort 2 [[66], [65, 66]] [1, 1] 0 2 =
        .ok (zs.map fun e => e.name ++ secretKey, zs.map Entry.score) := by
  obtain ⟨zs, hperm, -, hsort⟩ := @sort_correct ℤ _ 2 [[66], [65, 66]] [1, 1] [] []
    (by decide) rfl (by decide) (by decide) le_rfl
  refine ⟨zs, hperm, ?_⟩
  simpa [names, scores] using hsort

/-- **Tie-breaking does not change with the suffix.**  Titles whose bytes are at least blanks compare
    with the suffix as they compare without it, in particular when one is the beginning of the
    other; so `argmax`, before `add_secret`, and the merges, after it, decide alike. -/
theorem tie_break_agrees (a b : CString) (ha : ∀ c ∈ a, 0x20 ≤ c) (hb : ∀ c ∈ b, 0x20 ≤ c) :
    strcmp (a ++ secretKey) (b ++ secretKey) = strcmp a b ∧
      (a <+: b → a ≠ b → strcmp (a ++ secretKey) (b ++ secretKey) = .lt) ∧
      ∀ a' b', addSecret a = .ok a' → addSecret b = .ok b' → strcmp a' b' = strcmp a b := by
  obtain ⟨key, hkey⟩ := secretKey_eq
  have happend : strcmp (a ++ secretKey) (b ++ secretKey) = strcmp a b := by
    rw [hkey]
    exact strcmp_append (tab_lt ha) (tab_lt hb)
  refine ⟨happend, fun hprefix hne => ?_, fun a' b' ha' hb' => ?_⟩
  · obtain ⟨t, rfl⟩ := hprefix
    rw [happend]
    exact strcmp_append_lt fun ht => hne (by rw [ht, List.append_nil])
  · rw [← eq_of_addSecret ha', ← eq_of_addSecret hb']
    exact happend

theorem tie_break_agrees_blank :
    strcmp ([65] ++ secretKey) ([65, 32] ++ secretKey) = strcmp [65] [65, 32] :=
  have ha : ValidTitle [65] := by decide
  have hb : ValidTitle [65, 32] := by decide
  (tie_break_agrees [65] [65, 32] ha.bytes hb.bytes).1

end SystemProgramming.Movies
