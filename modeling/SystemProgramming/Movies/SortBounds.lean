import SystemProgramming.Movies.Levels

namespace SystemProgramming.Movies

open Program Tiling

/-!
# Movie recommendation — the indices that the sorter uses

An index outside the two arrays of a request is the fault `.index`.  Whether there is one does not
depend on what the arrays hold: the specifications here only know their lengths, and let a failed
assertion pass.

* `sort_inBounds` — `sort` stays within its part of the arrays, if that part is not empty;
* `sort_empty` — of an empty part it touches the element before it;
* `sort_bounds_iff` — so **no request makes the sorter leave the arrays exactly when every request
  matches a title**.
-/

variable {α : Type} [Score α]

/-- `x` uses no index outside an array, and its result satisfies `Q`. -/
def InBounds {σ : Type} (x : Except Fault σ) (Q : σ → Prop) : Prop := Ends (· ≠ .index) x Q

/-- Both arrays are of length `n`. -/
def OfLength (n : ℕ) (arrays : List CString × List α) : Prop :=
  arrays.1.length = n ∧ arrays.2.length = n

variable {movies : List CString} {pts : List α} {arrays : List CString × List α}
  {n off size start stop i j : ℕ}

/-! ### The functions of `lib.c` -/

/-- A load in range. -/
theorem loadAt_inBounds {β : Type} {l : List β} (h : i < l.length) :
    InBounds (loadAt l i) fun _ => True := by
  rw [loadAt, List.getElem?_eq_getElem h]
  trivial

/-- A store in range keeps the length. -/
theorem storeAt_inBounds {β : Type} {l : List β} (h : i < l.length) (x : β) :
    InBounds (storeAt l i x) fun l' => l'.length = l.length := by
  rw [storeAt, if_pos h]
  exact List.length_set

/-- The candidate of `argmax` stays in range. -/
theorem argmaxStep_inBounds (h : OfLength n (movies, pts)) {c : Candidate α}
    (hc : off + c.ret < n) (hi : off + i < n) :
    InBounds (argmaxStep pts movies off c i) fun c' => c'.ret = c.ret ∨ c'.ret = i := by
  refine (loadAt_inBounds (hi.trans_eq h.2.symm)).bind fun p _ => ?_
  show Ends _ (if p > c.max then _ else _) _
  split
  · exact .inr rfl
  · split
    · refine (loadAt_inBounds (hc.trans_eq h.1.symm)).bind fun a _ => ?_
      refine (loadAt_inBounds (hi.trans_eq h.1.symm)).bind fun b _ => ?_
      show Ends _ (if strcmp a b = .gt then _ else _) _
      split
      · exact .inr rfl
      · exact .inl rfl
    · exact .inl rfl

/-- The candidate stays within the part that `argmax` looks at. -/
theorem argmax_inBounds (h : OfLength n (movies, pts)) (hlt : start < stop) (hstop : off + stop ≤ n) :
    InBounds (argmax pts movies off start stop) fun k => k < stop := by
  have hloop : InBounds (forRange (stop - start)
      (fun c k => argmaxStep pts movies off c (start + k)) ⟨start, Score.minusOne⟩)
      fun c => c.ret < stop := by
    refine Ends.forRange hlt fun k hk c hc => ?_
    refine (argmaxStep_inBounds h (by omega) (by omega)).mono fun c' hc' => ?_
    rcases hc' with hc' | hc' <;> omega
  refine hloop.bind fun c hc => ?_
  show Ends _ (if c.max ≥ 0 then _ else _) _
  split
  · exact hc
  · exact Fault.noConfusion

omit [Score α] in
/-- A swap of two slots in range. -/
theorem swap_inBounds (h : OfLength n (movies, pts)) (hi : i < n) (hj : j < n) :
    InBounds (swap movies pts i j) (OfLength n) := by
  obtain ⟨rfl, hpts⟩ := h
  refine (loadAt_inBounds hi).bind fun m _ => ?_
  refine (loadAt_inBounds hj).bind fun m' _ => ?_
  refine (storeAt_inBounds hi m').bind fun movies₁ h₁ => ?_
  refine (storeAt_inBounds (hj.trans_eq h₁.symm) m).bind fun movies₂ h₂ => ?_
  refine (loadAt_inBounds (hi.trans_eq hpts.symm)).bind fun p _ => ?_
  refine (loadAt_inBounds (hj.trans_eq hpts.symm)).bind fun p' _ => ?_
  refine (storeAt_inBounds (hi.trans_eq hpts.symm) p').bind fun pts₁ h₃ => ?_
  refine (storeAt_inBounds (hj.trans_eq (h₃.trans hpts).symm) p).bind fun pts₂ h₄ => ?_
  exact ⟨h₂.trans h₁, (h₄.trans h₃).trans hpts⟩

/-- The suffix is appended to a slot in range. -/
theorem addSecretAt_inBounds (hi : i < movies.length) :
    InBounds (addSecretAt movies i) fun movies' => movies'.length = movies.length := by
  refine (loadAt_inBounds hi).bind fun m _ => ?_
  show Ends _ ((addSecret m).bind _) _
  unfold addSecret
  split
  · exact storeAt_inBounds hi _
  · exact Fault.noConfusion

/-- One iteration of the outer loop. -/
theorem sortStep_inBounds (h : OfLength n arrays) (hi : i < size) (hfits : off + size ≤ n) :
    InBounds (sortStep off size arrays i) (OfLength n) := by
  obtain ⟨movies, pts⟩ := arrays
  refine (argmax_inBounds h hi hfits).bind fun idx hidx => ?_
  show Ends _ (if idx < size then _ else _) _
  rw [if_pos hidx]
  refine (swap_inBounds h (by omega) (by omega)).bind fun arrays' h' => ?_
  obtain ⟨movies', pts'⟩ := arrays'
  have hi' : off + i < movies'.length := by
    rw [h'.1]
    omega
  exact (addSecretAt_inBounds hi').bind fun movies'' h'' => ⟨h''.trans h'.1, h'.2⟩

/-- `validate` reads the slots of its chunk. -/
theorem validate_inBounds (numOfMovies : ℕ) (hfits : off + size ≤ movies.length) :
    InBounds (validate numOfMovies movies off size) fun _ => True := by
  unfold validate
  split
  · refine Ends.forRange trivial fun i hi _ _ => ?_
    rw [loadAt, List.getElem?_eq_getElem (by omega)]
    trivial
  · exact Fault.noConfusion

/-- **`sort` stays within its part of the arrays**, whatever they hold, if the part has an
    element. -/
theorem sort_inBounds (numOfMovies : ℕ) (h : OfLength n (movies, pts)) (hsize : 0 < size)
    (hfits : off + size ≤ n) :
    InBounds (sort numOfMovies movies pts off size) (OfLength n) := by
  refine (validate_inBounds numOfMovies (hfits.trans_eq h.1.symm)).bind fun _ _ => ?_
  have hloop : InBounds (forRange (size - 1) (sortStep off size) (movies, pts)) (OfLength n) :=
    Ends.forRange h fun i hi arrays harrays => sortStep_inBounds harrays (by omega) hfits
  refine hloop.bind fun arrays' h' => ?_
  obtain ⟨movies', pts'⟩ := arrays'
  show Ends _ (if off + size = 0 then _ else _) _
  rw [if_neg (by omega)]
  have hlast : off + size - 1 < movies'.length := by
    rw [h'.1]
    omega
  exact (addSecretAt_inBounds hlast).bind fun movies'' h'' => ⟨h''.trans h'.1, h'.2⟩

/-- The statement after the loop is executed for an empty part as well. -/
theorem sort_empty (numOfMovies : ℕ) (movies : List CString) (pts : List α) :
    sort numOfMovies movies pts 0 0 = .error .index := by
  simp only [sort, validate, if_pos (Nat.zero_le numOfMovies)]
  rfl

/-! ### The chunk threads -/

/-- The two phases of `tserver` up to the end of the chunk threads. -/
def sortPhase (movies : List (MovieProfile α)) (reqs : List (Request α)) (o : Orders) :
    Except Fault (ℕ → Data α) := do
  let d ← o.cals.foldlM (calPhase movies reqs) fun _ => .empty
  o.sorts.foldlM (execAt fun _ => sorting movies.length) d

/-- `d` differs from `d₀` in what its arrays hold, not in their length. -/
def SameLength (d₀ d : Data α) : Prop :=
  ∃ arrays, OfLength d₀.cnt arrays ∧
    d = { d₀ with moviename := arrays.1, moviescore := arrays.2 }

/-- `cal` fills both arrays to the same length. -/
theorem cal_sameLength (movies : List (MovieProfile α)) (r : Request α) :
    (cal movies r).cnt = (matching movies r).length ∧
      SameLength (cal movies r) (cal movies r) := by
  have hcal := (cal_eq movies r).1
  have hname : (cal movies r).moviename = names (matching movies r) :=
    congrArg Data.moviename hcal
  have hscore : (cal movies r).moviescore = scores (matching movies r) :=
    congrArg Data.moviescore hcal
  have hcnt : (cal movies r).cnt = (matching movies r).length := by
    show (cal movies r).moviename.length = _
    rw [hname, length_names]
  refine ⟨hcnt, ((cal movies r).moviename, (cal movies r).moviescore), ⟨rfl, ?_⟩, rfl⟩
  show (cal movies r).moviescore.length = _
  rw [hscore, length_scores, hcnt]

/-- A chunk thread of a request with a match. -/
theorem sorting_inBounds {movies : List (MovieProfile α)} {r : Request α} {d : Data α} {t : ℕ}
    (hne : matching movies r ≠ []) (h : SameLength (cal movies r) d) (ht : t < (cal movies r).base)
    (numOfMovies : ℕ) :
    InBounds (sorting numOfMovies d t) (SameLength (cal movies r)) := by
  obtain ⟨arrays, harrays, rfl⟩ := h
  rw [sorting_range rfl rfl]
  have hcut := (cal_eq movies r).2 hne
  -- the chunk lies inside the arrays, and no chunk is empty
  have hle : (cal movies r).cnt / baseOf (cal movies r).cnt * baseOf (cal movies r).cnt ≤
      (cal movies r).cnt := Nat.div_mul_le_self _ _
  have hlong := le_tile (t := t) hle
  have hend := tile_snd_le hle ht
  have hpos : 0 < (cal movies r).cnt / baseOf (cal movies r).cnt := hcut.size_pos
  rw [← chunkRange_eq] at hlong hend
  have hsort : InBounds (sort numOfMovies arrays.1 arrays.2 (chunkRange (cal movies r).cnt t).1
      ((chunkRange (cal movies r).cnt t).2 - (chunkRange (cal movies r).cnt t).1))
      (OfLength (cal movies r).cnt) :=
    sort_inBounds numOfMovies harrays (by omega) (by omega)
  exact hsort.bind fun arrays' h' => ⟨arrays', h', rfl⟩

variable {movies : List (MovieProfile α)} {reqs : List (Request α)} {o : Orders}

/-- No match, in terms of the titles. -/
theorem matching_eq_nil {r : Request α} : matching movies r = [] ↔ ∀ m ∈ movies, ¬ r.selects m := by
  rw [matching, List.map_eq_nil_iff, List.filter_eq_nil_iff]

/-- The phase of the chunk threads, when every request has a match. -/
theorem sortPhase_inBounds (ho : o.Valid movies reqs)
    (hmatch : ∀ r ∈ reqs, matching movies r ≠ []) :
    InBounds (sortPhase movies reqs o) fun d =>
      ∀ n, ∀ r, reqs[n]? = some r → SameLength (cal movies r) (d n) := by
  show Ends _ ((o.cals.foldlM (calPhase movies reqs) fun _ => Data.empty).bind _) _
  rw [calPhase_eq ho.cals]
  refine Ends.foldlM (fun n r hr => ?_) fun e he d hd => ?_
  · rw [afterCal, hr]
    exact (cal_sameLength movies r).2
  · -- the task of an event touches the arrays of its own request only
    obtain ⟨k, t⟩ := e
    have hk : k < reqs.length := ho.sorts _ he
    have hr : reqs[k]? = some reqs[k] := List.getElem?_eq_getElem hk
    have hmem : t ∈ eventsAt k o.sorts :=
      List.mem_map.mpr ⟨(k, t), List.mem_filter.mpr ⟨he, decide_eq_true rfl⟩, rfl⟩
    have ht : t < (cal movies reqs[k]).base :=
      List.mem_range.mp ((ho.sortsAt k _ hr).mem_iff.mp hmem)
    refine Ends.execAt (I := fun n d => ∀ r, reqs[n]? = some r → SameLength (cal movies r) d) hd ?_
    refine (sorting_inBounds (hmatch _ (List.getElem_mem hk)) (hd k _ hr) ht _).mono ?_
    intro d' hd' r' hr'
    obtain rfl := Option.some.inj (hr.symm.trans hr')
    exact hd'

/-- A request without a match stops the chunk thread that it has. -/
theorem sortPhase_noMatch (ho : o.Valid movies reqs) {n : ℕ} {r : Request α} (hr : reqs[n]? = some r)
    (hnone : matching movies r = []) (d : ℕ → Data α) : sortPhase movies reqs o ≠ .ok d := by
  intro h
  obtain ⟨d₁, hcal, h⟩ := bind_eq_ok h
  rw [calPhase_eq ho.cals] at hcal
  obtain rfl := Except.ok.inj hcal
  have hrun := eventsAt_of_foldlM h n
  have hcnt := (cal_sameLength movies r).1
  rw [hnone, List.length_nil] at hcnt
  -- no movie was found, and still the request has one chunk, of length zero
  have hbase : (cal movies r).base = 1 := by
    show baseOf (cal movies r).cnt = 1
    rw [hcnt]
    rfl
  have hevents : eventsAt n o.sorts = [0] := by
    have hperm := ho.sortsAt n r hr
    rw [hbase] at hperm
    exact List.perm_singleton.mp hperm
  rw [hevents, afterCal, hr, List.foldlM_cons, sorting_range rfl rfl, hcnt] at hrun
  obtain ⟨d₂, hstep, -⟩ := bind_eq_ok hrun
  obtain ⟨arrays, hsort, -⟩ := bind_eq_ok hstep
  have hfault := hsort.symm.trans (sort_empty _ _ _)
  cases hfault

/-- **No request makes the sorter leave its arrays, and a request without a match gives an empty
    file, exactly when every request has a match.**  Without one, `cal` makes one chunk of length
    `0`, and the statement of `sort` after its loop uses index `-1`. -/
theorem sort_bounds_iff (movies : List (MovieProfile α)) (reqs : List (Request α)) (o : Orders)
    (ho : o.Valid movies reqs) :
    (sortPhase movies reqs o ≠ .error .index ∧
      ∀ (n : ℕ) (r : Request α), reqs[n]? = some r → (∀ m ∈ movies, ¬ r.selects m) →
        ∃ files, tserver movies reqs o = .ok files ∧ files[n]? = some []) ↔
    ∀ r ∈ reqs, ∃ m ∈ movies, r.selects m := by
  constructor
  · -- a request without a match would have an empty file, but its sort has failed before
    rintro ⟨-, hempty⟩ r hr
    by_contra hnone
    have hnone' : ∀ m ∈ movies, ¬ r.selects m := fun m hm hsel => hnone ⟨m, hm, hsel⟩
    obtain ⟨n, hn⟩ := List.mem_iff_getElem?.mp hr
    obtain ⟨files, hfiles, -⟩ := hempty n r hn hnone'
    obtain ⟨d₁, hcal, hfiles⟩ := bind_eq_ok hfiles
    obtain ⟨d₂, hsorts, -⟩ := bind_eq_ok hfiles
    have hphase : sortPhase movies reqs o = .ok d₂ := by
      show (o.cals.foldlM (calPhase movies reqs) fun _ => Data.empty).bind _ = _
      rw [hcal]
      exact hsorts
    exact sortPhase_noMatch ho hn (matching_eq_nil.mpr hnone') d₂ hphase
  · intro hmatch
    have hne : ∀ r ∈ reqs, matching movies r ≠ [] := fun r hr hnil => by
      obtain ⟨m, hm, hsel⟩ := hmatch r hr
      exact matching_eq_nil.mp hnil m hm hsel
    -- with a match everywhere the sorts stay inside the arrays, and no file has to be empty
    refine ⟨fun hindex => ?_, fun n r hn hnone => ?_⟩
    · exact absurd rfl ((sortPhase_inBounds ho hne).of_error hindex)
    · obtain ⟨m, hm, hsel⟩ := hmatch r (List.mem_of_getElem? hn)
      exact absurd hsel (hnone m hm)

/-- Both requests have a match, so all accesses are in range. -/
theorem sort_bounds_iff_twoMovies :
    sortPhase twoMovies twoRequests ⟨[1, 0], [(1, 0), (0, 0)], []⟩ ≠ .error .index :=
  ((sort_bounds_iff twoMovies twoRequests _ twoRequests_valid).mpr (by decide)).1

/-- A request for titles that contain `C`. -/
def noTitle : Request ℤ := ⟨[67], fun _ => 1⟩

/-- **A request without a match**: its chunk thread leaves the arrays, and no file is written. -/
theorem sort_leaves_arrays :
    Orders.Valid twoMovies [noTitle] ⟨[0], [(0, 0)], []⟩ ∧
      (∀ m ∈ twoMovies, ¬ noTitle.selects m) ∧
      sortPhase twoMovies [noTitle] ⟨[0], [(0, 0)], []⟩ = .error .index ∧
      ¬ ∃ files, tserver twoMovies [noTitle] ⟨[0], [(0, 0)], []⟩ = .ok files ∧
        files[0]? = some [] := by
  refine ⟨Orders.valid_oneChunk (by decide) (.refl _) (by decide) (by decide), by decide, rfl, ?_⟩
  rintro ⟨files, hfiles, -⟩
  cases hfiles

end SystemProgramming.Movies
