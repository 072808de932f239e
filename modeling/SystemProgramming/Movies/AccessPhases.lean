import SystemProgramming.Movies.AccessMerge

namespace SystemProgramming.Movies.Accesses

open ForkJoin Footprint

/-!
# Movie recommendation — the phases, access by access

* `chunk` — the cells of one thread of a phase: its part of the arrays and its message;
* `forks_sorts`, `settles_merge` — the threads of one request, which share `d[n]` and the array
  `deli[n]`, follow the phases on the arrays;
* `alone_cal`, `alone_wr` — the threads that have a request for themselves.
-/

variable {α : Type} {n j lo hi cnt : ℕ} {m m' : Memory (Cell.Value α)} {d d' : Data α}
variable {F : Footprint Cell}

/-! ### Footprints -/

/-- The thread with the message `deli[n][j]`, of which the fields `fs` are sent, works on the part `r`
    of the arrays of request `n`. -/
def chunk (fs : Message → Prop) (n j : ℕ) (r : ℕ × ℕ) : Footprint Cell where
  uses := {k | match k with
    | .moviename n' p | .moviescore n' p => n' = n ∧ r.1 ≤ p ∧ p < r.2
    | .data n' _ | .room n' => n' = n
    | .deli n' j' _ => n' = n ∧ j' = j
    | .out _ => False}
  sets := {k | match k with
    | .moviename n' p | .moviescore n' p => n' = n ∧ r.1 ≤ p ∧ p < r.2
    | .deli n' j' f => n' = n ∧ j' = j ∧ fs f
    | .data _ _ | .room _ | .out _ => False}
  sub := by
    rintro (_ | _ | _ | _ | ⟨_, _, f⟩ | _) hk
    exacts [hk, hk, hk.elim, hk.elim, ⟨hk.1, hk.2.1⟩, hk.elim]

/-- The indices of a cell are in range, for a table of `N` titles. -/
def InRange (N : ℕ) : Cell → Prop
  | .moviename _ p | .moviescore _ p => p < N
  | .deli _ j _ => j < 32
  | .data _ _ | .room _ | .out _ => True

/-- All cells of request `n`. -/
def ofRequest (N n : ℕ) : Footprint Cell where
  uses := {k | k.request = n ∧ InRange N k}
  sets := {k | k.request = n ∧ InRange N k}
  sub := subset_rfl

/-- Threads of one phase on different parts of the arrays do not interfere. -/
theorem chunk_independent {fs : Message → Prop} {j' : ℕ} {r r' : ℕ × ℕ} (hj : j ≠ j')
    (hr : r.2 ≤ r'.1) : Independent (chunk fs n j r) (chunk fs n j' r') := by
  constructor
  · rintro (_ | _ | _ | _ | _ | _) hk hk'
    exacts [absurd hk'.2.1 (by have := hk.2.2; omega), absurd hk'.2.1 (by have := hk.2.2; omega),
      hk, hk, hj (hk.2.1.symm.trans hk'.2), hk]
  · rintro (_ | _ | _ | _ | _ | _) hk hk'
    exacts [absurd hk'.2.2 (by have := hk.2.1; omega), absurd hk'.2.2 (by have := hk.2.1; omega),
      hk, hk, hj (hk'.2.symm.trans hk.2.1), hk]

/-- A chunk of a request is part of the request. -/
theorem chunk_le {fs : Message → Prop} {N : ℕ} {r : ℕ × ℕ} (hj : j < 32) (hr : r.2 ≤ N) :
    chunk fs n j r ≤ ofRequest N n := by
  constructor
  · rintro (_ | _ | _ | _ | _ | _) hk
    exacts [⟨hk.1, hk.2.2.trans_le hr⟩, ⟨hk.1, hk.2.2.trans_le hr⟩, ⟨hk, trivial⟩, ⟨hk, trivial⟩,
      ⟨hk.1, hk.2.trans_lt hj⟩, hk.elim]
  · rintro (_ | _ | _ | _ | _ | _) hk
    exacts [⟨hk.1, hk.2.2.trans_le hr⟩, ⟨hk.1, hk.2.2.trans_le hr⟩, hk.elim, hk.elim,
      ⟨hk.1, hk.2.1.trans_lt hj⟩, hk.elim]

/-- With more fields of the message, the footprint is larger. -/
theorem chunk_mono {fs fs' : Message → Prop} {r : ℕ × ℕ} (h : ∀ f, fs f → fs' f) :
    chunk fs n j r ≤ chunk fs' n j r := by
  refine ⟨subset_rfl, ?_⟩
  rintro (_ | _ | _ | _ | _ | _) hk
  exacts [hk, hk, hk, hk, ⟨hk.1, hk.2.1, h _ hk.2.2⟩, hk]

/-- A chunk owns the slots of its range. -/
theorem chunk_owns {fs : Message → Prop} {r : ℕ × ℕ} : Owns (chunk fs n j r) n r.1 r.2 :=
  fun _ hlo hhi => ⟨⟨rfl, hlo, hhi⟩, ⟨rfl, hlo, hhi⟩⟩

/-! ### What the starting thread writes -/

/-- A field of a message is written, once there is room for it. -/
theorem alone_writeDeli {f : Message} {v room : ℕ} (hroom : m (.room n) = some room) (hj : j < room)
    (hF : .room n ∈ F.uses) (hF' : .deli n j f ∈ F.sets) :
    Alone F (writeDeli n j f v) m () (Function.update m (.deli n j f) (some v)) := by
  refine .read hF ?_
  rw [hroom]
  show Alone F (if j < room then _ else _) _ _ _
  rw [if_pos hj]
  exact .write hF' .done

/-- What is not part of the data: a message, the room for messages, a stream. -/
theorem Holds.update {k : Cell} {v : Cell.Value α k} (hm : Holds m n d)
    (hk : ∀ p f, k ≠ .moviename n p ∧ k ≠ .moviescore n p ∧ k ≠ .data n f) :
    Holds (Function.update m k v) n d where
  names p := by rw [Function.update_of_ne (hk p .cnt).1.symm, hm.names]
  scores p := by rw [Function.update_of_ne (hk p .cnt).2.1.symm, hm.scores]
  data f := by rw [Function.update_of_ne (hk 0 f).2.2.symm, hm.data]

/-- The messages are not part of the model. -/
theorem Holds.setDeli {j : ℕ} {f : Message} {v : Option ℕ} (hm : Holds m n d) :
    Holds (Function.update m (.deli n j f) v) n d :=
  hm.update (by simp)

/-- What is not written by a thread of a phase. -/
theorem Holds.congr (hm : Holds m n d) (h : ∀ k : Cell, k.request = n → m' k = m k) :
    Holds m' n d where
  names p := by rw [h _ rfl, hm.names]
  scores p := by rw [h _ rfl, hm.scores]
  data f := by rw [h _ rfl, hm.data]

/-- A field of `Data` is read. -/
theorem alone_readData (hm : Holds m n d) (f : Cut) (hF : .data n f ∈ F.uses) :
    Alone F (readData n f) m (field d f) m := by
  refine .read hF ?_
  rw [hm.data]
  exact .done

/-- There are at most 32 chunks, as many as there may be messages. -/
theorem baseOf_le_32 (cnt : ℕ) : baseOf cnt ≤ 32 := by
  unfold baseOf
  split_ifs <;> omega

/-! ### The sorting threads of a request -/

variable [Score α]

/-- `cnt`, `base` and `size` are those of `cal`. -/
structure Cuts (d : Data α) : Prop where
  base : d.base = baseOf d.cnt
  size : d.size = d.cnt / d.base
  pos : 0 < d.size

/-- `sorting` access by access, with the message `deli[n][j]`. -/
theorem alone_sorting {numOfMovies : ℕ} (hcut : Cuts d) (hm : Holds m n d)
    (horder : Sent m n j .order n) (htime : Sent m n j .time j) (hdeli : ∀ f, .deli n j f ∈ F.uses)
    (hdata : ∀ f, .data n f ∈ F.uses)
    (hF : Owns F n (chunkRange d.cnt j).1 (chunkRange d.cnt j).2)
    (h : Movies.sorting numOfMovies d j = .ok d') :
    ∃ m', Alone F (sorting numOfMovies n j) m () m' ∧ Holds m' n d' := by
  -- the range is written in the thread's own terms, as it computes it from the cut
  have hrange : chunkRange d.cnt j = (d.size * j, d.size * j +
      if j + 1 = d.base then d.size + d.cnt % d.base else d.size) := by
    simp only [chunkRange, ← hcut.base, ← hcut.size]
  rw [hrange] at hF
  rw [sorting_range hcut.base hcut.size, hrange] at h
  obtain ⟨a, hsort, h⟩ := Program.bind_eq_ok h
  cases h
  rw [Nat.add_sub_cancel_left] at hsort
  have hread (f : Cut) : Follows F n (readData n f) d (field d f) d := follows_readData (hdata f)
  refine Tracks.after (R := fun d m => Holds m n d) (alone_readDeli hdeli) ?_ hm
  refine (follows_present horder).bind <| (follows_present htime).bind <| (hread .size).bind <|
    (hread .base).bind ?_
  -- only the last chunk reads `cnt` as well
  by_cases hlast : j + 1 = d.base
  · rw [if_pos hlast] at hF hsort
    rw [if_pos (show j + 1 = field d .base from hlast)]
    exact (hread .cnt).bind <| (hread .base).bind <|
      follows_sort hF (Nat.add_pos_left hcut.pos _) hsort
  · rw [if_neg hlast] at hF hsort
    rw [if_neg (show ¬ j + 1 = field d .base from hlast)]
    exact follows_sort hF hcut.pos hsort

/-- To sort a chunk changes the arrays only. -/
theorem sorting_arrays {numOfMovies : ℕ} (hcut : Cuts d)
    (h : Movies.sorting numOfMovies d j = .ok d') : ∃ a, d' = arrays d a := by
  rw [sorting_range hcut.base hcut.size] at h
  obtain ⟨a, -, h⟩ := Program.bind_eq_ok h
  cases h
  exact ⟨a, rfl⟩

/-- The memory holds the data `d₀` with other arrays, and `deli[n]` has room for a message to each
    chunk. -/
structure Ready (m : Memory (Cell.Value α)) (n : ℕ) (d₀ d : Data α) : Prop where
  holds : Holds m n d
  like : ∃ a, d = arrays d₀ a
  room : m (.room n) = some d₀.base

variable {d₀ : Data α}

omit [Score α] in
/-- Two changes of the arrays, one after the other. -/
theorem arrays_arrays {a : List CString × List α} (hlike : ∃ a, d = arrays d₀ a)
    (h : d' = arrays d a) : ∃ a, d' = arrays d₀ a := by
  obtain ⟨a₀, rfl⟩ := hlike
  exact ⟨a, h⟩

/-- `main` starts `sorting` for chunk `j`. -/
theorem forks_sorting {numOfMovies : ℕ} (hcut : Cuts d₀) (hm : Ready m n d₀ d) (hj : j < d₀.base)
    (h : Movies.sorting numOfMovies d j = .ok d') :
    ∃ m', Forks (chunk (fun _ => True) n j (chunkRange d₀.cnt j)) (startSorting numOfMovies n j) m m' ∧
      Ready m' n d₀ d' ∧ Sent m' n j .order n := by
  obtain ⟨a, rfl⟩ := hm.like
  have hcut' : Cuts (arrays d₀ a) := ⟨hcut.base, hcut.size, hcut.pos⟩
  -- the message is written by `main`, and the rest is done by the thread
  let m₁ := Function.update m (.deli n j .order) (some n)
  let m₂ := Function.update m₁ (.deli n j .time) (some j)
  have hwrite : Alone (chunk (fun _ => True) n j (chunkRange d₀.cnt j))
      (do writeDeli n j .order n; writeDeli n j .time j : Run α Unit) m () m₂ :=
    (alone_writeDeli (F := chunk _ n j _) hm.room hj rfl ⟨rfl, rfl, trivial⟩).bind <|
      alone_writeDeli (F := chunk _ n j _) (by rw [Function.update_of_ne (by simp), hm.room]) hj rfl
        ⟨rfl, rfl, trivial⟩
  have horder : Sent m₂ n j .order n := by simp [Sent, m₂, m₁]
  obtain ⟨m', hrun, hm'⟩ := alone_sorting (F := chunk (fun _ => False) n j (chunkRange d₀.cnt j))
    hcut' hm.holds.setDeli.setDeli horder (by simp [Sent]) (fun _ => ⟨rfl, rfl⟩) (fun _ => rfl)
    chunk_owns h
  refine ⟨m', .andThen hwrite (.thread (hrun.run.mono (chunk_mono fun _ => False.elim))),
    ⟨hm', arrays_arrays ⟨a, rfl⟩ (sorting_arrays hcut' h).choose_spec, ?_⟩, ?_⟩
  · rw [hrun.off _ id, Function.update_of_ne (by simp), Function.update_of_ne (by simp), hm.room]
  · exact (hrun.off (.deli n j .order) fun hk => hk.2.2).trans horder

/-- **The sorting threads of a request** follow the chunk sorts one after the other. -/
theorem forks_sorts {numOfMovies N : ℕ} (hcut : Cuts d) (hcnt : d.cnt ≤ N) (hm : Holds m n d)
    (h : (List.range d.base).foldlM (Movies.sorting numOfMovies) d = .ok d') :
    ∃ m', Forks (ofRequest N n) (startSorts numOfMovies n) m m' ∧ Ready m' n d d' ∧
      ∀ j < d.base, Sent m' n j .order n := by
  -- thread `j` has its own message slot and its own chunk of the arrays
  let A (j : ℕ) := chunk (fun _ => True) n j (chunkRange d.cnt j)
  -- room is made for the messages before the first thread is started
  let m₁ := Function.update m (.room n) (some d.base)
  have hm₁ : Ready m₁ n d d :=
    ⟨hm.update (by simp), ⟨(d.moviename, d.moviescore), rfl⟩, Function.update_self ..⟩
  have hpair : (List.range d.base).Pairwise fun j j' => Independent (A j) (A j') := by
    refine List.pairwise_lt_range.imp_of_mem fun {j j'} _ hj' hlt => ?_
    rw [hcut.base, List.mem_range] at hj'
    refine chunk_independent hlt.ne ?_
    rw [chunkRange_eq, chunkRange_eq]
    exact Tiling.tile_ordered hlt hj'
  obtain ⟨m', hforks, hm', hsent⟩ := Forks.foldlM A (startSorting numOfMovies n)
    (fun d' m => Ready m n d d') (fun j m => Sent m n j .order n)
    (fun j m m' hk hsent => (hk (.deli n j .order) ⟨rfl, rfl⟩).trans hsent) hpair hm₁
    (fun j hj d₁ d₂ m hm h => forks_sorting hcut hm (List.mem_range.mp hj) h) h
  -- together the chunks stay inside what belongs to the request
  have hle : Footprint.all A (List.range d.base) ≤ ofRequest N n := by
    refine Footprint.all_le fun j hj => chunk_le ?_ ?_
    · exact (List.mem_range.mp hj).trans_le (hcut.base ▸ baseOf_le_32 d.cnt)
    · rw [hcut.base, List.mem_range] at hj
      rw [chunkRange_eq]
      exact (Tiling.tile_snd_le (Nat.div_mul_le_self _ _) hj).trans hcnt
  have hbase : .data n .base ∈ (ofRequest N n).uses := ⟨rfl, trivial⟩
  have hroom : Alone (ofRequest N n)
      (do .write (.room n) (some (← readData n .base)) (.done ()); readData n .base : Run α ℕ)
      m d.base m₁ :=
    (alone_readData hm .base hbase).bind <|
      .write ⟨rfl, trivial⟩ (alone_readData hm₁.holds .base hbase)
  exact ⟨m', .andThen hroom (hforks.mono hle), hm', fun j hj => hsent j (List.mem_range.mpr hj)⟩

/-! ### The merge thread of a request -/

/-- To merge changes the arrays only. -/
theorem truemerge_arrays {x : Send} (h : Movies.truemerge d x = .ok d') : ∃ a, d' = arrays d a := by
  rw [truemerge_ranges] at h
  obtain ⟨_, -, h⟩ := Program.bind_eq_ok h
  obtain ⟨_, -, h⟩ := Program.bind_eq_ok h
  obtain ⟨a, -, h⟩ := Program.bind_eq_ok h
  cases h
  exact ⟨a, rfl⟩

/-- `Ready`, and every message of the array has its request. -/
structure Addressed (m : Memory (Cell.Value α)) (n : ℕ) (d₀ d : Data α) : Prop extends
    Ready m n d₀ d where
  order : ∀ j < d₀.base, Sent m n j .order n

/-- The merge thread starts `truemerge` number `i` of a level. -/
theorem forks_truemerge {i count b : ℕ} (hm : Addressed m n d₀ d) (hi : i + 1 < d₀.base)
    (hle : count * d₀.size * (2 * b) ≤ d₀.cnt)
    (h : Movies.truemerge d ⟨i + 1, count * d₀.size, b⟩ = .ok d') :
    ∃ m', Forks (chunk (· ≠ .order) n (i + 1) (Tiling.tile (2 * (count * d₀.size)) b d₀.cnt i))
      (startMerge n count b i) m m' ∧ Addressed m' n d₀ d' := by
  obtain ⟨a, rfl⟩ := hm.like
  -- the three fields of the message that the main thread fills in
  let m₁ := Function.update m (.deli n (i + 1) .time) (some (i + 1))
  let m₂ := Function.update m₁ (.deli n (i + 1) .mer) (some (count * d₀.size))
  let m₃ := Function.update m₂ (.deli n (i + 1) .b) (some b)
  have hm₁ : Holds m₁ n (arrays d₀ a) := hm.holds.setDeli
  have hwrite {m : Memory (Cell.Value α)} (f : Message) (v : ℕ) (hroom : m (.room n) = some d₀.base)
      (hf : f ≠ .order) :
      Alone (chunk (· ≠ .order) n (i + 1) (Tiling.tile (2 * (count * d₀.size)) b d₀.cnt i))
        (writeDeli n (i + 1) f v) m () (Function.update m (.deli n (i + 1) f) (some v)) :=
    alone_writeDeli (F := chunk _ n _ _) hroom hi rfl ⟨rfl, rfl, hf⟩
  have hroom₁ : m₁ (.room n) = some d₀.base := (Function.update_of_ne (by simp) _ _).trans hm.room
  have hroom₂ : m₂ (.room n) = some d₀.base := (Function.update_of_ne (by simp) _ _).trans hroom₁
  have hmessage : Alone
      (chunk (· ≠ .order) n (i + 1) (Tiling.tile (2 * (count * d₀.size)) b d₀.cnt i))
      (do
        writeDeli n (i + 1) .time (i + 1)
        writeDeli n (i + 1) .mer (count * (← readData n .size))
        writeDeli n (i + 1) .b b : Run α Unit) m () m₃ :=
    (hwrite .time _ hm.room (by simp)).bind <|
      (alone_readData (F := chunk _ n _ _) hm₁ .size rfl).bind <|
      (hwrite .mer _ hroom₁ (by simp)).bind (hwrite .b _ hroom₂ (by simp))
  -- the field `order` was filled in when the threads sorted, and is still there
  have horder : Sent m₃ n (i + 1) .order n := by
    have hsent : m (.deli n (i + 1) .order) = some n := hm.order _ hi
    simpa [Sent, m₃, m₂, m₁] using hsent
  -- the thread reads its message and merges its two runs
  obtain ⟨m', hrun, hm'⟩ := alone_truemerge (j := i + 1)
    (F := chunk (fun _ => False) n (i + 1) ((⟨i + 1, count * d₀.size, b⟩ : Send).range d₀.cnt))
    hm.holds.setDeli.setDeli.setDeli horder (by simp [Sent]) (by simp [Sent]) (by simp [Sent])
    (fun _ => ⟨rfl, rfl⟩) (fun _ => rfl) chunk_owns
    (by
      have hlong := Tiling.le_tile (t := 2 * i + 1) hle
      rwa [(task_runs _ b d₀.cnt i).2] at hlong) h
  rw [range_eq] at hrun
  have hfork : Forks (chunk (· ≠ .order) n (i + 1) (Tiling.tile (2 * (count * d₀.size)) b d₀.cnt i))
      (startMerge n count b i) m m' :=
    .andThen hmessage (.thread (hrun.run.mono (chunk_mono fun _ => False.elim)))
  refine ⟨m', hfork, ⟨hm', arrays_arrays ⟨a, rfl⟩ (truemerge_arrays h).choose_spec, ?_⟩,
    fun j hj => ?_⟩
  · exact (hfork.off (.room n) id).trans hm.room
  · exact (hfork.off (.deli n j .order) fun hk => hk.2.2 rfl).trans (hm.order j hj)

/-- **One level**: its threads are started and joined. -/
theorem settles_level {N count b : ℕ} (hcut : Cuts d₀) (hcnt : d₀.cnt ≤ N)
    (hm : Addressed m n d₀ d) (hcount : 2 * b * count = d₀.base)
    (h : ((List.range b).map fun i => ⟨i + 1, count * d₀.size, b⟩).foldlM Movies.truemerge d =
      .ok d') :
    ∃ m', Settles (ofRequest N n) (startAll (startMerge n count b) (List.range b) .skip) m m' ∧
      Addressed m' n d₀ d' := by
  -- the runs that are merged on this level cover no more than the table
  have hle : count * d₀.size * (2 * b) ≤ d₀.cnt := by
    have hmul : count * d₀.size * (2 * b) = d₀.size * d₀.base := by
      rw [← hcount]
      ring
    rw [hmul, hcut.size]
    exact Nat.div_mul_le_self _ _
  have hle' : 2 * (count * d₀.size) * b ≤ d₀.cnt := by
    rwa [show 2 * (count * d₀.size) * b = count * d₀.size * (2 * b) by ring]
  -- there are at most half as many tasks as messages
  have hroom {i : ℕ} (hi : i ∈ List.range b) : i + 1 < d₀.base := by
    rw [List.mem_range] at hi
    have hpos : 0 < count := Nat.pos_of_ne_zero fun h0 => by
      rw [h0, Nat.mul_zero] at hcount
      have hbase := hcut.pos
      rw [hcut.size, ← hcount, Nat.div_zero] at hbase
      omega
    have hbase : 2 * b ≤ d₀.base := hcount ▸ Nat.le_mul_of_pos_right _ hpos
    omega
  rw [List.foldlM_map] at h
  let A (i : ℕ) := chunk (· ≠ .order) n (i + 1) (Tiling.tile (2 * (count * d₀.size)) b d₀.cnt i)
  have hpair : (List.range b).Pairwise fun i i' => Independent (A i) (A i') := by
    refine List.pairwise_lt_range.imp_of_mem fun {i i'} _ hi' hlt => ?_
    exact chunk_independent (by omega) (Tiling.tile_ordered hlt (List.mem_range.mp hi'))
  obtain ⟨m', hforks, hm', -⟩ := Forks.foldlM A (startMerge n count b)
    (fun d m => Addressed m n d₀ d) (fun _ _ => True) (fun _ _ _ _ _ => trivial) hpair hm
    (fun i hi d₁ d₂ m hm h => by
      obtain ⟨m', hfork, hm'⟩ := forks_truemerge hm (hroom hi) hle h
      exact ⟨m', hfork, hm', trivial⟩) h
  refine ⟨m', (hforks.mono (Footprint.all_le fun i hi => chunk_le ?_ ?_)).join, hm'⟩
  · exact (hroom hi).trans_le (hcut.base ▸ baseOf_le_32 d₀.cnt)
  · exact (Tiling.tile_snd_le hle' (List.mem_range.mp hi)).trans hcnt

/-- **All levels**, one after the other. -/
theorem settles_levels {N count : ℕ} (k : ℕ) (hcut : Cuts d₀) (hcnt : d₀.cnt ≤ N)
    (hm : Addressed m n d₀ d) (hcount : 2 ^ k * count = d₀.base)
    (h : (mergeLevels d₀.size (2 ^ k) count).flatten.foldlM Movies.truemerge d = .ok d') :
    ∃ m', Settles (ofRequest N n) (mergeLevelsFrom n (2 ^ k) count) m m' ∧ Holds m' n d' := by
  -- the induction is on the levels: each one halves the number of threads
  induction k generalizing m d count with
  | zero =>
    rw [mergeLevels_zero] at h
    cases h
    rw [mergeLevelsFrom, if_neg (by decide)]
    exact ⟨m, .skip, hm.holds⟩
  | succ k ih =>
    rw [mergeLevels_succ, List.flatten_cons, List.foldlM_append] at h
    obtain ⟨d₁, hlevel, hrest⟩ := Program.bind_eq_ok h
    have hhalf : 2 ^ (k + 1) / 2 = 2 ^ k := by
      rw [pow_succ]
      exact Nat.mul_div_cancel _ Nat.two_pos
    obtain ⟨m₁, hsettles, hm₁⟩ := settles_level (N := N) hcut hcnt hm
      (by rw [← hcount, pow_succ, Nat.mul_comm 2]) hlevel
    obtain ⟨m', hsettles', hm'⟩ := ih hm₁ (by rw [← hcount, pow_succ]; ring) hrest
    refine ⟨m', ?_, hm'⟩
    rw [mergeLevelsFrom, if_pos (Nat.one_lt_two_pow (Nat.succ_ne_zero k)), hhalf]
    exact hsettles.seq hsettles'

/-- **The merge thread of a request** follows its levels. -/
theorem settles_merge {N : ℕ} (hcut : Cuts d₀) (hcnt : d₀.cnt ≤ N) (hm : Addressed m n d₀ d)
    (h : (mergeLevels d₀.size d₀.base 1).flatten.foldlM Movies.truemerge d = .ok d') :
    ∃ m', Settles (ofRequest N n) (merge n) m m' ∧ Holds m' n d' := by
  obtain ⟨k, hk⟩ := baseOf_pow d₀.cnt
  rw [← hcut.base] at hk
  rw [hk] at h
  obtain ⟨m', hsettles, hm'⟩ := settles_levels (N := N) k hcut hcnt hm (by rw [hk, Nat.mul_one]) h
  obtain ⟨a, ha⟩ := hm.like
  have hbase : field d .base = 2 ^ k := by
    rw [ha]
    exact hk
  rw [← hbase] at hsettles
  exact ⟨m', (alone_readData hm.holds .base (F := ofRequest N n) ⟨rfl, trivial⟩).andThen hsettles,
    hm'⟩

end SystemProgramming.Movies.Accesses
