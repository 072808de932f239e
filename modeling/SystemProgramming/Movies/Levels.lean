import SystemProgramming.Lib.Tiling
import SystemProgramming.Movies.PlainSort

namespace SystemProgramming.Movies

open Program Tiling

/-!
# Movie recommendation — the levels of `merge`

Where the tasks of the thread build read and write: the chunks of `sorting`, and the ranges that the
`truemerge` tasks of a level merge.

* `levelRanges_getElem?` — the ranges of every level are a tiling, with half as many ranges as the
  level before;
* `merge_levels_tile` — **the merge levels tile the array**: the tasks of a level share no index and
  miss none, and each merges the ranges of two neighbouring tasks of the level before.
-/

variable {α : Type} [Score α]

/-! ### The ranges of the tasks -/

/-- `2*s*t`, where the left run of a task starts. -/
def Send.first (x : Send) : ℕ := 2 * x.mer * (x.time - 1)

/-- `2*s*t + s`, where the left run ends and the right one starts. -/
def Send.mid (x : Send) : ℕ := x.first + x.mer

/-- `end`, where the right run ends. -/
def Send.stop (x : Send) (cnt : ℕ) : ℕ := if x.time = x.b then cnt else x.mid + x.mer

/-- The slots that a task of `truemerge` merges. -/
def Send.range (cnt : ℕ) (x : Send) : ℕ × ℕ := (x.first, x.stop cnt)

/-- The chunk of `sorting` number `t`, as the offset and the length that it passes to `sort`. -/
def chunkRange (cnt t : ℕ) : ℕ × ℕ :=
  let base := baseOf cnt
  let size := cnt / base
  (size * t, size * t + if t + 1 = base then size + cnt % base else size)

/-- The ranges of the sorting phase and then of each iteration of the loop of `merge`. -/
def levelRanges (cnt : ℕ) : List (List (ℕ × ℕ)) :=
  (List.range (baseOf cnt)).map (chunkRange cnt) ::
    (mergeLevels (cnt / baseOf cnt) (baseOf cnt) 1).map (List.map (Send.range cnt))

/-- `truemerge` on its ranges. -/
theorem truemerge_ranges (d : Data α) (x : Send) :
    truemerge d x = (do
      let m ← mergeLoop d.moviename d.moviescore (2 * x.mer + d.base) x.mid (x.stop d.cnt)
        ((x.mid - x.first) + (x.stop d.cnt - x.mid) + 1) ⟨x.first, x.mid, [], []⟩
      let arrays ← forRange (x.mid - m.l) (keepLeft x.mid (x.stop d.cnt) m.l)
        (d.moviename, d.moviescore)
      let arrays ← forRange m.newname.length (writeBack m.newname m.newscore x.first) arrays
      .ok { d with moviename := arrays.1, moviescore := arrays.2 }) := rfl

/-- `sorting` on its chunk. -/
theorem sorting_range {d : Data α} (hbase : d.base = baseOf d.cnt) (hsize : d.size = d.cnt / d.base)
    (numOfMovies t : ℕ) :
    sorting numOfMovies d t = (do
      let c := chunkRange d.cnt t
      let arrays ← sort numOfMovies d.moviename d.moviescore c.1 (c.2 - c.1)
      .ok { d with moviename := arrays.1, moviescore := arrays.2 }) := by
  simp only [sorting, chunkRange, Nat.add_sub_cancel_left, ← hbase, ← hsize]
  split <;> rfl

/-! ### The ranges of a level are a tiling -/

variable {cnt size base count j k t : ℕ} {x : Send}

/-- Level `j` of the loop: half as many tasks as the level before, on runs twice as long. -/
theorem mergeLevels_getElem? (hj : j < k) :
    (mergeLevels size (2 ^ k) count)[j]? =
      some ((List.range (2 ^ (k - (j + 1)))).map fun i =>
        ⟨i + 1, 2 ^ j * count * size, 2 ^ (k - (j + 1))⟩) := by
  induction j generalizing k count with
  | zero =>
    obtain ⟨k, rfl⟩ := Nat.exists_eq_add_one.mpr hj
    rw [mergeLevels_succ, pow_zero, Nat.one_mul, Nat.add_sub_cancel]
    rfl
  | succ j ih =>
    obtain ⟨k, rfl⟩ := Nat.exists_eq_add_one.mpr (Nat.zero_lt_of_lt hj)
    have hcount : 2 ^ (j + 1) * count = 2 ^ j * (count * 2) := by
      rw [pow_succ]
      ring
    rw [mergeLevels_succ, List.getElem?_cons_succ, ih (Nat.succ_lt_succ_iff.mp hj), hcount,
      Nat.succ_sub_succ]

theorem length_mergeLevels : (mergeLevels size (2 ^ k) count).length = k := by
  induction k generalizing count with
  | zero => rw [mergeLevels_zero, List.length_nil]
  | succ k ih => rw [mergeLevels_succ, List.length_cons, ih]

/-- The chunks of `sorting` are ranges of a tiling. -/
theorem chunkRange_eq : chunkRange cnt t = tile (cnt / baseOf cnt) (baseOf cnt) cnt t := by
  simp only [chunkRange, tile, Nat.mul_succ]
  congr 1
  split
  · rename_i hlast
    have hdiv := Nat.div_add_mod cnt (baseOf cnt)
    rw [Nat.mul_comm, ← hlast, Nat.mul_succ] at hdiv
    rw [← hlast]
    omega
  · rfl

/-- The task of `deli[n][t + 1]` works on a range of a tiling, of twice the length of its runs. -/
theorem range_eq : (⟨t + 1, size, base⟩ : Send).range cnt = tile (2 * size) base cnt t := by
  simp only [Send.range, Send.first, Send.stop, Send.mid, tile, Nat.add_sub_cancel]
  congr 2
  ring

/-- **The ranges of every level are a tiling**, with half as many ranges as the level before. -/
theorem levelRanges_getElem? (hk : baseOf cnt = 2 ^ k) (hj : j ≤ k) :
    (levelRanges cnt)[j]? = some (tiling (2 ^ j * (cnt / 2 ^ k)) (2 ^ (k - j)) cnt) := by
  cases j with
  | zero =>
    rw [levelRanges, List.getElem?_cons_zero, Nat.sub_zero, pow_zero, Nat.one_mul, ← hk, tiling]
    exact congrArg some (List.map_congr_left fun t _ => chunkRange_eq)
  | succ j =>
    rw [levelRanges, List.getElem?_cons_succ, List.getElem?_map, hk, mergeLevels_getElem? hj,
      Option.map_some, List.map_map, tiling, pow_succ, Nat.mul_one]
    refine congrArg some (List.map_congr_left fun t _ => range_eq.trans ?_)
    rw [← Nat.mul_assoc, Nat.mul_comm 2]

theorem length_levelRanges (hk : baseOf cnt = 2 ^ k) : (levelRanges cnt).length = k + 1 := by
  rw [levelRanges, List.length_cons, List.length_map, hk, length_mergeLevels]

/-! ### The levels -/

/-- What is asked of the tasks of one level, when the tasks before it had the ranges `previous`. -/
structure LevelTiles (cnt : ℕ) (previous : List (ℕ × ℕ)) (level : List Send) : Prop where
  tiles : Tiles cnt (level.map (Send.range cnt))
  halves : previous.length = 2 * level.length
  runs : ∀ t x, level[t]? = some x →
    previous[2 * t]? = some (x.first, x.mid) ∧ previous[2 * t + 1]? = some (x.mid, x.stop cnt)
  longer : ∀ x ∈ level, x.mid + x.mer ≤ x.stop cnt
  room : ∀ x ∈ level, x.stop cnt < x.first + (2 * x.mer + baseOf cnt)
  deli : ∀ x ∈ level, x.time < baseOf cnt

/-- The two runs of a task are neighbouring ranges of the level before. -/
theorem task_runs (s b cnt t : ℕ) :
    tile s (2 * b) cnt (2 * t) =
        ((⟨t + 1, s, b⟩ : Send).first, (⟨t + 1, s, b⟩ : Send).mid) ∧
      tile s (2 * b) cnt (2 * t + 1) =
        ((⟨t + 1, s, b⟩ : Send).mid, (⟨t + 1, s, b⟩ : Send).stop cnt) := by
  obtain ⟨hleft, hright⟩ := tile_meet (s := s) (b := b) (n := cnt) (t := t)
  obtain ⟨hfirst, hstop⟩ := Prod.mk.inj
    ((@range_eq cnt s b t).trans tile_double)
  have hmid : (⟨t + 1, s, b⟩ : Send).mid = (tile s (2 * b) cnt (2 * t)).1 + s :=
    congrArg (· + s) hfirst
  exact ⟨Prod.ext hfirst.symm (hleft.trans hmid.symm), Prod.ext (hright.trans hmid.symm) hstop.symm⟩

/-- A level with `b` tasks, after a level whose ranges are of length `s`. -/
theorem levelTiles_tasks {s b : ℕ} (hs : 0 < s) (hb : 0 < b) (hle : s * (2 * b) ≤ cnt)
    (hrest : cnt - s * (2 * b) < baseOf cnt) (hbase : b < baseOf cnt) :
    LevelTiles cnt (tiling s (2 * b) cnt) ((List.range b).map fun i => ⟨i + 1, s, b⟩) := by
  have hdouble : 2 * s * b = s * (2 * b) := by ring
  -- the tasks of a level are numbered from one
  have htask {x : Send} (hx : x ∈ (List.range b).map fun i => ⟨i + 1, s, b⟩) :
      ∃ t < b, x = ⟨t + 1, s, b⟩ := by
    obtain ⟨t, ht, rfl⟩ := List.mem_map.mp hx
    exact ⟨t, List.mem_range.mp ht, rfl⟩
  refine ⟨?_, ?_, fun t x hx => ?_, fun x hx => ?_, fun x hx => ?_, fun x hx => ?_⟩
  · have hmap : ((List.range b).map fun i => ⟨i + 1, s, b⟩).map (Send.range cnt) =
        tiling (2 * s) b cnt := by
      rw [List.map_map, tiling]
      exact List.map_congr_left fun t _ => range_eq
    rw [hmap]
    exact tiles_tiling (Nat.mul_pos Nat.two_pos hs) hb (hdouble.trans_le hle)
  · rw [length_tiling, List.length_map, List.length_range]
  · rw [List.getElem?_map, Option.map_eq_some_iff] at hx
    obtain ⟨i, hi, rfl⟩ := hx
    obtain ⟨hi', rfl⟩ := List.getElem?_eq_some_iff.mp hi
    rw [List.length_range] at hi'
    rw [List.getElem_range, getElem?_tiling (by omega), getElem?_tiling (by omega)]
    exact ⟨congrArg some (task_runs s b cnt t).1, congrArg some (task_runs s b cnt t).2⟩
  · obtain ⟨t, -, rfl⟩ := htask hx
    have hlong := le_tile (t := 2 * t + 1) hle
    rwa [(task_runs s b cnt t).2] at hlong
  · -- only the last task can be longer, by less than `baseOf cnt`
    obtain ⟨t, -, rfl⟩ := htask hx
    have hlong := tile_le (s := 2 * s) (b := b) (n := cnt) (t := t)
    rw [← range_eq, hdouble] at hlong
    have hroom : (⟨t + 1, s, b⟩ : Send).stop cnt ≤
        (⟨t + 1, s, b⟩ : Send).first + 2 * s + (cnt - s * (2 * b)) := hlong
    show (⟨t + 1, s, b⟩ : Send).stop cnt < (⟨t + 1, s, b⟩ : Send).first + (2 * s + baseOf cnt)
    omega
  · obtain ⟨t, ht, rfl⟩ := htask hx
    exact (Nat.succ_le_of_lt ht).trans_lt hbase

/-- **The merge levels tile the array.**  In every iteration of the loop the ranges of the tasks are
    disjoint and cover exactly `[0, cnt)`; the two runs of a task are the ranges of two neighbouring
    tasks of the level before, or two chunks; the right run is as long as the left one or longer, both
    fit into the temporaries, and only allocated elements of `deli[n]` are used.  After the last
    iteration one range is left. -/
theorem merge_levels_tile (cnt : ℕ) (hcnt : 1 ≤ cnt) :
    (∀ (j : ℕ) (level : List Send),
      (mergeLevels (cnt / baseOf cnt) (baseOf cnt) 1)[j]? = some level →
        ∃ previous, (levelRanges cnt)[j]? = some previous ∧ LevelTiles cnt previous level) ∧
    (levelRanges cnt).getLast? = some [(0, cnt)] := by
  obtain ⟨k, hk⟩ := baseOf_pow cnt
  have hbase : 0 < 2 ^ k := Nat.two_pow_pos k
  have hsize : 0 < cnt / 2 ^ k := by
    rw [← hk] at hbase ⊢
    exact Nat.div_pos (baseOf_le hcnt) hbase
  refine ⟨fun j level hlevel => ?_, ?_⟩
  · have hj : j < k := by
      have hlt := (List.getElem?_eq_some_iff.mp hlevel).1
      rwa [hk, length_mergeLevels] at hlt
    refine ⟨_, levelRanges_getElem? hk hj.le, ?_⟩
    rw [hk, mergeLevels_getElem? hj, Option.some.injEq, Nat.mul_one] at hlevel
    subst hlevel
    -- the level before has twice as many ranges, and their lengths add up to `size * base`
    have hpow : 2 ^ (k - j) = 2 * 2 ^ (k - (j + 1)) := by
      rw [← pow_succ', ← Nat.sub_sub, Nat.sub_add_cancel (Nat.sub_pos_of_lt hj)]
    have hsum : 2 ^ j * (cnt / 2 ^ k) * 2 ^ (k - j) = 2 ^ k * (cnt / 2 ^ k) := by
      rw [Nat.mul_right_comm, ← pow_add, Nat.add_sub_cancel' hj.le]
    rw [hpow] at hsum ⊢
    have hdiv := Nat.div_add_mod cnt (2 ^ k)
    have hmod := Nat.mod_lt cnt hbase
    refine levelTiles_tasks (Nat.mul_pos (Nat.two_pow_pos j) hsize) (Nat.two_pow_pos _) ?_ ?_ ?_
    · rw [hsum]
      omega
    · rw [hsum, hk]
      omega
    · rw [hk]
      exact Nat.pow_lt_pow_right Nat.one_lt_two (by omega)
  · rw [List.getLast?_eq_getElem?, length_levelRanges hk, Nat.add_sub_cancel,
      levelRanges_getElem? hk le_rfl, Nat.sub_self, pow_zero, tiling_one]

/-- 10001 titles make eight chunks of 1250, of which the last one has one more. -/
theorem merge_levels_tile_tenThousand :
    1 ≤ 10001 ∧ (levelRanges 10001).getLast? = some [(0, 10001)] :=
  ⟨by decide, (merge_levels_tile 10001 (by decide)).2⟩

end SystemProgramming.Movies
