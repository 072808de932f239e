import Mathlib.Data.List.Sort
import Mathlib.Tactic.Ring
import SystemProgramming.Lib.Program

namespace SystemProgramming.Runs

/-! # Sorted runs

Bottom-up merging over a linear order, as facts about lists.

* `plainSort` — the sorted permutation of a list, and `eq_plainSort`: there is only one;
* `mergeRuns` — merging with a strict comparison; of two sorted runs it makes one;
* `mergeHeads` — the part of a merge in which heads are compared, for any comparison;
* `SameHeads` — two comparisons give the same answers along a merge; a sorted result tells so;
* `blocks b f` — `b` lists one after the other, of which one is changed at a time;
  `foldlM_blocks` for tasks that change one block each;
* `run l s b t` — run `t` when `l` is cut into `b` runs of length `s` whose last one is longer;
  `blocks_run` puts them together again and `run_double` joins neighbours. -/

variable {β : Type*} [LinearOrder β]

/-- The plain sort. -/
def plainSort (l : List β) : List β := l.mergeSort fun a b => decide (a ≤ b)

/-- To sort is to rearrange. -/
theorem plainSort_perm (l : List β) : (plainSort l).Perm l := List.mergeSort_perm l _

/-- The length is kept. -/
@[simp] theorem length_plainSort (l : List β) : (plainSort l).length = l.length :=
  (plainSort_perm l).length_eq

/-- The result is sorted. -/
theorem plainSort_sorted (l : List β) : (plainSort l).Pairwise (· ≤ ·) := by
  have h : (plainSort l).Pairwise fun a b => decide (a ≤ b) = true := List.pairwise_mergeSort
    (fun a b c hab hbc => decide_eq_true ((of_decide_eq_true hab).trans (of_decide_eq_true hbc)))
    (fun a b => by simpa using le_total a b) l
  exact h.imp fun hab => of_decide_eq_true hab

/-- A sorted permutation is the plain sort. -/
theorem eq_plainSort {l l' : List β} (hperm : l'.Perm l) (hsorted : l'.Pairwise (· ≤ ·)) :
    l' = plainSort l :=
  List.Perm.eq_of_pairwise (fun _ _ _ _ => le_antisymm) hsorted (plainSort_sorted l)
    (hperm.trans (plainSort_perm l).symm)

/-! ### Merging -/

/-- Merge, taking from `xs` exactly while its head is strictly smaller. -/
def mergeRuns (xs ys : List β) : List β := xs.merge ys fun a b => decide (a < b)

/-- To merge is to rearrange. -/
theorem mergeRuns_perm (xs ys : List β) : (mergeRuns xs ys).Perm (xs ++ ys) :=
  List.merge_perm_append _

/-- Nothing is lost in a merge. -/
@[simp] theorem length_mergeRuns (xs ys : List β) :
    (mergeRuns xs ys).length = xs.length + ys.length := by
  rw [(mergeRuns_perm xs ys).length_eq, List.length_append]

/-- The left run is empty. -/
@[simp] theorem mergeRuns_nil_left (ys : List β) : mergeRuns [] ys = ys := List.nil_merge ys

/-- The right run is empty. -/
@[simp] theorem mergeRuns_nil_right (xs : List β) : mergeRuns xs [] = xs := List.merge_right xs

/-- The smaller head of the left run goes first. -/
theorem mergeRuns_cons_of_lt {x y : β} {xs ys : List β} (h : x < y) :
    mergeRuns (x :: xs) (y :: ys) = x :: mergeRuns xs (y :: ys) := by
  simp [mergeRuns, h]

/-- Otherwise that of the right run does. -/
theorem mergeRuns_cons_of_not_lt {x y : β} {xs ys : List β} (h : ¬ x < y) :
    mergeRuns (x :: xs) (y :: ys) = y :: mergeRuns (x :: xs) ys := by
  simp [mergeRuns, h]

/-- **Two sorted runs make a sorted one.** -/
theorem mergeRuns_sorted {xs ys : List β} (hx : xs.Pairwise (· ≤ ·)) (hy : ys.Pairwise (· ≤ ·)) :
    (mergeRuns xs ys).Pairwise (· ≤ ·) := by
  induction xs generalizing ys with
  | nil => rwa [mergeRuns_nil_left]
  | cons x xs ihx =>
    induction ys with
    | nil => rwa [mergeRuns_nil_right]
    | cons y ys ihy =>
      obtain ⟨hx1, hx2⟩ := List.pairwise_cons.mp hx
      obtain ⟨hy1, hy2⟩ := List.pairwise_cons.mp hy
      -- the head that is taken is at most every other entry
      by_cases h : x < y
      · rw [mergeRuns_cons_of_lt h]
        refine List.pairwise_cons.mpr ⟨fun z hz => ?_, ihx hx2 hy⟩
        rcases List.mem_append.mp ((mergeRuns_perm xs (y :: ys)).mem_iff.mp hz) with hz | hz
        · exact hx1 z hz
        · rcases List.mem_cons.mp hz with rfl | hz
          · exact h.le
          · exact h.le.trans (hy1 z hz)
      · have hyx : y ≤ x := not_lt.mp h
        rw [mergeRuns_cons_of_not_lt h]
        refine List.pairwise_cons.mpr ⟨fun z hz => ?_, ihy hy2⟩
        rcases List.mem_append.mp ((mergeRuns_perm (x :: xs) ys).mem_iff.mp hz) with hz | hz
        · rcases List.mem_cons.mp hz with rfl | hz
          · exact hyx
          · exact hyx.trans (hx1 z hz)
        · exact hy1 z hz

/-- **Merging sorts**: the merge of two sorted runs is the plain sort of both together. -/
theorem mergeRuns_plainSort (xs ys : List β) :
    mergeRuns (plainSort xs) (plainSort ys) = plainSort (xs ++ ys) :=
  eq_plainSort ((mergeRuns_perm _ _).trans ((plainSort_perm xs).append (plainSort_perm ys)))
    (mergeRuns_sorted (plainSort_sorted xs) (plainSort_sorted ys))

/-! ### Merging until one run is used up -/

omit [LinearOrder β]

/-- What a merge has when one of its runs is used up: the elements taken, and what is left of the
    two runs. -/
structure Heads (β : Type*) where
  taken : List β
  left : List β
  right : List β

/-- One more element was taken before. -/
def Heads.cons (x : β) (h : Heads β) : Heads β := { h with taken := x :: h.taken }

/-- Compare the heads, taking the left one when it is smaller, until one run is used up. -/
def mergeHeads (lt : β → β → Bool) : List β → List β → Heads β
  | [], ys => ⟨[], [], ys⟩
  | x :: xs, [] => ⟨[], x :: xs, []⟩
  | x :: xs, y :: ys =>
    if lt x y then (mergeHeads lt xs (y :: ys)).cons x else (mergeHeads lt (x :: xs) ys).cons y
termination_by xs ys => xs.length + ys.length

variable {lt : β → β → Bool}

/-- The left run is empty. -/
theorem mergeHeads_nil_left (ys : List β) : mergeHeads lt [] ys = ⟨[], [], ys⟩ := by
  rw [mergeHeads]

/-- The right run is empty. -/
theorem mergeHeads_nil_right (xs : List β) : mergeHeads lt xs [] = ⟨[], xs, []⟩ := by
  cases xs <;> rw [mergeHeads]

/-- One comparison of two heads. -/
theorem mergeHeads_cons (x : β) (xs : List β) (y : β) (ys : List β) :
    mergeHeads lt (x :: xs) (y :: ys) =
      if lt x y then (mergeHeads lt xs (y :: ys)).cons x
      else (mergeHeads lt (x :: xs) ys).cons y := by
  rw [mergeHeads]

/-- One run is used up, what is left are ends of the runs, and all together it is the merge. -/
theorem mergeHeads_spec (lt : β → β → Bool) (xs ys : List β) :
    ((mergeHeads lt xs ys).left = [] ∨ (mergeHeads lt xs ys).right = []) ∧
      (mergeHeads lt xs ys).left <:+ xs ∧ (mergeHeads lt xs ys).right <:+ ys ∧
      (mergeHeads lt xs ys).taken ++ ((mergeHeads lt xs ys).left ++ (mergeHeads lt xs ys).right) =
        xs.merge ys lt := by
  -- the induction follows the heads: each step takes one from the left or one from the right
  induction xs generalizing ys with
  | nil =>
    rw [mergeHeads_nil_left]
    exact ⟨.inl rfl, List.suffix_rfl, List.suffix_rfl, (List.nil_merge ys).symm⟩
  | cons x xs ihx =>
    induction ys with
    | nil =>
      rw [mergeHeads_nil_right]
      exact ⟨.inr rfl, List.suffix_rfl, List.suffix_rfl, by simp⟩
    | cons y ys ihy =>
      rw [mergeHeads_cons, List.cons_merge_cons]
      split
      · obtain ⟨hone, hleft, hright, hmerge⟩ := ihx (y :: ys)
        exact ⟨hone, hleft.trans (List.suffix_cons x xs), hright, congrArg (x :: ·) hmerge⟩
      · obtain ⟨hone, hleft, hright, hmerge⟩ := ihy
        exact ⟨hone, hleft, hright.trans (List.suffix_cons y ys), congrArg (y :: ·) hmerge⟩

/-- Of a sorted left run is left what does not come before any element of the right run. -/
theorem mem_mergeHeads_left {γ : Type*} [LinearOrder γ] {xs ys : List γ}
    (hxs : xs.Pairwise (· ≤ ·)) {z : γ} :
    z ∈ (mergeHeads (fun a b => decide (a < b)) xs ys).left ↔ z ∈ xs ∧ ∀ y ∈ ys, ¬ z < y := by
  induction xs generalizing ys with
  | nil => simp [mergeHeads_nil_left]
  | cons x xs ihx =>
    obtain ⟨hfirst, hrest⟩ := List.pairwise_cons.mp hxs
    induction ys with
    | nil => simp [mergeHeads_nil_right]
    | cons y ys ihy =>
      rw [mergeHeads_cons]
      by_cases hlt : x < y
      · rw [if_pos (decide_eq_true hlt)]
        refine (ihx hrest).trans ⟨fun h => ⟨List.mem_cons_of_mem x h.1, h.2⟩, fun h => ⟨?_, h.2⟩⟩
        -- `x` has been taken, since it is less than `y`
        apply (List.mem_cons.mp h.1).resolve_left
        rintro rfl
        exact h.2 y List.mem_cons_self hlt
      · rw [if_neg (by simpa using hlt)]
        refine ihy.trans ⟨fun h => ⟨h.1, fun y' hy' => ?_⟩,
          fun h => ⟨h.1, fun y' hy' => h.2 y' (List.mem_cons_of_mem y hy')⟩⟩
        rcases List.mem_cons.mp hy' with rfl | hy'
        · -- `z` is `x` or comes after it
          rcases List.mem_cons.mp h.1 with rfl | hz
          · exact hlt
          · exact fun hzy => hlt ((hfirst z hz).trans_lt hzy)
        · exact h.2 y' hy'

/-- Merging by a comparison of images. -/
theorem mergeHeads_map {γ : Type*} (f : γ → β) (xs ys : List γ) :
    mergeHeads lt (xs.map f) (ys.map f) =
      ⟨(mergeHeads (fun a b => lt (f a) (f b)) xs ys).taken.map f,
        (mergeHeads (fun a b => lt (f a) (f b)) xs ys).left.map f,
        (mergeHeads (fun a b => lt (f a) (f b)) xs ys).right.map f⟩ := by
  induction xs generalizing ys with
  | nil => simp [mergeHeads_nil_left]
  | cons x xs ihx =>
    induction ys with
    | nil => simp [mergeHeads_nil_right]
    | cons y ys ihy =>
      rw [List.map_cons, List.map_cons, mergeHeads_cons, mergeHeads_cons, ← List.map_cons, ihx,
        ← List.map_cons, ihy]
      split <;> rfl

/-- Only the comparisons along the way matter: every comparison of two heads comes out alike. -/
def SameHeads (lt lt' : β → β → Bool) : List β → List β → Prop
  | [], _ => True
  | _ :: _, [] => True
  | x :: xs, y :: ys =>
    lt x y = lt' x y ∧
      if lt' x y then SameHeads lt lt' xs (y :: ys) else SameHeads lt lt' (x :: xs) ys
termination_by xs ys => xs.length + ys.length

variable {lt' : β → β → Bool}

/-- Comparisons that agree on the heads of two runs merge them alike. The heads of a step are those
    of the runs without the one that was taken. -/
theorem SameHeads.mergeHeads_eq {xs ys : List β} (h : SameHeads lt lt' xs ys) :
    mergeHeads lt xs ys = mergeHeads lt' xs ys := by
  induction xs generalizing ys with
  | nil => rw [mergeHeads_nil_left, mergeHeads_nil_left]
  | cons x xs ihx =>
    induction ys with
    | nil => rw [mergeHeads_nil_right, mergeHeads_nil_right]
    | cons y ys ihy =>
      rw [SameHeads] at h
      obtain ⟨hxy, hnext⟩ := h
      rw [mergeHeads_cons, mergeHeads_cons, hxy]
      split at hnext
      · rename_i hlt
        rw [if_pos hlt, if_pos hlt, ihx hnext]
      · rename_i hlt
        rw [if_neg hlt, if_neg hlt, ihy hnext]

/-- Two comparisons that agree on the two runs. -/
theorem SameHeads.of_eq {xs ys : List β} (h : ∀ x ∈ xs, ∀ y ∈ ys, lt x y = lt' x y) :
    SameHeads lt lt' xs ys := by
  induction xs generalizing ys with
  | nil => rw [SameHeads]; trivial
  | cons x xs ihx =>
    induction ys with
    | nil => rw [SameHeads]; trivial
    | cons y ys ihy =>
      rw [SameHeads]
      refine ⟨h x (by simp) y (by simp), ?_⟩
      split
      · exact ihx fun x' hx' => h x' (by simp [hx'])
      · exact ihy fun x' hx' y' hy' => h x' hx' y' (by simp [hy'])

/-- If the merge comes out sorted for an asymmetric relation that `lt'` decides, then `lt` has
    answered every comparison as `lt'` does. -/
theorem SameHeads.of_pairwise {R : β → β → Prop} (hR : ∀ x y, R x y → lt' x y = true ∧ lt' y x = false)
    {xs ys : List β} (h : (xs.merge ys lt).Pairwise R) : SameHeads lt lt' xs ys := by
  induction xs generalizing ys with
  | nil => rw [SameHeads]; trivial
  | cons x xs ihx =>
    induction ys with
    | nil => rw [SameHeads]; trivial
    | cons y ys ihy =>
      rw [List.cons_merge_cons] at h
      -- the head that the merge takes stands before all the rest of both runs
      rw [SameHeads]
      cases hxy : lt x y with
      | true =>
        rw [if_pos hxy] at h
        obtain ⟨hfirst, hrest⟩ := List.pairwise_cons.mp h
        have hlt := (hR x y (hfirst y (by simp [List.mem_merge]))).1
        exact ⟨hlt.symm, by rw [if_pos hlt]; exact ihx hrest⟩
      | false =>
        rw [if_neg (by simp [hxy])] at h
        obtain ⟨hfirst, hrest⟩ := List.pairwise_cons.mp h
        have hlt := (hR y x (hfirst x (by simp [List.mem_merge]))).2
        exact ⟨hlt.symm, by rw [if_neg (by simp [hlt])]; exact ihy hrest⟩

/-- The two runs of a sorted merge are sorted. -/
theorem pairwise_of_merge {R : β → β → Prop} {xs ys : List β} (h : (xs.merge ys lt).Pairwise R) :
    xs.Pairwise R ∧ ys.Pairwise R := by
  induction xs generalizing ys with
  | nil => exact ⟨.nil, by rwa [List.nil_merge] at h⟩
  | cons x xs ihx =>
    induction ys with
    | nil => exact ⟨by rwa [List.merge_right] at h, .nil⟩
    | cons y ys ihy =>
      rw [List.cons_merge_cons] at h
      split at h
      · obtain ⟨hfirst, hrest⟩ := List.pairwise_cons.mp h
        obtain ⟨hxs, hys⟩ := ihx hrest
        exact ⟨hxs.cons fun z hz => hfirst z (by simp [List.mem_merge, hz]), hys⟩
      · obtain ⟨hfirst, hrest⟩ := List.pairwise_cons.mp h
        obtain ⟨hxs, hys⟩ := ihy hrest
        exact ⟨hxs, hys.cons fun z hz => hfirst z (by simp [List.mem_merge, hz])⟩

/-- The left run comes first as a whole. -/
theorem mergeHeads_left_first {xs ys : List β} (h : ∀ x ∈ xs, ∀ y ∈ ys, lt x y = true)
    (hys : ys ≠ []) : mergeHeads lt xs ys = ⟨xs, [], ys⟩ := by
  obtain ⟨y, ys, rfl⟩ := List.exists_cons_of_ne_nil hys
  induction xs with
  | nil => rw [mergeHeads_nil_left]
  | cons x xs ih =>
    rw [mergeHeads_cons, if_pos (h x (by simp) y (by simp)), ih fun x' hx' => h x' (by simp [hx'])]
    rfl

/-- The right run comes first as a whole. -/
theorem mergeHeads_right_first {xs ys : List β} (h : ∀ x ∈ xs, ∀ y ∈ ys, lt x y = false)
    (hxs : xs ≠ []) : mergeHeads lt xs ys = ⟨ys, xs, []⟩ := by
  obtain ⟨x, xs, rfl⟩ := List.exists_cons_of_ne_nil hxs
  induction ys with
  | nil => rw [mergeHeads_nil_right]
  | cons y ys ih =>
    have hxy : ¬ lt x y = true := by simp [h x (by simp) y (by simp)]
    rw [mergeHeads_cons, if_neg hxy, ih fun x' hx' y' hy' => h x' hx' y' (by simp [hy'])]
    rfl

/-! ### Blocks -/

variable {f g : ℕ → List β} {b t n : ℕ}

/-- The blocks `f 0, …, f (b - 1)` one after the other. -/
def blocks (b : ℕ) (f : ℕ → List β) : List β := (List.range b).flatMap f

/-- The blocks after block `t`. -/
def blocksAfter (b t : ℕ) (f : ℕ → List β) : List β := (List.range' (t + 1) (b - t - 1)).flatMap f

/-- All blocks are those before one of them, this block, and those after it. -/
theorem blocks_split (ht : t < b) (f : ℕ → List β) :
    blocks b f = blocks t f ++ (f t ++ blocksAfter b t f) := by
  have hsplit : List.range b = List.range t ++ t :: List.range' (t + 1) (b - t - 1) := by
    have happend := List.range'_append_1 (s := 0) (m := t) (n := b - t - 1 + 1)
    have hlen : t + (b - t - 1 + 1) = b := by omega
    rw [Nat.zero_add, hlen] at happend
    rw [List.range_eq_range', List.range_eq_range', ← List.range'_succ, happend]
  rw [blocks, hsplit, List.flatMap_append, List.flatMap_cons]
  rfl

/-- One block more comes at the end. -/
theorem blocks_succ (t : ℕ) (f : ℕ → List β) : blocks (t + 1) f = blocks t f ++ f t := by
  rw [blocks, List.range_succ, List.flatMap_append, List.flatMap_singleton]
  rfl

/-- Blocks of one length end where they should. -/
theorem length_blocks (h : ∀ u < t, (f u).length = n) : (blocks t f).length = t * n := by
  induction t with
  | zero => simp [blocks]
  | succ t ih =>
    rw [blocks_succ, List.length_append, ih fun u hu => h u (by omega), h t (by omega),
      Nat.succ_mul]

/-- The blocks of equal functions are the same. -/
theorem blocks_congr (h : ∀ u < b, f u = g u) : blocks b f = blocks b g :=
  List.flatMap_congr fun u hu => h u (List.mem_range.mp hu)

/-- Changing one block changes nothing else. -/
theorem blocks_change (ht : t < b) (h : ∀ u < b, u ≠ t → f u = g u) :
    blocks b g = blocks t f ++ (g t ++ blocksAfter b t f) := by
  rw [blocks_split ht g, blocks_congr fun u hu => (h u (by omega) (by omega)).symm]
  congr 2
  apply List.flatMap_congr
  intro u hu
  rw [List.mem_range'_1] at hu
  exact (h u (by omega) (by omega)).symm

/-- Blocks in pairs. -/
theorem blocks_double (b : ℕ) (f : ℕ → List β) :
    blocks (2 * b) f = blocks b fun t => f (2 * t) ++ f (2 * t + 1) := by
  induction b with
  | zero => rfl
  | succ b ih =>
    rw [Nat.mul_succ, blocks_succ, blocks_succ, ih, blocks_succ, List.append_assoc]

/-- **Tasks on blocks.**  If task `t` turns block `t` from `f t` into `g t` wherever it stands, and
    the blocks before the last one keep their length `n`, then the tasks, in whatever order, turn
    all blocks. -/
theorem foldlM_blocks {σ τ ε : Type*} [DecidableEq τ] {exec : σ → τ → Except ε σ}
    {put : List β → σ} {task : ℕ → τ} (hinj : Function.Injective task) {order : List τ}
    (horder : order.Perm ((List.range b).map task))
    (hf : ∀ t, t + 1 < b → (f t).length = n) (hg : ∀ t, t + 1 < b → (g t).length = n)
    (hexec : ∀ t < b, ∀ before after : List β, before.length = t * n →
      exec (put (before ++ (f t ++ after))) (task t) = .ok (put (before ++ (g t ++ after)))) :
    order.foldlM exec (put (blocks b f)) = .ok (put (blocks b g)) := by
  -- the blocks when the tasks in `done` have run
  let block (done : Finset τ) (t : ℕ) : List β := if task t ∈ done then g t else f t
  have hphase := Program.foldlM_anyOrder exec (fun done => put (blocks b (block done)))
    (fun done u hu hnew => ?_) (List.nodup_range.map hinj) horder
  · have hnone : blocks b (block ∅) = blocks b f := blocks_congr fun t _ => by simp [block]
    have hall : blocks b (block ((List.range b).map task).toFinset) = blocks b g :=
      blocks_congr fun t ht => if_pos (List.mem_toFinset.mpr
        (List.mem_map_of_mem (List.mem_range.mpr ht)))
    rwa [hnone, hall] at hphase
  · obtain ⟨t, ht, rfl⟩ := List.mem_map.mp hu
    have ht' : t < b := List.mem_range.mp ht
    have hbefore : (blocks t (block done)).length = t * n := length_blocks fun v hv => by
      show (if task v ∈ done then g v else f v).length = n
      split
      · exact hg v (by omega)
      · exact hf v (by omega)
    have hother (v : ℕ) (_ : v < b) (hv : v ≠ t) : block done v = block (insert (task t) done) v := by
      simp [block, hinj.eq_iff, hv]
    have hold : block done t = f t := if_neg hnew
    have hnew' : block (insert (task t) done) t = g t := if_pos (Finset.mem_insert_self _ _)
    rw [blocks_split ht', blocks_change ht' hother, hold, hnew']
    exact hexec t ht' _ _ hbefore

/-! ### Cutting a list into runs -/

variable {l : List β} {s : ℕ}

/-- Run `t` of `b`: `s` elements from `t * s` on, and for the last run all that are left. -/
def run (l : List β) (s b t : ℕ) : List β :=
  if t + 1 = b then l.drop (t * s) else (l.drop (t * s)).take s

/-- A run is part of the list. -/
theorem run_sublist : (run l s b t).Sublist l := by
  unfold run
  split
  · exact List.drop_sublist _ _
  · exact (List.take_sublist _ _).trans (List.drop_sublist _ _)

/-- All runs have `s` elements, except the last, which has the rest. -/
theorem length_run (h : b * s ≤ l.length) (ht : t < b) :
    (run l s b t).length = if t + 1 = b then l.length - t * s else s := by
  have hmul : t * s + s ≤ b * s := by
    rw [← Nat.succ_mul]
    exact Nat.mul_le_mul_right s ht
  unfold run
  split
  · rw [List.length_drop]
  · rw [List.length_take, List.length_drop]
    omega

/-- The runs before the last one are the front of the list. -/
private theorem blocks_run_take (ht : t < b) : blocks t (run l s b) = l.take (t * s) := by
  induction t with
  | zero => simp [blocks]
  | succ t ih =>
    rw [blocks_succ, ih (by omega), run, if_neg (by omega), Nat.succ_mul, List.take_add]

/-- The runs make up the list. -/
theorem blocks_run (hb : 0 < b) : blocks b (run l s b) = l := by
  obtain ⟨t, rfl⟩ : ∃ t, b = t + 1 := ⟨b - 1, by omega⟩
  rw [blocks_succ, blocks_run_take (by omega), run, if_pos rfl, List.take_append_drop]

/-- Two neighbouring runs are one run of twice the length. -/
theorem run_double :
    run l (2 * s) b t = run l s (2 * b) (2 * t) ++ run l s (2 * b) (2 * t + 1) := by
  have h1 : t * (2 * s) = 2 * t * s := by ring
  have h2 : (2 * t + 1) * s = 2 * t * s + s := by ring
  have hfirst : ¬ 2 * t + 1 = 2 * b := by omega
  have hiff : 2 * t + 1 + 1 = 2 * b ↔ t + 1 = b := by omega
  simp only [run, h1, h2, ← List.drop_drop, hfirst, hiff, if_false]
  split
  · rw [List.take_append_drop]
  · rw [Nat.two_mul, List.take_add]

end SystemProgramming.Runs
