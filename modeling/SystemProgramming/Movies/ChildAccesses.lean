import SystemProgramming.Movies.AccessMerge
import SystemProgramming.Movies.Mappings

namespace SystemProgramming.Movies.Mappings

open ForkJoin Footprint

/-!
# Movie recommendation — the children, access by access

* `Maps m a` — the shared mappings hold the two arrays `a`;
* `tracks_sortChild`, `tracks_mergeChild` — when a child on the arrays ends, the child access by
  access follows it, and **touches only its own part** of the mappings.
-/

variable {α : Type} {β : Type} {lo hi p size i j : ℕ} {m : Memory (Shared.Value α)}
variable {F : Footprint Shared} {a a' : List CString × List α}

/-- The mappings hold the two arrays. -/
structure Maps (a : List CString × List α) (m : Memory (Shared.Value α)) : Prop where
  names : ∀ p s, a.1[p]? = some s → m (.pointer p) = true ∧ m (.name p) = s
  scores : ∀ p v, a.2[p]? = some v → m (.score p) = some v

/-- The part of the mappings from `lo` to `hi`; the pointers to them are only read. -/
def part (r : ℕ × ℕ) : Footprint Shared where
  uses := {k | match k with
    | .pointer p | .name p | .score p => r.1 ≤ p ∧ p < r.2
    | .out => False}
  sets := {k | match k with
    | .name p | .score p => r.1 ≤ p ∧ p < r.2
    | .pointer _ | .out => False}
  sub := by
    rintro (_ | _ | _ | _) hk
    exacts [hk.elim, hk, hk, hk.elim]

theorem part_independent {r r' : ℕ × ℕ} (h : r.2 ≤ r'.1) : Independent (part r) (part r') := by
  constructor
  · rintro (_ | p | p | _) hk hk'
    · exact hk
    · exact absurd (hk.2.trans_le (h.trans hk'.1)) (lt_irrefl p)
    · exact absurd (hk.2.trans_le (h.trans hk'.1)) (lt_irrefl p)
    · exact hk
  · rintro (_ | p | p | _) hk hk'
    · exact hk
    · exact absurd (hk'.2.trans_le (h.trans hk.1)) (lt_irrefl p)
    · exact absurd (hk'.2.trans_le (h.trans hk.1)) (lt_irrefl p)
    · exact hk

/-! ### Single accesses -/

/-- The part of the mappings from `lo` to `hi` belongs to `F`. -/
structure Owns (F : Footprint Shared) (lo hi : ℕ) : Prop where
  pointer : ∀ p, lo ≤ p → p < hi → .pointer p ∈ F.uses
  name : ∀ p, lo ≤ p → p < hi → .name p ∈ F.sets
  score : ∀ p, lo ≤ p → p < hi → .score p ∈ F.sets

theorem owns_part (r : ℕ × ℕ) : Owns (part r) r.1 r.2 :=
  ⟨fun _ hlo hhi => ⟨hlo, hhi⟩, fun _ hlo hhi => ⟨hlo, hhi⟩, fun _ hlo hhi => ⟨hlo, hhi⟩⟩

/-- Code that turns the arrays `a` into `a'`. -/
abbrev Follows (F : Footprint Shared) (t : Run α β) (a : List CString × List α) (b : β)
    (a' : List CString × List α) : Prop :=
  Tracks Maps F t a b a'

theorem follows_readName (hF : Owns F lo hi) (hlo : lo ≤ p) (hhi : p < hi) {s : CString}
    (h : loadAt a.1 p = .ok s) : Follows F (readName p) a s a := by
  intro m hm
  obtain ⟨hpointer, hname⟩ := hm.names p s (Accesses.getElem?_of_loadAt h)
  refine ⟨m, .read (hF.pointer p hlo hhi) ?_, hm⟩
  rw [hpointer, if_pos rfl]
  refine .read (F.sub (hF.name p hlo hhi)) ?_
  rw [hname]
  exact .done

theorem follows_readScore (hF : Owns F lo hi) (hlo : lo ≤ p) (hhi : p < hi) {v : α}
    (h : loadAt a.2 p = .ok v) : Follows F (readScore p) a v a := by
  intro m hm
  refine ⟨m, .read (F.sub (hF.score p hlo hhi)) ?_, hm⟩
  rw [hm.scores p v (Accesses.getElem?_of_loadAt h)]
  exact .done

theorem Owns.views (hF : Owns F lo hi) : Accesses.Views Maps F view a a lo hi where
  name _ _ hlo hhi hs := follows_readName hF hlo hhi hs
  score _ _ hlo hhi hv := follows_readScore hF hlo hhi hv

/-- A title and its score are stored. -/
theorem follows_copyPair (hF : Owns F lo hi) (hlo : lo ≤ p) (hhi : p < hi) {s : CString} {v : α}
    (h : copyPair a p s v = .ok a') :
    Follows F (do writeName p s; writeScore p v) a () a' := by
  unfold copyPair at h
  -- a pair is copied only when the title fits, else the step has failed
  split at h
  · rename_i hshort
    obtain ⟨movies, hmovies, h⟩ := Program.bind_eq_ok h
    obtain ⟨pts, hpts, h⟩ := Program.bind_eq_ok h
    cases h
    obtain ⟨hp, rfl⟩ := Accesses.lt_of_storeAt hmovies
    obtain ⟨hp', rfl⟩ := Accesses.lt_of_storeAt hpts
    intro m hm
    obtain ⟨hpointer, -⟩ := hm.names p _ (List.getElem?_eq_getElem hp)
    refine ⟨Function.update (Function.update m (.name p) s) (.score p) (some v), ?_, ?_, ?_⟩
    · have hname : Alone F (writeName p s) m () (Function.update m (.name p) s) := by
        refine .read (hF.pointer p hlo hhi) ?_
        rw [if_pos ⟨hpointer, hshort⟩]
        exact .write (hF.name p hlo hhi) .done
      exact hname.bind (.write (hF.score p hlo hhi) .done)
    · -- the copied title is at place `p`, and the other places are as before
      intro q t hq
      rw [Function.update_of_ne (by simp), Function.update_of_ne (by simp),
        Function.update_of_ne (by simp)]
      by_cases hqp : q = p
      · subst hqp
        rw [List.getElem?_set_self hp] at hq
        cases hq
        exact ⟨hpointer, Function.update_self ..⟩
      · rw [List.getElem?_set_ne (Ne.symm hqp)] at hq
        rw [Function.update_of_ne (by simpa using hqp)]
        exact hm.names q t hq
    · -- the same for the scores
      intro q t hq
      by_cases hqp : q = p
      · subst hqp
        rw [List.getElem?_set_self hp'] at hq
        cases hq
        exact Function.update_self ..
      · rw [List.getElem?_set_ne (Ne.symm hqp)] at hq
        rw [Function.update_of_ne (by simpa using hqp), Function.update_of_ne (by simp)]
        exact hm.scores q t hq
  · cases h

theorem follows_own {t : Except Fault β} {b : β} (h : t = .ok b) : Follows F (own t) a b a := by
  subst h
  exact tracks_pure b

theorem follows_present {o : Option β} {b : β} (h : o = some b) :
    Follows F (Accesses.present o) a b a := by
  subst h
  exact tracks_pure b

/-! ### The loops -/

/-- A loop that copies private arrays back. -/
theorem follows_copyBack {sub : List CString} {pts : List α} (hF : Owns F lo hi)
    (hhi : lo + j ≤ hi) (h : Program.forRange j (Movies.copyBack sub pts lo) a = .ok a') :
    Follows F (Code.forRange j (copyBack sub pts lo) ()) a () a' := by
  refine (tracks_forRange (g := copyBack sub pts lo) id (fun _ => ()) (fun _ _ => True) h trivial
    fun k hk u u' _ hstep => ⟨?_, trivial⟩).1
  obtain ⟨s, hs, hstep⟩ := Program.bind_eq_ok hstep
  obtain ⟨v, hv, hstep⟩ := Program.bind_eq_ok hstep
  have hstore := follows_copyPair hF (Nat.le_add_right lo k) (by omega) hstep
  -- inside the bounds the temporary arrays hold what the model reads
  have hname : Accesses.present sub[k]? = (Code.done s : Run α CString) := by
    rw [Accesses.getElem?_of_loadAt hs]
    rfl
  have hscore : Accesses.present pts[k]? = (Code.done v : Run α α) := by
    rw [Accesses.getElem?_of_loadAt hv]
    rfl
  unfold copyBack
  rw [hname, hscore]
  exact hstore

theorem getElem?_of_mapM {l : List β} {xs : List β}
    (h : (List.range j).mapM (fun k => loadAt l (lo + k)) = .ok xs) :
    xs.length = j ∧ ∀ k < j, ∃ x, xs[k]? = some x ∧ loadAt l (lo + k) = .ok x := by
  have hall := Program.forall₂_of_mapM h
  have hlen := hall.length_eq
  rw [List.length_range] at hlen
  refine ⟨hlen.symm, fun k hk => ?_⟩
  have hk' : k < xs.length := hlen ▸ hk
  have hget := (List.forall₂_iff_get.mp hall).2 k (by rwa [List.length_range]) hk'
  rw [List.get_eq_getElem, List.getElem_range, List.get_eq_getElem] at hget
  exact ⟨xs[k], List.getElem?_eq_getElem hk', hget⟩

/-- The loop that copies a chunk to private arrays. -/
theorem follows_copyOut {sub : List CString} {pts : List α} (hF : Owns F lo hi) (hhi : lo + j ≤ hi)
    (hsub : (List.range j).mapM (fun k => loadAt a.1 (lo + k)) = .ok sub)
    (hpts : (List.range j).mapM (fun k => loadAt a.2 (lo + k)) = .ok pts) :
    Follows F (Code.forRange j (copyOut lo) ([], [])) a (sub, pts) a := by
  obtain ⟨hsublen, hsub⟩ := getElem?_of_mapM hsub
  obtain ⟨hptslen, hpts⟩ := getElem?_of_mapM hpts
  have hcount : Program.forRange (ε := Fault) j (fun k _ => .ok (k + 1)) 0 = .ok j :=
    Program.forRange_eq id rfl fun _ _ => rfl
  -- after `k` iterations the first `k` entries are copied
  have hloop := (tracks_forRange (R := Maps) (F := F) (g := copyOut lo) (fun _ => a)
    (fun k => (sub.take k, pts.take k)) (fun i k => k = i) hcount rfl fun i hi k k' hk hstep => by
      subst hk
      cases hstep
      obtain ⟨s, hs, hname⟩ := hsub k hi
      obtain ⟨v, hv, hscore⟩ := hpts k hi
      have hread := follows_readName hF (Nat.le_add_right lo k) (by omega) hname
      refine ⟨?_, rfl⟩
      refine hread.bind (hread.bind ((follows_readScore hF (by omega) (by omega) hscore).bind ?_))
      rw [List.take_add_one, List.take_add_one, hs, hv]
      exact tracks_pure _).1
  rwa [List.take_of_length_le hsublen.le, List.take_of_length_le hptslen.le] at hloop

/-- The loop over the rest of the left run. -/
theorem follows_appendLeft {room l : ℕ} {x x' : Merging α} (hF : Owns F lo hi) (hlo : lo ≤ l)
    (hhi : l + j ≤ hi) (h : Program.forRange j (Movies.appendLeft a room l) x = .ok x') :
    Follows F (Code.forRange j (appendLeft room l) x) a x' a ∧
      x'.newname.length = x.newname.length + j := by
  refine tracks_forRange (g := appendLeft room l) (fun _ => a) id
    (fun i y => y.newname.length = x.newname.length + i) h rfl fun k hk y y' hy hstep => ?_
  obtain ⟨s, hs, hstep⟩ := Program.bind_eq_ok hstep
  obtain ⟨v, hv, hpush⟩ := Program.bind_eq_ok hstep
  have hread := follows_readName hF (by omega) (by omega) hs
  refine ⟨hread.bind (hread.bind ((follows_readScore hF hlo (by omega) hv).bind
    (follows_own hpush))), ?_⟩
  rw [(Accesses.push_length hpush).2.2, hy, Nat.add_assoc]

/-! ### The children -/

variable [Score α] {numOfMovies base : ℕ} {d : Data α}

/-- The part of the arrays that child `i` of a level works on. -/
def childRange (d : Data α) (base size i : ℕ) : ℕ × ℕ :=
  (size * i, if i + 1 = base then size * (i + 1) + d.left else size * (i + 1))

/-- **A child that sorts** touches only its chunk. -/
theorem tracks_sortChild (h : Movies.sortChild numOfMovies d size a i = .ok a') :
    Follows (part (childRange d d.base size i)) (sortChild numOfMovies d size i) a () a' := by
  obtain ⟨sub, hsub, h⟩ := Program.bind_eq_ok h
  obtain ⟨pts, hpts, h⟩ := Program.bind_eq_ok h
  obtain ⟨⟨sub', pts'⟩, hsort, h⟩ := Program.bind_eq_ok h
  have hF := owns_part (childRange d d.base size i)
  have hhi : size * i + (if i + 1 = d.base then size + d.left else size) ≤
      (childRange d d.base size i).2 := by
    unfold childRange
    split
    · rw [Nat.mul_succ]
      omega
    · rw [Nat.mul_succ]
  exact (follows_copyOut hF hhi hsub hpts).bind <|
    (follows_own hsort).bind (follows_copyBack hF hhi h)

/-- **A child that merges** touches only its two runs. -/
theorem tracks_mergeChild (h : Movies.mergeChild d base size a i = .ok a') :
    Follows (part (childRange d base size i)) (mergeChild d base size i) a () a' := by
  obtain ⟨x, hx, h⟩ := Program.bind_eq_ok h
  obtain ⟨y, hy, h⟩ := Program.bind_eq_ok h
  have hF := owns_part (childRange d base size i)
  -- the middle of the child's part lies inside it, also in the last part, which is longer
  have hmid : size * i + size / 2 ≤ (childRange d base size i).2 := by
    unfold childRange
    split
    · rw [Nat.mul_succ]
      omega
    · rw [Nat.mul_succ]
      omega
  -- the three loops stay inside the part, which is what the bounds say
  obtain ⟨hloop, htaken⟩ := Accesses.tracks_mergeLoop (u := a) hF.views hmid le_rfl
    (show (childRange d base size i).1 ≤ size * i + size / 2 from Nat.le_add_right _ _) hx
  have hl : size * i ≤ x.l := htaken.left
  have hl' : x.l ≤ size * i + size / 2 := htaken.mid (Nat.le_add_right _ _)
  have hr : x.r ≤ (childRange d base size i).2 := htaken.stop hmid
  have hcount := htaken.count
  simp only [List.length_nil, Nat.zero_add] at hcount
  obtain ⟨hleft, hlen⟩ := follows_appendLeft hF hl (by omega) hy
  exact hloop.bind (hleft.bind (follows_copyBack hF (by
    show size * i + y.newname.length ≤ _
    omega) h))

/-- **Every child** touches only its part of the mappings. -/
theorem tracks_child (h : Movies.child numOfMovies d base size a i = .ok a') :
    Follows (part (childRange d base size i)) (child numOfMovies d base size i) a () a' := by
  unfold Movies.child at h
  unfold child
  split at h
  · rename_i hbase
    rw [if_pos hbase, ← hbase]
    exact tracks_sortChild h
  · rename_i hbase
    rw [if_neg hbase]
    exact tracks_mergeChild h

end SystemProgramming.Movies.Mappings
