import SystemProgramming.Movies.Accesses

namespace SystemProgramming.Movies.Accesses

open ForkJoin

/-!
# Movie recommendation — `sort`, access by access

* `Holds m n d` — the memory `m` holds the data `d` of request `n`;
* `Follows F n t d b d'` — on a memory that holds `d`, the code `t` returns `b` and leaves `d'`, and
  accesses only what `F` allows;
* `follows_sort` — when the chunk sort on the arrays ends, the sort access by access follows it, and
  **touches only its own chunk**.
-/

variable {α : Type} {β γ : Type} {n off size lo hi p i j : ℕ} {m m' : Memory (Cell.Value α)}
variable {d d' d₁ : Data α} {F : Footprint Cell} {a a' : List CString × List α}

/-- A field of `d[n]`. -/
def field (d : Data α) : Cut → ℕ
  | .cnt => d.cnt
  | .base => d.base
  | .size => d.size
  | .left => d.left

/-- The memory holds the data of request `n`. -/
structure Holds (m : Memory (Cell.Value α)) (n : ℕ) (d : Data α) : Prop where
  names : ∀ p, m (.moviename n p) = d.moviename[p]?
  scores : ∀ p, m (.moviescore n p) = d.moviescore[p]?
  data : ∀ f, m (.data n f) = field d f

/-- On a memory with the data `d` of request `n`, the code returns `b` and leaves `d'`. -/
def Follows (F : Footprint Cell) (n : ℕ) (t : Run α β) (d : Data α) (b : β) (d' : Data α) : Prop :=
  Tracks (fun d m => Holds m n d) F t d b d'

/-- The data with other arrays. -/
def arrays (d : Data α) (a : List CString × List α) : Data α :=
  { d with moviename := a.1, moviescore := a.2 }

/-- Code that follows the model, one part after the other. -/
theorem Follows.bind {t : Run α β} {f : β → Run α γ} {b : β} {c : γ} (h : Follows F n t d b d₁)
    (hf : Follows F n (f b) d₁ c d') : Follows F n (t >>= f) d c d' :=
  Tracks.bind h hf

/-- A result is given back without an access. -/
theorem follows_pure (b : β) : Follows F n (pure b : Run α β) d b d := tracks_pure b

/-! ### Single accesses -/

/-- The part of the arrays of request `n` from `lo` to `hi` belongs to `F`. -/
def Owns (F : Footprint Cell) (n lo hi : ℕ) : Prop :=
  ∀ p, lo ≤ p → p < hi → .moviename n p ∈ F.sets ∧ .moviescore n p ∈ F.sets

/-- What is loaded is in the list. -/
theorem getElem?_of_loadAt {l : List β} {x : β} (h : loadAt l p = .ok x) : l[p]? = some x := by
  unfold loadAt at h
  split at h
  · rename_i hx
    rw [hx, Except.ok.inj h]
  · cases h

/-- The one element more is at the end. -/
theorem getElem?_append_singleton (l : List β) (x : β) (p : ℕ) :
    (l ++ [x])[p]? = if p = l.length then some x else l[p]? := by
  split
  · rename_i hp
    rw [hp, List.getElem?_concat_length]
  · rename_i hp
    rcases Nat.lt_or_gt_of_ne hp with hlt | hgt
    · rw [List.getElem?_append_left hlt]
    · rw [List.getElem?_eq_none (by simp; omega), List.getElem?_eq_none (by omega)]

/-- A store that succeeds is in range, and replaces one element. -/
theorem lt_of_storeAt {l l' : List β} {x : β} (h : storeAt l p x = .ok l') :
    p < l.length ∧ l' = l.set p x := by
  unfold storeAt at h
  split at h
  · exact ⟨‹_›, (Except.ok.inj h).symm⟩
  · cases h

/-- The names of the slots are in the footprint. -/
theorem Owns.name (h : Owns F n lo hi) (hlo : lo ≤ p) (hhi : p < hi) : .moviename n p ∈ F.sets :=
  (h p hlo hhi).1

/-- And so are their scores. -/
theorem Owns.score (h : Owns F n lo hi) (hlo : lo ≤ p) (hhi : p < hi) :
    .moviescore n p ∈ F.sets :=
  (h p hlo hhi).2

/-- A read of a name finds the name of the model. -/
theorem follows_readName {s : CString} (h : loadAt d.moviename p = .ok s)
    (hp : .moviename n p ∈ F.sets) : Follows F n (readName n p) d s d := by
  intro m hm
  refine ⟨m, .read (F.sub hp) ?_, hm⟩
  rw [hm.names, getElem?_of_loadAt h]
  exact .done

/-- A read of a score finds the score of the model. -/
theorem follows_readScore {v : α} (h : loadAt d.moviescore p = .ok v)
    (hp : .moviescore n p ∈ F.sets) : Follows F n (readScore n p) d v d := by
  intro m hm
  refine ⟨m, .read (F.sub hp) ?_, hm⟩
  rw [hm.scores, getElem?_of_loadAt h]
  exact .done

/-- A read of a field of `Data` finds that of the model. -/
theorem follows_readData {f : Cut} (hf : .data n f ∈ F.uses) :
    Follows F n (readData n f) d (field d f) d := by
  intro m hm
  refine ⟨m, .read hf ?_, hm⟩
  rw [hm.data]
  exact .done

/-- The memory after a title has been written. -/
theorem Holds.setName {s : CString} (hm : Holds m n d) (hp : p < d.moviename.length) :
    Holds (Function.update m (.moviename n p) (some s)) n
      { d with moviename := d.moviename.set p s } where
  names q := by
    by_cases hq : q = p
    · subst hq
      simp [hp]
    · rw [Function.update_of_ne (by simpa using hq), hm.names, List.getElem?_set_ne (Ne.symm hq)]
  scores q := by
    rw [Function.update_of_ne (by simp), hm.scores]
  data f := by
    rw [Function.update_of_ne (by simp), hm.data]
    cases f <;> rfl

/-- To write a score is to replace it in the model. -/
theorem Holds.setScore {v : α} (hm : Holds m n d) (hp : p < d.moviescore.length) :
    Holds (Function.update m (.moviescore n p) (some v)) n
      { d with moviescore := d.moviescore.set p v } where
  names q := by
    rw [Function.update_of_ne (by simp), hm.names]
  scores q := by
    by_cases hq : q = p
    · subst hq
      simp [hp]
    · rw [Function.update_of_ne (by simpa using hq), hm.scores, List.getElem?_set_ne (Ne.symm hq)]
  data f := by
    rw [Function.update_of_ne (by simp), hm.data]
    cases f <;> rfl

/-- A write of a name follows the store of the model. -/
theorem follows_writeName {s : CString} {movies : List CString}
    (h : storeAt d.moviename p s = .ok movies) (hp : .moviename n p ∈ F.sets) :
    Follows F n (writeName n p s) d () { d with moviename := movies } := by
  intro m hm
  obtain ⟨hlt, rfl⟩ := lt_of_storeAt h
  exact ⟨_, .write hp .done, hm.setName hlt⟩

/-- A write of a score follows the store of the model. -/
theorem follows_writeScore {v : α} {pts : List α} (h : storeAt d.moviescore p v = .ok pts)
    (hp : .moviescore n p ∈ F.sets) :
    Follows F n (writeScore n p v) d () { d with moviescore := pts } := by
  intro m hm
  obtain ⟨hlt, rfl⟩ := lt_of_storeAt h
  exact ⟨_, .write hp .done, hm.setScore hlt⟩

/-! ### `sort` -/

variable [Score α]

/-- One iteration of `argmax` at an index of the chunk. -/
theorem follows_argmaxStep {c c' : Candidate α} (hF : Owns F n off (off + size)) (hi : i < size)
    (hc : c.ret < size)
    (h : Movies.argmaxStep d.moviescore d.moviename off c i = .ok c') :
    Follows F n (argmaxStep n off c i) d c' d ∧ c'.ret < size := by
  obtain ⟨v, hv, h⟩ := Program.bind_eq_ok h
  -- the cases are those of the comparison: higher, equal, lower
  have hread := follows_readScore hv (hF.score (Nat.le_add_right off i) (by omega))
  split at h
  · rename_i hgt
    cases h
    refine ⟨hread.bind ?_, hi⟩
    rw [if_pos hgt]
    exact hread.bind (follows_pure _)
  · rename_i hgt
    split at h
    · -- equal scores are told apart by the titles, so both are read
      rename_i heq
      obtain ⟨s, hs, h⟩ := Program.bind_eq_ok h
      obtain ⟨s', hs', h⟩ := Program.bind_eq_ok h
      have hret := follows_readName hs (hF.name (Nat.le_add_right off c.ret) (by omega))
      have hat := follows_readName hs' (hF.name (Nat.le_add_right off i) (by omega))
      have hcmp : c'.ret < size ∧ (if strcmp s s' = .gt then { c with ret := i } else c) = c' := by
        split at h
        · rename_i hgt
          cases h
          exact ⟨hi, if_pos hgt⟩
        · rename_i hgt
          cases h
          exact ⟨hc, if_neg hgt⟩
      refine ⟨hread.bind ?_, hcmp.1⟩
      rw [if_neg hgt]
      refine hread.bind ?_
      rw [if_pos heq]
      refine hret.bind (hat.bind ?_)
      rw [← hcmp.2]
      split
      · exact follows_pure _
      · exact follows_pure _
    · rename_i hne
      cases h
      refine ⟨hread.bind ?_, hc⟩
      rw [if_neg hgt]
      refine hread.bind ?_
      rw [if_neg hne]
      exact follows_pure _

/-- The whole loop: the index that the model finds. By induction on the number of iterations. -/
theorem follows_argmax {idx : ℕ} (hF : Owns F n off (off + size)) (hi : i < size)
    (h : Movies.argmax d.moviescore d.moviename off i size = .ok idx) :
    Follows F n (argmax n off i size) d idx d := by
  obtain ⟨c, hloop, h⟩ := Program.bind_eq_ok h
  have hsim := tracks_forRange (R := fun d m => Holds m n d) (F := F)
    (g := fun c k => argmaxStep n off c (i + k)) (fun _ : Candidate α => d) id (fun _ c => c.ret < size) hloop hi fun k hk u u' hu hstep =>
      follows_argmaxStep hF (by omega) hu hstep
  refine hsim.1.bind ?_
  split at h
  · rename_i hmax
    cases h
    rw [id, if_pos hmax]
    exact follows_pure _
  · cases h

omit [Score α] in
/-- A swap of two slots, with the four reads and writes it takes. -/
theorem follows_swap (hF : Owns F n lo hi) (hi₁ : lo ≤ i) (hi₂ : i < hi) (hj₁ : lo ≤ j) (hj₂ : j < hi)
    (h : Movies.swap a.1 a.2 i j = .ok a') :
    Follows F n (swap n i j) (arrays d a) () (arrays d a') := by
  obtain ⟨s, hs, h⟩ := Program.bind_eq_ok h
  obtain ⟨s', hs', h⟩ := Program.bind_eq_ok h
  obtain ⟨movies, hmovies, h⟩ := Program.bind_eq_ok h
  obtain ⟨movies', hmovies', h⟩ := Program.bind_eq_ok h
  obtain ⟨v, hv, h⟩ := Program.bind_eq_ok h
  obtain ⟨v', hv', h⟩ := Program.bind_eq_ok h
  obtain ⟨pts, hpts, h⟩ := Program.bind_eq_ok h
  obtain ⟨pts', hpts', h⟩ := Program.bind_eq_ok h
  cases h
  -- the accesses in the order of the source: read both, write both, titles before scores
  exact (follows_readName hs (hF.name hi₁ hi₂)).bind <|
    (follows_readName hs' (hF.name hj₁ hj₂)).bind <|
    (follows_writeName hmovies (hF.name hi₁ hi₂)).bind <|
    (follows_writeName hmovies' (hF.name hj₁ hj₂)).bind <|
    (follows_readScore hv (hF.score hi₁ hi₂)).bind <|
    (follows_readScore hv' (hF.score hj₁ hj₂)).bind <|
    (follows_writeScore hpts (hF.score hi₁ hi₂)).bind
    (follows_writeScore hpts' (hF.score hj₁ hj₂))

omit [Score α] in
/-- The suffix is appended to a name. -/
theorem follows_addSecretAt {movies : List CString} (hp : .moviename n i ∈ F.sets)
    (h : Movies.addSecretAt a.1 i = .ok movies) :
    Follows F n (addSecretAt n i) (arrays d a) () (arrays d (movies, a.2)) := by
  obtain ⟨s, hs, h⟩ := Program.bind_eq_ok h
  obtain ⟨s', hs', h⟩ := Program.bind_eq_ok h
  have hread := follows_readName (d := arrays d a) hs hp
  have hshort : s.length < 0xff := by
    unfold addSecret at hs'
    split at hs'
    · assumption
    · cases hs'
  rw [← eq_of_addSecret hs'] at h
  refine hread.bind (hread.bind ?_)
  rw [if_pos hshort]
  exact follows_writeName h hp

/-- One iteration of the outer loop. -/
theorem follows_sortStep (hF : Owns F n off (off + size)) (hi : i + 1 < size)
    (h : Movies.sortStep off size a i = .ok a') :
    Follows F n (sortStep n off size () i) (arrays d a) () (arrays d a') := by
  obtain ⟨movies, pts⟩ := a
  obtain ⟨idx, hidx, h⟩ := Program.bind_eq_ok h
  refine (follows_argmax (d := arrays d (movies, pts)) hF (by omega) hidx).bind ?_
  split at h
  · rename_i hlt
    obtain ⟨⟨movies₁, pts₁⟩, hswap, h⟩ := Program.bind_eq_ok h
    obtain ⟨movies₂, hsecret, h⟩ := Program.bind_eq_ok h
    cases h
    rw [if_pos hlt]
    exact (follows_swap hF (by omega) (by omega) (by omega) (by omega) hswap).bind
      (follows_addSecretAt (a := (movies₁, pts₁)) (hF.name (by omega) (by omega)) hsecret)
  · cases h

omit [Score α] in
/-- Every name of the chunk is read for its length. -/
theorem follows_validate {numOfMovies : ℕ} (hF : Owns F n off (off + size))
    (h : Movies.validate numOfMovies d.moviename off size = .ok ()) :
    Follows F n (validate numOfMovies n off size) d () d := by
  unfold Movies.validate at h
  unfold validate
  split at h
  · rename_i hsize
    rw [if_pos hsize]
    refine (tracks_forRange (fun _ => d) id (fun _ _ => True) h trivial fun i hi _ _ _ hstep => ?_).1
    refine ⟨?_, trivial⟩
    cases hs : loadAt d.moviename (off + i) with
    | error => rw [hs] at hstep; cases hstep
    | ok s => exact (follows_readName hs (hF.name (by omega) (by omega))).bind (follows_pure _)
  · cases h

/-- **The chunk sort access by access.**  It follows the sort of the two arrays, and touches only the
    slots of its chunk. -/
theorem follows_sort {numOfMovies : ℕ} (hF : Owns F n off (off + size)) (hsize : 0 < size)
    (h : Movies.sort numOfMovies d.moviename d.moviescore off size = .ok a') :
    Follows F n (sort numOfMovies n off size) d () (arrays d a') := by
  obtain ⟨_, hvalid, h⟩ := Program.bind_eq_ok h
  obtain ⟨⟨movies, pts⟩, hloop, h⟩ := Program.bind_eq_ok h
  have hsim := (tracks_forRange (R := fun d m => Holds m n d) (F := F)
    (g := sortStep n off size) (arrays d) (fun _ => ()) (fun _ _ => True) hloop trivial fun i hi u u' _ hstep =>
      ⟨follows_sortStep hF (by omega) hstep, trivial⟩).1
  refine (follows_validate hF hvalid).bind (hsim.bind ?_)
  have hne : off + size ≠ 0 := by omega
  simp only [if_neg hne] at h
  obtain ⟨movies', hsecret, h⟩ := Program.bind_eq_ok h
  cases h
  rw [if_neg hne]
  exact follows_addSecretAt (hF.name (by omega) (by omega)) hsecret

end SystemProgramming.Movies.Accesses
