import SystemProgramming.Movies.AccessSort
import SystemProgramming.Movies.Levels

namespace SystemProgramming.Movies.Accesses

open ForkJoin

/-!
# Movie recommendation — `truemerge`, access by access

* `tracks_mergeLoop` — the comparison loop touches only the two runs, however it reads them;
* `follows_keepLeft` / `follows_writeBack` — the loops that overwrite titles, each of which is freed
  before it gets its new value;
* `alone_truemerge` — when `truemerge` on the arrays ends, the code access by access follows it, and
  **touches only its two runs**.
-/

variable {α : Type} {lo room mid stop p : ℕ} {x x' : Merging α}

/-! ### The comparison loop -/

section Loop

variable {κ σ : Type} [DecidableEq κ] {V : κ → Type} {R : σ → Memory V → Prop} {F : Footprint κ}
variable {view : View V α} {u : σ} {a : List CString × List α}

/-- Where the memory represents `u`, reading the arrays from `lo` to `hi` gives the elements of `a`. -/
structure Views (R : σ → Memory V → Prop) (F : Footprint κ) (view : View V α) (u : σ)
    (a : List CString × List α) (lo hi : ℕ) : Prop where
  name : ∀ p s, lo ≤ p → p < hi → loadAt a.1 p = .ok s → Tracks R F (view.name p) u s u
  score : ∀ p v, lo ≤ p → p < hi → loadAt a.2 p = .ok v → Tracks R F (view.score p) u v u

/-- One entry is taken to the temporaries. -/
theorem tracks_push (hF : Views R F view u a lo stop) (hlo : lo ≤ p) (hp : p < stop) {s : CString}
    {v : α} (hs : loadAt a.1 p = .ok s) (hv : loadAt a.2 p = .ok v)
    (h : x.push room s v = .ok x') : Tracks R F (push view room x p) u x' u := by
  have hread := hF.name p s hlo hp hs
  refine hread.bind (hread.bind ((hF.score p v hlo hp hv).bind ?_))
  unfold Merging.push at h
  split at h
  · rename_i hroom
    cases h
    rw [if_pos hroom]
    exact tracks_pure _
  · cases h

/-- What the comparison loop has taken between two of its states. -/
structure Taken (mid stop : ℕ) (x x' : Merging α) : Prop where
  left : x.l ≤ x'.l
  right : x.r ≤ x'.r
  count : x'.newname.length + (x.l + x.r) = x.newname.length + (x'.l + x'.r)
  mid : x.l ≤ mid → x'.l ≤ mid
  stop : x.r ≤ stop → x'.r ≤ stop

/-- Two steps take what both take. -/
theorem Taken.trans {x'' : Merging α} (h : Taken mid stop x x') (h' : Taken mid stop x' x'') :
    Taken mid stop x x'' where
  left := h.left.trans h'.left
  right := h.right.trans h'.right
  count := by
    have hcount := h.count
    have hcount' := h'.count
    omega
  mid hx := h'.mid (h.mid hx)
  stop hx := h'.stop (h.stop hx)

/-- A push takes nothing from the runs and uses one temporary. -/
theorem push_length {s : CString} {v : α} (h : x.push room s v = .ok x') :
    x'.l = x.l ∧ x'.r = x.r ∧ x'.newname.length = x.newname.length + 1 := by
  unfold Merging.push at h
  split at h
  · cases h
    exact ⟨rfl, rfl, List.length_append⟩
  · cases h

/-- **The left head is taken**: a slot of the left run is read. -/
theorem tracks_takeLeft (hF : Views R F view u a lo stop) (hlo : lo ≤ x.l) (hl : x.l < mid)
    (hmid : mid ≤ stop) (h : x.takeLeft a.1 a.2 room = .ok x') :
    Tracks R F (takeLeft view room x) u x' u ∧ Taken mid stop x x' := by
  obtain ⟨s, hs, h⟩ := Program.bind_eq_ok h
  obtain ⟨v, hv, h⟩ := Program.bind_eq_ok h
  obtain ⟨y, hy, h⟩ := Program.bind_eq_ok h
  cases h
  obtain ⟨-, hr, hlen⟩ := push_length hy
  refine ⟨(tracks_push hF hlo (by omega) hs hv hy).bind (tracks_pure _), ?_⟩
  constructor <;> simp only [hr, hlen] <;> omega

/-- **The right head is taken**: a slot of the right run is read. -/
theorem tracks_takeRight (mid : ℕ) (hF : Views R F view u a lo stop) (hlo : lo ≤ x.r)
    (hr : x.r < stop) (h : x.takeRight a.1 a.2 room = .ok x') :
    Tracks R F (takeRight view room x) u x' u ∧ Taken mid stop x x' := by
  obtain ⟨s, hs, h⟩ := Program.bind_eq_ok h
  obtain ⟨v, hv, h⟩ := Program.bind_eq_ok h
  obtain ⟨y, hy, h⟩ := Program.bind_eq_ok h
  cases h
  obtain ⟨hl, -, hlen⟩ := push_length hy
  refine ⟨(tracks_push hF hlo hr hs hv hy).bind (tracks_pure _), ?_⟩
  constructor <;> simp only [hl, hlen] <;> omega

variable [Score α]

/-- One comparison: one of the two heads moves on. -/
theorem tracks_mergeStep (hF : Views R F view u a lo stop) (hmid : mid ≤ stop) (hl : lo ≤ x.l)
    (hl' : x.l < mid) (hr : lo ≤ x.r) (hr' : x.r < stop)
    (h : Movies.mergeStep a.1 a.2 room x = .ok x') :
    Tracks R F (mergeStep view room x) u x' u ∧ Taken mid stop x x' := by
  obtain ⟨v, hv, h⟩ := Program.bind_eq_ok h
  obtain ⟨v', hv', h⟩ := Program.bind_eq_ok h
  have hcompare {t : α → α → Code V Fault (Merging α)} (ht : Tracks R F (t v v') u x' u) :
      Tracks R F (do t (← view.score x.l) (← view.score x.r)) u x' u :=
    (hF.score _ v hl (by omega) hv).bind ((hF.score _ v' hr hr' hv').bind ht)
  by_cases hgt : v > v'
  · rw [if_pos hgt] at h
    obtain ⟨htake, htaken⟩ := tracks_takeLeft hF hl hl' hmid h
    refine ⟨hcompare ?_, htaken⟩
    rwa [if_pos hgt]
  · rw [if_neg hgt] at h
    by_cases hlt : v < v'
    · rw [if_pos hlt] at h
      obtain ⟨htake, htaken⟩ := tracks_takeRight mid hF hr hr' h
      refine ⟨hcompare ?_, htaken⟩
      rw [if_neg hgt]
      refine hcompare ?_
      rwa [if_pos hlt]
    · -- equal scores: the titles decide
      rw [if_neg hlt] at h
      obtain ⟨s, hs, h⟩ := Program.bind_eq_ok h
      obtain ⟨s', hs', h⟩ := Program.bind_eq_ok h
      have hbranch : Tracks R F (if strcmp s s' = .lt then takeLeft view room x
          else takeRight view room x) u x' u ∧ Taken mid stop x x' := by
        split at h
        · rw [if_pos ‹_›]
          exact tracks_takeLeft hF hl hl' hmid h
        · rw [if_neg ‹_›]
          exact tracks_takeRight mid hF hr hr' h
      refine ⟨hcompare ?_, hbranch.2⟩
      rw [if_neg hgt]
      refine hcompare ?_
      rw [if_neg hlt]
      exact (hF.name _ s hl (by omega) hs).bind ((hF.name _ s' hr hr' hs').bind hbranch.1)

/-- **The comparison loop** touches only the two runs. -/
theorem tracks_mergeLoop {fuel : ℕ} (hF : Views R F view u a lo stop) (hmid : mid ≤ stop)
    (hl : lo ≤ x.l) (hr : lo ≤ x.r) (h : Movies.mergeLoop a.1 a.2 room mid stop fuel x = .ok x') :
    Tracks R F (mergeLoop view room mid stop fuel x) u x' u ∧ Taken mid stop x x' := by
  induction fuel generalizing x with
  | zero => cases h
  | succ fuel ih =>
    rw [Movies.mergeLoop] at h
    rw [mergeLoop]
    -- a round of the loop while both halves last, and the accesses follow it cell by cell
    by_cases hguard : x.l < mid ∧ x.r < stop
    · rw [if_pos hguard] at h ⊢
      obtain ⟨y, hy, h⟩ := Program.bind_eq_ok h
      obtain ⟨hstep, htaken⟩ := tracks_mergeStep hF hmid hl hguard.1 hr hguard.2 hy
      obtain ⟨hrest, htaken'⟩ := ih (hl.trans htaken.left) (hr.trans htaken.right) h
      exact ⟨hstep.bind hrest, htaken.trans htaken'⟩
    · rw [if_neg hguard] at h ⊢
      cases h
      exact ⟨tracks_pure _, le_rfl, le_rfl, rfl, id, id⟩

end Loop

variable {n l k : ℕ} {m : Memory (Cell.Value α)} {d : Data α} {F : Footprint Cell}
variable {a a' : List CString × List α}

/-- The arrays of a request, seen by the loop of `truemerge`. -/
theorem Owns.views (hF : Owns F n lo stop) :
    Views (fun d m => Holds m n d) F (requestView n) d (d.moviename, d.moviescore) lo stop where
  name _ _ hlo hp hs := follows_readName hs (hF.name hlo hp)
  score _ _ hlo hp hv := follows_readScore hv (hF.score hlo hp)

/-! ### Overwriting -/

/-- A name that is there is given back. -/
theorem alone_freeName {s : CString} (hm : m (.moviename n p) = some s)
    (hp : .moviename n p ∈ F.sets) :
    Alone F (freeName n p) m () (Function.update m (.moviename n p) none) := by
  refine .read (F.sub hp) ?_
  rw [hm]
  exact .write hp .done

/-- A name that is there is read. -/
theorem alone_readName {s : CString} (hm : m (.moviename n p) = some s)
    (hp : .moviename n p ∈ F.sets) : Alone F (readName n p) m s m := by
  refine .read (F.sub hp) ?_
  rw [hm]
  exact .done

/-- A title is freed and replaced by one that comes from elsewhere. -/
theorem follows_replaceName {s : CString} {movies : List CString} {t : Run α CString}
    {rest : Run α Unit} {d' : Data α} (h : storeAt d.moviename p s = .ok movies)
    (hp : .moviename n p ∈ F.sets)
    (ht : ∀ m, Holds m n d → Alone F t (Function.update m (.moviename n p) none) s
      (Function.update m (.moviename n p) none))
    (hrest : Follows F n rest { d with moviename := movies } () d') :
    Follows F n (do freeName n p; let s ← t; writeName n p s; rest) d () d' := by
  intro m hm
  obtain ⟨hlt, rfl⟩ := lt_of_storeAt h
  have hold : m (.moviename n p) = some d.moviename[p] := by
    rw [hm.names, List.getElem?_eq_getElem hlt]
  obtain ⟨m', hrun, hm'⟩ := hrest _ (hm.setName hlt)
  refine ⟨m', (alone_freeName hold hp).bind ((ht m hm).bind (.write hp ?_)), hm'⟩
  rw [Function.update_idem]
  exact hrun

/-- One iteration of the loop over the rest of the left run. -/
theorem follows_keepLeft (hF : Owns F n lo stop) (hlo : lo ≤ l + k) (hk : l + k < mid)
    (hroom : (mid - lo) + mid ≤ stop) (h : Movies.keepLeft mid stop l a k = .ok a') :
    Follows F n (keepLeft n mid stop l () k) (arrays d a) () (arrays d a') := by
  obtain ⟨s, hs, h⟩ := Program.bind_eq_ok h
  obtain ⟨v, hv, h⟩ := Program.bind_eq_ok h
  obtain ⟨movies, hmovies, h⟩ := Program.bind_eq_ok h
  obtain ⟨pts, hpts, h⟩ := Program.bind_eq_ok h
  cases h
  -- the target lies behind the left run
  have hdst : mid ≤ stop - (mid - (l + k)) := by omega
  have hread (m : Memory (Cell.Value α)) (hm : Holds m n (arrays d a)) :
      Alone F (do let _ ← readName n (l + k); readName n (l + k))
        (Function.update m (.moviename n (stop - (mid - (l + k)))) none) s
        (Function.update m (.moviename n (stop - (mid - (l + k)))) none) := by
    have hname : Function.update m (.moviename n (stop - (mid - (l + k)))) none
        (.moviename n (l + k)) = some s := by
      rw [Function.update_of_ne, hm.names]
      · exact getElem?_of_loadAt hs
      simp only [ne_eq, Cell.moviename.injEq, true_and]
      omega
    have halone := alone_readName hname (hF.name hlo (by omega))
    exact halone.bind halone
  have hscore := (follows_readScore (d := arrays d (movies, a.2)) hv (hF.score hlo (by omega))).bind
    (follows_writeScore hpts (hF.score (by omega) (by omega)))
  have hall := follows_replaceName (d := arrays d a) hmovies (hF.name (by omega) (by omega)) hread
    hscore
  rwa [bind_assoc] at hall

/-- One iteration of the loop that copies the temporaries back. -/
theorem follows_writeBack {newname : List CString} {newscore : List α} (hF : Owns F n lo stop)
    (hk : lo + k < stop) (h : Movies.writeBack newname newscore lo a k = .ok a') :
    Follows F n (writeBack n newname newscore lo () k) (arrays d a) () (arrays d a') := by
  obtain ⟨s, hs, h⟩ := Program.bind_eq_ok h
  -- the four steps of the model run: two reads of the temporary arrays, two stores
  obtain ⟨v, hv, h⟩ := Program.bind_eq_ok h
  obtain ⟨movies, hmovies, h⟩ := Program.bind_eq_ok h
  obtain ⟨pts, hpts, h⟩ := Program.bind_eq_ok h
  cases h
  have hname : present newname[k]? = (Code.done s : Run α CString) := by
    rw [getElem?_of_loadAt hs]
    rfl
  have hscore : present newscore[k]? = (Code.done v : Run α α) := by
    rw [getElem?_of_loadAt hv]
    rfl
  unfold writeBack
  rw [hname, hscore]
  exact follows_replaceName (d := arrays d a) (t := .done s) hmovies (hF.name (by omega) hk)
    (fun _ _ => .done) (follows_writeScore hpts (hF.score (by omega) hk))

/-! ### The whole program -/

/-- What a thread finds in its message. -/
def Sent (m : Memory (Cell.Value α)) (n j : ℕ) (f : Message) (v : ℕ) : Prop :=
  m (.deli n j f) = some v

/-- A message is read. -/
theorem alone_readDeli {j : ℕ} (hdeli : ∀ f, .deli n j f ∈ F.uses) :
    Alone F (readDeli n j) m (fun f => m (.deli n j f)) m := by
  refine .read (hdeli _) (.read (hdeli _) (.read (hdeli _) (.read (hdeli _) ?_)))
  have hfields : (fun f => m (.deli n j f)) = message (m (.deli n j .order)) (m (.deli n j .time))
      (m (.deli n j .mer)) (m (.deli n j .b)) := by
    funext f
    cases f <;> rfl
  rw [hfields]
  exact .done

/-- What is there needs no access. -/
theorem follows_present {β : Type} {o : Option β} {v : β} (h : o = some v) :
    Follows F n (present o : Run α β) d v d := by
  subst h
  exact follows_pure v

variable [Score α]

/-- **`truemerge` access by access.**  With the message `x`, the thread follows `truemerge` on the
    arrays, and touches only the slots of its two runs. -/
theorem alone_truemerge {j : ℕ} {x : Send} {d' : Data α} (hm : Holds m n d)
    (horder : Sent m n j .order n) (htime : Sent m n j .time x.time) (hmer : Sent m n j .mer x.mer)
    (hb : Sent m n j .b x.b) (hdeli : ∀ f, .deli n j f ∈ F.uses) (hdata : ∀ f, .data n f ∈ F.uses)
    (hF : Owns F n x.first (x.stop d.cnt)) (hlong : x.mid + x.mer ≤ x.stop d.cnt)
    (h : Movies.truemerge d x = .ok d') :
    ∃ m', Alone F (truemerge n j) m () m' ∧ Holds m' n d' := by
  rw [truemerge_ranges] at h
  obtain ⟨y, hy, h⟩ := Program.bind_eq_ok h
  obtain ⟨a, hkeep, h⟩ := Program.bind_eq_ok h
  obtain ⟨a', hback, h⟩ := Program.bind_eq_ok h
  cases h
  have hmid : x.first + x.mer = x.mid := rfl
  -- the bounds of the loop keep every later access inside the range of the thread
  obtain ⟨hloop, htaken⟩ := tracks_mergeLoop (u := d) hF.views (show x.mid ≤ x.stop d.cnt by omega) le_rfl
    (show x.first ≤ x.mid by omega) hy
  have hl : x.first ≤ y.l := htaken.left
  have hl' : y.l ≤ x.mid := htaken.mid (show x.first ≤ x.mid by omega)
  have hr : y.r ≤ x.stop d.cnt := htaken.stop (show x.mid ≤ x.stop d.cnt by omega)
  -- every entry that was taken has moved one of the two heads
  have hcount : y.newname.length + (x.first + x.mid) = y.l + y.r := by
    have hcount := htaken.count
    simpa using hcount
  have hkeep' := (tracks_forRange (R := fun d m => Holds m n d) (F := F)
    (g := keepLeft n x.mid (x.stop d.cnt) y.l) (arrays d) (fun _ => ()) (fun _ _ => True) hkeep trivial fun i hi u u' _ hstep =>
      ⟨follows_keepLeft hF (by omega) (by omega) (by omega) hstep, trivial⟩).1
  have hback' := (tracks_forRange (R := fun d m => Holds m n d) (F := F)
    (g := writeBack n y.newname y.newscore x.first)
    (arrays d) (fun _ => ()) (fun _ _ => True) hback trivial fun i hi u u' _ hstep =>
      ⟨follows_writeBack hF (by omega) hstep, trivial⟩).1
  have hstop : Follows F n (mergeEnd n x.time x.b (x.mid + x.mer)) d (x.stop d.cnt) d := by
    unfold mergeEnd Send.stop
    split
    · exact follows_readData (hdata .cnt)
    · exact follows_pure _
  -- the message is read first, and then come the three loops of `truemerge`
  refine Tracks.after (R := fun d m => Holds m n d) (alone_readDeli hdeli) ?_ hm
  exact (follows_present horder).bind <| (follows_present hmer).bind <|
    (follows_present htime).bind <| (follows_present hb).bind <|
    (follows_readData (hdata .base)).bind <| hstop.bind <| hloop.bind <| hkeep'.bind hback'

end SystemProgramming.Movies.Accesses
