import SystemProgramming.Booking.Server
import SystemProgramming.Lib.TextSearch

namespace SystemProgramming.Booking

open TextSearch

/-!
# Booking servers — reading lines

`handle_read` turns the bytes of one `read` into one request line: what stands before the first
CR LF, or before the first LF.  It keeps nothing between two reads.

* `handleRead` — the function, on the bytes of the `read` and on what the memory holds behind its
  buffer, into which the searches run when they find nothing;
* `delivers_iff` — for every cut of a stream of lines into reads, exactly the lines of the stream
  are delivered if and only if the cuts are `Aligned` with the lines;
* `framing_fails` — a line that arrives in two reads ends the server.
-/

/-! ### `handle_read` -/

/-- What `handle_read` does: its return values `-1`, `0` and `1`, the last with the line it has
    stored, or `ERR_EXIT`. -/
inductive ReadResult where
  | failed
  | eof
  | line (l : List UInt8)
  | errExit
  deriving DecidableEq, Repr

/-- The text at the start of `buf[512]`: the bytes read, the `'0'`s of `memset` and, since nothing
    terminates them, the memory `beyond` the buffer up to its first `NUL`. -/
def bufText (beyond chunk : List UInt8) : List UInt8 :=
  (chunk ++ List.replicate (512 - chunk.length) 48 ++ beyond).takeWhile (· ≠ 0)

/-- `handle_read`, for a `read` that failed (`none`) or returned these bytes. -/
def handleRead (beyond : List UInt8) : Option (List UInt8) → ReadResult
  | none => .failed
  | some [] => .eof
  | some chunk =>
    let buf := bufText beyond chunk
    match find [13, 10] buf with
    | some p1 => .line (buf.take p1)
    | none =>
      match find [10] buf with
      | some p1 => .line (buf.take p1)
      | none => if [255, 244].isPrefixOf buf then .eof else .errExit

/-- What `main` makes of it for the connection `fd`. -/
def ReadResult.event (fd : ℕ) : ReadResult → Event
  | .failed => .readError fd
  | .eof => .eof fd
  | .line l => .line fd l
  | .errExit => .errExit

/-- The events of a connection whose reads return these bytes, up to the one that ends the
    connection or the server; `beyond i` is the memory behind the buffer at read `i`. -/
def readEvents (fd : ℕ) (beyond : ℕ → List UInt8) : List (List UInt8) → List Event
  | [] => []
  | c :: cs =>
    let r := handleRead (beyond 0) (some c)
    match r with
    | .line _ => r.event fd :: readEvents fd (fun i => beyond (i + 1)) cs
    | _ => [r.event fd]

/-- The request line an event brings to the session. -/
def Event.line? : Event → Option (List UInt8)
  | .line _ l => some l
  | _ => none

/-- The reads deliver exactly the lines `ls`, and none of them ends the server. -/
def Delivers (fd : ℕ) (beyond : ℕ → List UInt8) (chunks ls : List (List UInt8)) : Prop :=
  (readEvents fd beyond chunks).filterMap Event.line? = ls ∧
    Event.errExit ∉ readEvents fd beyond chunks

/-! ### Streams of lines -/

/-- A line a client sends: without CR, LF and NUL, and at most 512 bytes with its CR LF. -/
structure SentLine where
  text : List UInt8
  noCR : 13 ∉ text
  noLF : 10 ∉ text
  noNUL : 0 ∉ text
  short : text.length + 2 ≤ 512

/-- The bytes of the lines, each ended by CR LF. -/
def stream (ls : List SentLine) : List UInt8 := (ls.map fun l => l.text ++ [13, 10]).flatten

/-- A way of cutting the bytes of the lines into the results of `read`. -/
structure Segmentation (ls : List SentLine) where
  chunks : List (List UInt8)
  size : ∀ c ∈ chunks, 1 ≤ c.length ∧ c.length ≤ 512
  flatten_eq : chunks.flatten = stream ls

/-- The CR of a line that was read before its LF. -/
def carried (early : Bool) : List UInt8 := if early then [13] else []

/-- The cuts are right behind the lines.  The exception is an empty line, whose CR may come `early`,
    with the read before: then `handle_read` must find no CR LF in the memory behind its buffer. -/
def Aligned : Bool → (ℕ → List UInt8) → List SentLine → List (List UInt8) → Prop
  | early, _, [], [] => early = false
  | early, beyond, l :: ls, c :: cs =>
    (early = true → l.text = [] ∧ find [13, 10] ((beyond 0).takeWhile (· ≠ 0)) = none) ∧
    ∃ early', c = (if early then [10] else l.text ++ [13, 10]) ++ carried early' ∧
      Aligned early' (fun i => beyond (i + 1)) ls cs
  | _, _, _, _ => False

/-! ### One read -/

section OneRead

variable {beyond chunk : List UInt8}

theorem bufText_eq (beyond : List UInt8) (h0 : 0 ∉ chunk) : bufText beyond chunk =
    chunk ++ (List.replicate (512 - chunk.length) 48 ++ beyond.takeWhile (· ≠ 0)) := by
  have hall : ∀ b ∈ chunk ++ List.replicate (512 - chunk.length) 48, b ≠ 0 := by
    intro b hb
    rcases List.mem_append.mp hb with hb | hb
    · rintro rfl
      exact h0 hb
    · rw [List.eq_of_mem_replicate hb]
      decide
  rw [bufText, List.takeWhile_append_of_pos (by simpa using hall), List.append_assoc]

theorem handleRead_some (hne : chunk ≠ []) : handleRead beyond (some chunk) =
    match find [13, 10] (bufText beyond chunk) with
    | some p1 => .line ((bufText beyond chunk).take p1)
    | none =>
      match find [10] (bufText beyond chunk) with
      | some p1 => .line ((bufText beyond chunk).take p1)
      | none => if [255, 244].isPrefixOf (bufText beyond chunk) then .eof else .errExit := by
  cases chunk with
  | nil => exact absurd rfl hne
  | cons c cs => rfl

/-- A read with a whole terminator, and no LF before it: its line is what stands before. -/
theorem handleRead_crlf {s u : List UInt8} (h0 : 0 ∉ s ++ 13 :: 10 :: u) (hs : 10 ∉ s) :
    handleRead beyond (some (s ++ 13 :: 10 :: u)) = .line s := by
  rw [handleRead_some (by simp), bufText_eq _ h0, List.append_assoc, List.cons_append,
    List.cons_append, find_pair (by decide) hs]
  simp

/-- A read without LF: a line it delivers is longer than any that was sent. -/
theorem handleRead_noLF {l : List UInt8} (h0 : 0 ∉ chunk) (hLF : 10 ∉ chunk)
    (hsize : 1 ≤ chunk.length ∧ chunk.length ≤ 512)
    (h : handleRead beyond (some chunk) = .line l) : 511 ≤ l.length := by
  have hne : chunk ≠ [] := List.ne_nil_of_length_pos hsize.1
  -- the buffer has no LF, so what is found lies behind it
  have hbuf : 10 ∉ chunk ++ List.replicate (512 - chunk.length) 48 := by
    intro hmem
    rcases List.mem_append.mp hmem with hmem | hmem
    · exact hLF hmem
    · exact absurd (List.eq_of_mem_replicate hmem) (by decide)
  have htext := bufText_eq beyond h0
  rw [← List.append_assoc] at htext
  have hlen : (chunk ++ List.replicate (512 - chunk.length) (48 : UInt8)).length = 512 := by
    simp; omega
  have htake {needle : List UInt8} {p1 : ℕ} (hin : 10 ∈ needle) (htwo : needle.length ≤ 2)
      (hp1 : find needle (bufText beyond chunk) = some p1) :
      511 ≤ ((bufText beyond chunk).take p1).length := by
    have hlt := lt_length_of_find (List.ne_nil_of_mem hin) hp1
    rw [htext] at hp1
    have hpast := length_le_of_find hin hbuf hp1
    rw [hlen] at hpast
    rw [List.length_take]
    omega
  rw [handleRead_some hne] at h
  split at h
  · rename_i p1 hp1
    cases h
    exact htake (by simp) (by simp) hp1
  · split at h
    · rename_i p1 hp1
      cases h
      exact htake (by simp) (by simp) hp1
    · split at h <;> cases h

/-- A read that starts with LF: its line is empty, unless a CR LF is found behind it. -/
theorem handleRead_lf (beyond : List UInt8) {u : List UInt8} (h0 : 0 ∉ 10 :: u) :
    (find [13, 10] (bufText beyond (10 :: u)) = none ∧
      handleRead beyond (some (10 :: u)) = .line []) ∨
    (find [13, 10] (bufText beyond (10 :: u)) ≠ none ∧
      ∃ l, handleRead beyond (some (10 :: u)) = .line (10 :: l)) := by
  have htext := bufText_eq beyond h0
  rw [List.cons_append] at htext
  rw [handleRead_some (by simp)]
  cases hf : find [13, 10] (bufText beyond (10 :: u)) with
  | none =>
    -- without CR LF the search for LF succeeds at the first byte, so the line is empty
    refine .inl ⟨rfl, ?_⟩
    have hlf := find_singleton (a := (10 : UInt8)) (s := []) (by simp)
      (u ++ (List.replicate (512 - (10 :: u).length) 48 ++ beyond.takeWhile (· ≠ 0)))
    rw [List.nil_append] at hlf
    simp only [htext, hlf]
    rfl
  | some p1 =>
    refine .inr ⟨by simp, ?_⟩
    -- a CR LF lies behind the first byte, so the line starts with that byte
    rw [htext, find_cons_of_ne _ _ (by decide)] at hf
    obtain ⟨p, -, rfl⟩ := Option.map_eq_some_iff.mp hf
    rw [htext]
    exact ⟨_, rfl⟩

/-- Behind the LF of an empty line, and the CR of a next one, only the memory is left to search. -/
theorem find_early (early : Bool) :
    find [13, 10] (bufText beyond (10 :: carried early)) = none ↔
      find [13, 10] (beyond.takeWhile (· ≠ 0)) = none := by
  have hzeros (n : ℕ) : 13 ∉ List.replicate n (48 : UInt8) :=
    -- the buffer is filled with `'0'`, which never makes a CR
    fun h => absurd (List.eq_of_mem_replicate h) (by decide)
  cases early with
  | false =>
    rw [bufText_eq _ (by decide), List.cons_append, find_cons_of_ne _ _ (by decide),
      Option.map_eq_none_iff]
    exact find_append_eq_none_iff (hzeros 511) _ _
  -- early, the CR LF of the first line has been read, and two bytes less are zeros
  | true =>
    have hlen : 512 - (10 :: carried true).length = 509 + 1 := rfl
    rw [bufText_eq _ (by decide), hlen, List.replicate_succ]
    simp only [carried, ↓reduceIte, List.cons_append, List.nil_append]
    rw [find_cons_of_ne _ _ (by decide), find_pair_cons_cons _ (by decide),
      find_cons_of_ne _ _ (by decide), Option.map_eq_none_iff, Option.map_eq_none_iff,
      Option.map_eq_none_iff, find_append_eq_none_iff (hzeros 509)]

end OneRead

/-! ### All reads of a connection -/

section Reads

variable {fd : ℕ} {beyond : ℕ → List UInt8} {c : List UInt8} {cs : List (List UInt8)}

theorem delivers_nil {ls : List (List UInt8)} : Delivers fd beyond [] ls ↔ ls = [] := by
  simp [Delivers, readEvents, eq_comm]

theorem delivers_cons {x : List UInt8} {xs : List (List UInt8)} :
    Delivers fd beyond (c :: cs) (x :: xs) ↔ handleRead (beyond 0) (some c) = .line x ∧
      Delivers fd (fun i => beyond (i + 1)) cs xs := by
  unfold Delivers
  rw [readEvents]
  cases hr : handleRead (beyond 0) (some c) with
  | line l => simp [ReadResult.event, Event.line?, and_assoc]
  | failed | eof | errExit => simp [ReadResult.event, Event.line?, List.filterMap]

/-- Each line that is delivered has used up a read with an LF. -/
theorem Delivers.length_le {ls : List SentLine} (h0 : 0 ∉ cs.flatten)
    (hsize : ∀ c ∈ cs, 1 ≤ c.length ∧ c.length ≤ 512)
    (h : Delivers fd beyond cs (ls.map SentLine.text)) : ls.length ≤ cs.flatten.count 10 := by
  induction cs generalizing ls beyond with
  | nil =>
    have hls : ls = [] := List.map_eq_nil_iff.mp (delivers_nil.mp h)
    simp [hls]
  | cons c cs ih =>
    cases ls with
    | nil => simp
    | cons l ls =>
      obtain ⟨hline, hrest⟩ := delivers_cons.mp h
      rw [List.flatten_cons, List.mem_append, not_or] at h0
      have htail := ih h0.2 (fun d hd => hsize d (by simp [hd])) hrest
      -- a segment that completes a line has a line feed, for else the text runs to the filler
      have hLF : 10 ∈ c := by
        by_contra hLF
        have hlong := handleRead_noLF h0.1 hLF (hsize c (by simp)) hline
        have hshort := l.short
        omega
      have hone : 0 < c.count 10 := List.count_pos_iff.mpr hLF
      rw [List.flatten_cons, List.count_append, List.length_cons]
      omega

theorem stream_cons (l : SentLine) (ls : List SentLine) :
    stream (l :: ls) = (l.text ++ [13]) ++ 10 :: stream ls := by
  simp [stream]

theorem count_stream (ls : List SentLine) : (stream ls).count 10 = ls.length := by
  induction ls with
  | nil => rfl
  | cons l ls ih =>
    have hl : l.text.count 10 = 0 := List.count_eq_zero.mpr l.noLF
    rw [stream_cons, List.count_append, List.count_append, List.count_cons_self, ih, hl]
    simp

theorem noNUL_stream (ls : List SentLine) : 0 ∉ stream ls := by
  induction ls with
  | nil => simp [stream]
  | cons l ls ih =>
    rw [stream_cons]
    simp [l.noNUL, ih]

/-- The first read of an `Aligned` cut has the LF of the first line. -/
theorem Aligned.mem_LF {early : Bool} {l : SentLine} {ls : List SentLine}
    (h : Aligned early beyond (l :: ls) (c :: cs)) : 10 ∈ c := by
  obtain ⟨-, early', rfl, -⟩ := h
  cases early <;> simp

/-- A read that brings the LF of the first line and nothing of its text. -/
theorem delivers_lf_iff {l : SentLine} {ls : List SentLine} {t u : List UInt8}
    (h0 : 0 ∉ 10 :: u) (ht : t = l.text ++ [13])
    (htail : Delivers fd (fun i => beyond (i + 1)) cs (ls.map SentLine.text) ↔
      ∃ early, u = carried early ∧ Aligned early (fun i => beyond (i + 1)) ls cs) :
    Delivers fd beyond ((10 :: u) :: cs) ((l :: ls).map SentLine.text) ↔
      ∃ early, t = carried early ∧ Aligned early beyond (l :: ls) ((10 :: u) :: cs) := by
  rw [List.map_cons, delivers_cons, htail]
  constructor
  · rintro ⟨hline, early', rfl, hrest⟩
    rcases handleRead_lf (beyond 0) h0 with ⟨hnone, hread⟩ | ⟨-, x, hread⟩
    · rw [hread] at hline
      have hempty : l.text = [] := (ReadResult.line.inj hline).symm
      refine ⟨true, by rw [ht, hempty]; rfl, fun _ => ⟨hempty, ?_⟩, early', rfl, hrest⟩
      exact (find_early early').mp hnone
    · rw [hread] at hline
      have hLF : 10 ∈ l.text := by
        rw [← ReadResult.line.inj hline]
        simp
      exact absurd hLF l.noLF
  · rintro ⟨early, hcarry, hal⟩
    -- `t` ends with the CR, so it was read early
    have htrue : early = true := by
      cases early with
      | true => rfl
      | false => simp [ht, carried] at hcarry
    subst htrue
    obtain ⟨hfirst, early', hu, hrest⟩ := hal
    obtain ⟨hempty, hmem⟩ := hfirst rfl
    have hu' : u = carried early' := by simpa using hu
    refine ⟨?_, early', hu', hrest⟩
    subst hu'
    rcases handleRead_lf (beyond 0) h0 with ⟨-, hread⟩ | ⟨hsome, -⟩
    · rw [hread, hempty]
    · exact absurd ((find_early early').mpr hmem) hsome

/-- A read that brings text of the first line and its terminator. -/
theorem delivers_crlf_iff {l : SentLine} {ls : List SentLine} {t s u : List UInt8}
    (h0 : 0 ∉ s ++ 13 :: 10 :: u) (hs : t ++ s = l.text)
    (htail : Delivers fd (fun i => beyond (i + 1)) cs (ls.map SentLine.text) ↔
      ∃ early, u = carried early ∧ Aligned early (fun i => beyond (i + 1)) ls cs) :
    Delivers fd beyond ((s ++ 13 :: 10 :: u) :: cs) ((l :: ls).map SentLine.text) ↔
      ∃ early, t = carried early ∧ Aligned early beyond (l :: ls) ((s ++ 13 :: 10 :: u) :: cs) := by
  have hLF : 10 ∉ s := fun h => l.noLF (by rw [← hs]; simp [h])
  rw [List.map_cons, delivers_cons, htail, handleRead_crlf h0 hLF]
  constructor
  · rintro ⟨hline, early', rfl, hrest⟩
    have hwhole : s = l.text := ReadResult.line.inj hline
    have hnil : t = [] := by
      rw [hwhole] at hs
      exact List.append_left_eq_self.mp hs
    refine ⟨false, hnil, by simp, early', ?_, hrest⟩
    simp [hwhole]
  · rintro ⟨early, hcarry, hal⟩
    -- the CR is still to come, so nothing was read early
    have hfalse : early = false := by
      cases early with
      | false => rfl
      | true => exact absurd (by rw [← hs, hcarry]; simp [carried]) l.noCR
    subst hfalse
    obtain ⟨-, early', hu, hrest⟩ := hal
    have hwhole : s = l.text := by rw [← hs, hcarry]; rfl
    refine ⟨by rw [hwhole], early', ?_, hrest⟩
    simpa [hwhole] using hu

/-- **Which cuts deliver the lines.**  `t` is what earlier reads have taken from the first line. -/
theorem delivers_iff_aligned (ls : List SentLine) (t : List UInt8) (ht : 10 ∉ t)
    (hsize : ∀ c ∈ cs, 1 ≤ c.length ∧ c.length ≤ 512) (hcs : t ++ cs.flatten = stream ls) :
    Delivers fd beyond cs (ls.map SentLine.text) ↔
      ∃ early, t = carried early ∧ Aligned early beyond ls cs := by
  induction ls generalizing t beyond cs with
  | nil =>
    obtain ⟨rfl, hflat⟩ := List.append_eq_nil_iff.mp hcs
    have hnil : cs = [] := by
      cases cs with
      | nil => rfl
      | cons c cs =>
        have hc := (hsize c (by simp)).1
        rw [List.flatten_cons, List.append_eq_nil_iff] at hflat
        rw [hflat.1] at hc
        exact absurd hc (by decide)
    subst hnil
    exact iff_of_true (delivers_nil.mpr rfl) ⟨false, rfl, rfl⟩
  | cons l ls ih =>
    have hNUL : 0 ∉ cs.flatten := by
      have h := noNUL_stream (l :: ls)
      rw [← hcs, List.mem_append, not_or] at h
      exact h.2
    cases cs with
    | nil =>
      -- nothing is left to read, but the LF of the first line is still missing
      rw [stream_cons, List.flatten_nil, List.append_nil] at hcs
      exact absurd (by rw [hcs]; simp) ht
    | cons c cs =>
      rw [List.flatten_cons, List.mem_append, not_or] at hNUL
      by_cases hLF : 10 ∈ c
      · obtain ⟨s, u, rfl, hs⟩ := List.eq_append_cons_of_mem hLF
        have hsplit :
            (t ++ s) ++ 10 :: (u ++ cs.flatten) = (l.text ++ [13]) ++ 10 :: stream ls := by
          rw [← stream_cons, ← hcs]
          simp
        obtain ⟨hline, hrest⟩ := append_cons_inj (by simp [ht, hs]) (by simp [l.noLF]) hsplit
        have htail : Delivers fd (fun i => beyond (i + 1)) cs (ls.map SentLine.text) ↔
            ∃ early, u = carried early ∧ Aligned early (fun i => beyond (i + 1)) ls cs := by
          by_cases hu : 10 ∈ u
          · -- the read has two LFs, so the later ones have too few
            refine iff_of_false (fun h => ?_) ?_
            · have hcount := h.length_le hNUL.2 fun d hd => hsize d (by simp [hd])
              have htwo : 0 < u.count 10 := List.count_pos_iff.mpr hu
              have hall := count_stream ls
              rw [← hrest, List.count_append] at hall
              omega
            · rintro ⟨early, rfl, -⟩
              cases early <;> simp [carried] at hu
          · exact ih u hu (fun d hd => hsize d (by simp [hd])) hrest
        rcases List.eq_nil_or_concat s with rfl | ⟨s', x, rfl⟩
        · exact delivers_lf_iff hNUL.1 (by simpa using hline) htail
        · rw [List.concat_eq_append, ← List.append_assoc] at hline
          obtain ⟨hs', hx⟩ := List.append_inj' hline rfl
          cases hx
          have hc : s'.concat 13 ++ 10 :: u = s' ++ 13 :: 10 :: u := by simp
          rw [hc] at hNUL ⊢
          exact delivers_crlf_iff hNUL.1 hs' htail
      · refine iff_of_false (fun h => ?_) ?_
        · have hlong := handleRead_noLF hNUL.1 hLF (hsize c (by simp)) (delivers_cons.mp h).1
          have hshort := l.short
          omega
        · rintro ⟨early, -, hal⟩
          exact hLF hal.mem_LF

end Reads

/-- **Line framing depends on the segmentation.**  However the bytes of the lines are cut into
    reads, `handle_read` delivers exactly these lines, and never ends the server, if and only if
    the cuts are aligned with the lines. -/
theorem delivers_iff (ls : List SentLine) (s : Segmentation ls) (fd : ℕ)
    (beyond : ℕ → List UInt8) :
    Delivers fd beyond s.chunks (ls.map SentLine.text) ↔ Aligned false beyond ls s.chunks := by
  rw [delivers_iff_aligned ls [] (by simp) s.size s.flatten_eq]
  constructor
  · rintro ⟨early, hnil, hal⟩
    cases early with
    | false => exact hal
    | true => cases hnil
  · exact fun hal => ⟨false, rfl, hal⟩

/-- If no line is empty, each read has to return exactly one line with its CR LF. -/
theorem aligned_iff_of_nonempty {ls : List SentLine} (hne : ∀ l ∈ ls, l.text ≠ [])
    (beyond : ℕ → List UInt8) (cs : List (List UInt8)) :
    Aligned false beyond ls cs ↔ cs = ls.map fun l => l.text ++ [13, 10] := by
  induction ls generalizing beyond cs with
  | nil => cases cs <;> simp [Aligned]
  | cons l ls ih =>
    have hls : ∀ l ∈ ls, l.text ≠ [] := fun m hm => hne m (by simp [hm])
    cases cs with
    | nil => simp [Aligned]
    | cons c cs =>
      rw [List.map_cons, List.cons.injEq, ← ih hls fun i => beyond (i + 1)]
      constructor
      · rintro ⟨-, early, rfl, hrest⟩
        have hlate : early = false := by
          cases early with
          | false => rfl
          | true =>
            -- an early CR needs an empty line after it
            cases ls with
            | nil => cases cs <;> simp [Aligned] at hrest
            | cons m ls =>
              cases cs with
              | nil => cases hrest
              | cons c cs => exact absurd (hrest.1 rfl).1 (hls m (by simp))
        subst hlate
        exact ⟨by simp [carried], hrest⟩
      · rintro ⟨rfl, hrest⟩
        exact ⟨by simp, false, by simp [carried], hrest⟩

/-- The id line `902001`, which arrives in two reads: `90` and the rest. -/
def splitId : Segmentation [⟨ascii "902001", by decide, by decide, by decide, by decide⟩] where
  chunks := [ascii "90", ascii "2001" ++ [13, 10]]
  size := by decide
  flatten_eq := by decide

/-- **A split line ends the server.**  The read of `90` finds no line end, not even in the memory
    behind the buffer, and `handle_read` exits. -/
theorem framing_fails : ¬ ∀ (ls : List SentLine) (s : Segmentation ls) (fd : ℕ)
    (beyond : ℕ → List UInt8), Delivers fd beyond s.chunks (ls.map SentLine.text) := by
  intro h
  have hsplit := (h _ splitId 5 fun _ => []).2
  have hexit : readEvents 5 (fun _ => []) splitId.chunks = [.errExit] := by decide +kernel
  rw [hexit] at hsplit
  exact hsplit (List.mem_singleton.mpr rfl)

end SystemProgramming.Booking
