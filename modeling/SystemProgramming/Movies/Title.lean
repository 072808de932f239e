import Mathlib.Order.Lattice

namespace SystemProgramming.Movies

/-!
# Movie recommendation — titles

Strings as their bytes up to the terminating zero, with `strcmp` and `strstr`, and the suffix that
`add_secret` appends.

* `strcmp_eq_iff`, `strcmp_swap`, `strcmp_lt_trans` — `strcmp` is a linear order;
* `strcmp_append` — a common suffix that starts below all bytes of two titles does not change how
  they compare.
-/

/-- A C string: its bytes, without the terminating zero. -/
abbrev CString := List UInt8

/-- The sign of `strcmp(a, b)`; the end of a string counts as a byte below all others. -/
def strcmp : CString → CString → Ordering
  | [], [] => .eq
  | [], _ :: _ => .lt
  | _ :: _, [] => .gt
  | x :: a, y :: b => if x < y then .lt else if y < x then .gt else strcmp a b

/-- `strstr(hay, needle)`: the first suffix of `hay` that starts with `needle`. -/
def strstr : CString → CString → Option CString
  | [], needle => if needle.isPrefixOf [] then some [] else none
  | c :: hay, needle =>
    if needle.isPrefixOf (c :: hay) then some (c :: hay) else strstr hay needle

/-- `strstr` finds exactly the substrings. -/
theorem strstr_isSome {hay needle : CString} : (strstr hay needle).isSome ↔ needle <:+: hay := by
  induction hay with
  | nil =>
    unfold strstr
    -- the empty title contains only the empty keyword
    split
    · rename_i h
      simpa using (List.isPrefixOf_iff_prefix.mp h).isInfix
    · rename_i h
      rw [List.isPrefixOf_iff_prefix] at h
      refine iff_of_false (by simp) fun hin => h ?_
      exact (List.eq_nil_of_infix_nil hin).symm ▸ List.nil_prefix
  | cons c hay ih =>
    unfold strstr
    rw [List.infix_cons_iff, ← ih]
    split
    · rename_i h
      exact iff_of_true rfl (.inl (List.isPrefixOf_iff_prefix.mp h))
    · rename_i h
      rw [List.isPrefixOf_iff_prefix] at h
      exact (or_iff_right h).symm

/-! ### The order of `strcmp` -/

variable {a b c : CString} {x y : UInt8}

/-- The first byte that differs is less. -/
theorem strcmp_cons_of_lt (h : x < y) : strcmp (x :: a) (y :: b) = .lt := if_pos h

/-- The first byte that differs is greater. -/
theorem strcmp_cons_of_gt (h : y < x) : strcmp (x :: a) (y :: b) = .gt := by
  have hnot : ¬ x < y := fun hlt => UInt8.lt_irrefl _ (UInt8.lt_trans hlt h)
  rw [strcmp, if_neg hnot, if_pos h]

/-- A common first byte is skipped. -/
theorem strcmp_cons_self : strcmp (x :: a) (x :: b) = strcmp a b := by
  rw [strcmp, if_neg (UInt8.lt_irrefl x), if_neg (UInt8.lt_irrefl x)]

/-- Two bytes are equal or ordered one way or the other. -/
theorem byte_trichotomy (x y : UInt8) : x < y ∨ x = y ∨ y < x := by
  rcases Nat.lt_trichotomy x.toNat y.toNat with h | h | h
  · exact .inl (UInt8.lt_iff_toNat_lt.mpr h)
  · exact .inr (.inl (UInt8.toNat_inj.mp h))
  · exact .inr (.inr (UInt8.lt_iff_toNat_lt.mpr h))

/-- Equal strings, and no others, compare as equal. -/
theorem strcmp_eq_iff : strcmp a b = .eq ↔ a = b := by
  induction a generalizing b with
  | nil => cases b <;> simp [strcmp]
  | cons x a ih =>
    cases b with
    | nil => simp [strcmp]
    | cons y b =>
      -- the first bytes decide, unless they are equal
      rcases byte_trichotomy x y with h | rfl | h
      · rw [strcmp_cons_of_lt h]
        apply iff_of_false (by simp)
        intro heq
        rw [(List.cons.inj heq).1] at h
        exact UInt8.lt_irrefl _ h
      · rw [strcmp_cons_self, ih, List.cons_inj_right]
      · rw [strcmp_cons_of_gt h]
        apply iff_of_false (by simp)
        intro heq
        rw [(List.cons.inj heq).1] at h
        exact UInt8.lt_irrefl _ h

/-- The other way round. -/
theorem strcmp_swap (a b : CString) : strcmp b a = (strcmp a b).swap := by
  induction a generalizing b with
  | nil => cases b <;> rfl
  | cons x a ih =>
    cases b with
    | nil => rfl
    | cons y b =>
      rcases byte_trichotomy x y with h | rfl | h
      · rw [strcmp_cons_of_lt h, strcmp_cons_of_gt h]
        rfl
      · rw [strcmp_cons_self, strcmp_cons_self, ih]
      · rw [strcmp_cons_of_lt h, strcmp_cons_of_gt h]
        rfl

/-- Greater is the other way round of less. -/
theorem strcmp_eq_gt : strcmp a b = .gt ↔ strcmp b a = .lt := by
  rw [strcmp_swap a b]
  cases strcmp a b <;> simp [Ordering.swap]

/-- The order of strings is transitive. By induction on the common prefix. -/
theorem strcmp_lt_trans (hab : strcmp a b = .lt) (hbc : strcmp b c = .lt) :
    strcmp a c = .lt := by
  induction a generalizing b c with
  | nil =>
    cases c with
    | nil => cases b <;> cases hbc
    | cons z c => rfl
  | cons x a ih =>
    cases b with
    | nil => cases hab
    | cons y b =>
      cases c with
      | nil => cases hbc
      | cons z c =>
        -- the case split is on the first bytes, where equal ones leave the tails
        rcases byte_trichotomy x y with hxy | rfl | hxy
        · rcases byte_trichotomy y z with hyz | rfl | hyz
          · exact strcmp_cons_of_lt (UInt8.lt_trans hxy hyz)
          · exact strcmp_cons_of_lt hxy
          · rw [strcmp_cons_of_gt hyz] at hbc
            cases hbc
        · rcases byte_trichotomy x z with hyz | rfl | hyz
          · exact strcmp_cons_of_lt hyz
          · rw [strcmp_cons_self] at *
            exact ih hab hbc
          · rw [strcmp_cons_of_gt hyz] at hbc
            cases hbc
        · rw [strcmp_cons_of_gt hxy] at hab
          cases hab

/-! ### The suffix -/

/-- The text that `add_secret` appends: a tab and a remark. -/
def secretKey : CString := "\t[It's top secret.]".toList.map fun c => UInt8.ofNat c.toNat

/-- The first byte of the suffix, below every byte of a title. -/
theorem secretKey_eq : ∃ key, secretKey = 9 :: key := ⟨_, rfl⟩

/-- A title as the movie table holds it: bytes from the blank on, shorter than `MAX_LEN`. -/
structure ValidTitle (t : CString) : Prop where
  bytes : ∀ c ∈ t, 0x20 ≤ c
  short : t.length < 0xff

instance (t : CString) : Decidable (ValidTitle t) :=
  decidable_of_iff (t.all (fun c => decide (0x20 ≤ c)) = true ∧ t.length < 0xff)
    ⟨fun h => ⟨by simpa using h.1, h.2⟩, fun h => ⟨by simpa using h.bytes, h.short⟩⟩

/-- A suffix whose first byte is below all bytes of both strings keeps their order, also when one
    string is the beginning of the other. -/
theorem strcmp_append {key : CString} {k : UInt8} (ha : ∀ c ∈ a, k < c) (hb : ∀ c ∈ b, k < c) :
    strcmp (a ++ k :: key) (b ++ k :: key) = strcmp a b := by
  induction a generalizing b with
  | nil =>
    -- the end of a title is where the key starts, and its first byte is below every byte of a title
    cases b with
    | nil => exact strcmp_eq_iff.mpr rfl
    | cons y b => exact strcmp_cons_of_lt (hb y (by simp))
  | cons x a ih =>
    cases b with
    | nil => exact strcmp_cons_of_gt (ha x (by simp))
    | cons y b =>
      rw [List.cons_append, List.cons_append]
      rcases byte_trichotomy x y with h | rfl | h
      · rw [strcmp_cons_of_lt h, strcmp_cons_of_lt h]
      · rw [strcmp_cons_self, strcmp_cons_self,
          ih (fun c hc => ha c (by simp [hc])) fun c hc => hb c (by simp [hc])]
      · rw [strcmp_cons_of_gt h, strcmp_cons_of_gt h]

/-- Printable bytes come after the tab that the suffix starts with. -/
theorem tab_lt (h : ∀ c ∈ a, 0x20 ≤ c) : ∀ c ∈ a, 9 < c := by
  intro c hc
  exact UInt8.lt_of_lt_of_le (by decide) (h c hc)

/-- The bytes of a valid title do. -/
theorem ValidTitle.tab_lt (h : ValidTitle a) : ∀ c ∈ a, 9 < c := Movies.tab_lt h.bytes

/-- A string precedes those that it is the beginning of. -/
theorem strcmp_append_lt {t : CString} (ht : t ≠ []) : strcmp a (a ++ t) = .lt := by
  induction a with
  | nil =>
    cases t with
    | nil => exact absurd rfl ht
    | cons y t => rfl
  | cons x a ih =>
    rw [List.cons_append, strcmp_cons_self]
    exact ih

end SystemProgramming.Movies
