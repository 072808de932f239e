import Mathlib.Data.List.Nodup
import SystemProgramming.Lib.SlotArray

namespace SystemProgramming.RoundRobin

/-!
# Round robin with removal

A queue whose members take turns, the current one first, and members that wait to join it at its
end.  A turn ends in two ways: the current member passes on to the next one, or it drops out, and
then the last member takes its place and the turn; the last member itself leaves the turn to the
first one.

* `Turn` / `Turns` — one turn and a sequence of them, with who got them;
* `Outbound` / `Inbound` — the two halves of a round seen from a member `t`: from `t` to the end of
  the queue, and from its start to `t`;
* `overtaken_at_most_twice` — between two turns of `t` nobody has more than two;
* `exactly_once` — and if nobody drops out, every other member of the queue has exactly one.
-/

variable {α : Type*}

/-- The queue, the position whose turn it is, and those who wait to join. -/
structure Rota (α : Type*) where
  queue : List α
  current : ℕ
  waiting : List α

namespace Rota

/-- The one whose turn it is. -/
def running (g : Rota α) : Option α := g.queue[g.current]?

/-- The next position, or the first one behind the last. -/
def pass (g : Rota α) : Rota α :=
  { g with current := if g.current + 1 = g.queue.length then 0 else g.current + 1 }

/-- The last member takes the place of the current one. -/
def drop (g : Rota α) : Rota α :=
  { g with
    queue := swapRemove g.queue g.current
    current := if g.current + 1 = g.queue.length then 0 else g.current }

/-- Everybody: those in the queue, and those who wait outside of it. -/
def members (g : Rota α) : List α := g.queue ++ g.waiting

end Rota

/-- Some of those who wait join the queue at its end. -/
structure Arrives (g g' : Rota α) : Prop where
  current : g'.current = g.current
  arrived : ∃ a, g'.queue = g.queue ++ a ∧ (a ++ g'.waiting).Perm g.waiting

/-- One turn; the flag says that the current member has dropped out.  When it was the only one,
    others must join first. -/
inductive Turn (g : Rota α) : Bool → Rota α → Prop
  | pass {g₁} (h : Arrives g g₁) : Turn g false g₁.pass
  | drop {g₁} (h : Arrives g g₁) : Turn g true g₁.drop
  | wait {g₁ g₂} (h : Arrives g g₁) (hone : g₁.queue.length = 1) (h' : Arrives g₁.drop g₂) :
      Turn g true g₂

/-- Turns from `g₀` on: who got them, and whether somebody has dropped out. -/
inductive Turns (g₀ : Rota α) : List α → Bool → Rota α → Prop
  | start : Turns g₀ [] false g₀
  | turn {h x g d g' p} (hs : Turns g₀ h x g) (ht : Turn g d g') (hp : g'.running = some p) :
      Turns g₀ (h ++ [p]) (x || d) g'

variable {g g' g₀ g₁ : Rota α} {p q t u : α} {i j k : ℕ} {h : List α} {x d : Bool}

/-! ### Members -/

/-- Nobody stands in the queue twice. -/
theorem index_inj (hd : g.members.Nodup) (hi : g.queue[i]? = some p)
    (hj : g.queue[j]? = some p) : i = j := by
  have hlt : i < g.queue.length := (List.getElem?_eq_some_iff.mp hi).1
  exact (List.getElem?_inj hlt hd.of_append_left).mp (hi.trans hj.symm)

/-- Who stands in the queue does not wait. -/
theorem notMem_waiting (hd : g.members.Nodup) (hi : g.queue[i]? = some p) :
    p ∉ g.waiting := fun hw =>
  (List.disjoint_of_nodup_append hd) (List.mem_of_getElem? hi) hw

namespace Arrives

/-- Arrivals neither add nor lose anybody. -/
theorem members (ha : Arrives g g') : g'.members.Perm g.members := by
  obtain ⟨a, hqueue, hperm⟩ := ha.arrived
  rw [Rota.members, hqueue, List.append_assoc]
  exact hperm.append_left _

/-- Arrivals make no duplicates. -/
theorem nodup (ha : Arrives g g') (hd : g.members.Nodup) : g'.members.Nodup :=
  ha.members.nodup_iff.mpr hd

/-- The position whose turn it is stays one of the queue. -/
theorem lt (ha : Arrives g g') (hc : g.current < g.queue.length) :
    g'.current < g'.queue.length := by
  obtain ⟨a, hqueue, -⟩ := ha.arrived
  rw [ha.current, hqueue, List.length_append]
  omega

/-- Arrivals move nobody who stands in the queue. -/
theorem place (ha : Arrives g g') (hi : g.queue[i]? = some p) : g'.queue[i]? = some p := by
  obtain ⟨a, hqueue, -⟩ := ha.arrived
  rw [hqueue, List.getElem?_append_left (List.getElem?_eq_some_iff.mp hi).1, hi]

/-- Who is new in the queue has waited. -/
theorem place_or_waiting (ha : Arrives g g') (hi : g'.queue[i]? = some p) :
    g.queue[i]? = some p ∨ p ∈ g.waiting := by
  obtain ⟨a, hqueue, hperm⟩ := ha.arrived
  rw [hqueue, List.getElem?_append] at hi
  split at hi
  · exact .inl hi
  · exact .inr (hperm.mem_iff.mp (List.mem_append_left _ (List.mem_of_getElem? hi)))

/-- Who waits after arrivals has waited before. -/
theorem waiting_subset (ha : Arrives g g') (hp : p ∈ g'.waiting) : p ∈ g.waiting := by
  obtain ⟨a, -, hperm⟩ := ha.arrived
  exact hperm.mem_iff.mp (List.mem_append_right a hp)

end Arrives

/-- Everybody but the one who drops out. -/
theorem members_drop (hp : g.running = some p) : g.members.Perm (p :: g.drop.members) := by
  obtain ⟨hlt, rfl⟩ := List.getElem?_eq_some_iff.mp hp
  exact (perm_swapRemove hlt).append_right g.waiting

/-- Who is dropped is gone. -/
theorem nodup_drop (hd : g.members.Nodup) (hp : g.running = some p) :
    p ∉ g.drop.members ∧ g.drop.members.Nodup :=
  List.nodup_cons.mp ((members_drop hp).nodup_iff.mp hd)

/-- The members before the last one stay where they are. -/
theorem place_drop (hc : g.current < g.queue.length) (hi : g.queue[i]? = some q)
    (hlt : i + 1 < g.queue.length) (hic : i ≠ g.current) : g.drop.queue[i]? = some q := by
  show (swapRemove g.queue g.current)[i]? = some q
  rw [getElem?_swapRemove hc, if_pos hlt, if_neg hic, hi]

/-- After a drop there is one place less. -/
theorem lt_of_drop (hc : g.current < g.queue.length) (hi : g.drop.queue[i]? = some q) :
    i + 1 < g.queue.length := by
  change (swapRemove g.queue g.current)[i]? = some q at hi
  rw [getElem?_swapRemove hc] at hi
  by_contra hge
  rw [if_neg hge] at hi
  cases hi

/-- A drop moves only the last one, to the place that becomes free. -/
theorem place_of_drop (hc : g.current < g.queue.length) (hic : i ≠ g.current)
    (hi : g.drop.queue[i]? = some q) : g.queue[i]? = some q := by
  have hlt := lt_of_drop hc hi
  change (swapRemove g.queue g.current)[i]? = some q at hi
  rwa [getElem?_swapRemove hc, if_pos hlt, if_neg hic] at hi

/-- After anybody but the last member the last one has the turn. -/
theorem running_drop (hc : g.current < g.queue.length) (hlast : g.current + 1 ≠ g.queue.length)
    (hp : g.drop.running = some p) : g.queue[g.queue.length - 1]? = some p := by
  have hsame : g.drop.current = g.current := if_neg hlast
  change (swapRemove g.queue g.current)[g.drop.current]? = some p at hp
  rwa [hsame, getElem?_swapRemove hc, if_pos (by omega), if_pos rfl] at hp

/-! ### The two halves of a round -/

variable [DecidableEq α]

/-- Since the last turn of `t`, at position `k`, the turns `h` have gone towards the end of the
    queue. -/
structure Outbound (t : α) (h : List α) (g : Rota α) (k : ℕ) : Prop where
  place : g.queue[k]? = some t
  le : k ≤ g.current
  fresh : ∀ i p, g.queue[i]? = some p → i ≤ k ∨ g.current < i → p ∉ h
  once : ∀ u, h.count u ≤ 1
  waiting : ∀ p ∈ g.waiting, p ∉ h

/-- They have come to the end, and go from the start of the queue towards `t`.  Who is moved to the
    front of them may have had a turn before. -/
structure Inbound (t : α) (h : List α) (g : Rota α) (k : ℕ) : Prop where
  place : g.queue[k]? = some t
  lt : g.current < k
  fresh : ∀ i p, g.queue[i]? = some p → g.current < i → i ≤ k → p ∉ h
  later : ∀ i p, g.queue[i]? = some p → k < i → h.count p ≤ 1
  twice : ∀ u, h.count u ≤ 2
  waiting : ∀ p ∈ g.waiting, p ∉ h

/-- Where the turns are, as long as `t` has had no second one. -/
def Phase (t : α) (h : List α) (g : Rota α) : Prop :=
  (∃ k, Outbound t h g k) ∨ (∃ k, Inbound t h g k) ∨ t ∉ g.members

/-- How often `u` had its turn, after one more turn. -/
theorem count_concat (h : List α) (p u : α) :
    (h ++ [p]).count u = h.count u + if p = u then 1 else 0 := by
  rw [List.count_append, List.count_singleton']

omit [DecidableEq α] in
/-- Who has had no turn, after one more turn. -/
theorem notMem_concat : u ∉ h ++ [p] ↔ u ∉ h ∧ u ≠ p := by
  rw [List.mem_append, List.mem_singleton, not_or]

/-- A turn of somebody new. -/
theorem count_concat_le {n : ℕ} (hpos : 1 ≤ n) (hp : p ∉ h) (hn : ∀ u, h.count u ≤ n) (u : α) :
    (h ++ [p]).count u ≤ n := by
  rw [count_concat]
  split
  · rename_i hpu
    rw [← hpu, List.count_eq_zero.mpr hp]
    exact hpos
  · exact hn u

/-- Arrivals leave `t` in its place, and nobody who arrives has had a turn. -/
theorem Outbound.arrives (ho : Outbound t h g k) (ha : Arrives g g') : Outbound t h g' k where
  place := ha.place ho.place
  le := by
    rw [ha.current]
    exact ho.le
  fresh i p hi hik := by
    rw [ha.current] at hik
    rcases ha.place_or_waiting hi with hi | hw
    · exact ho.fresh i p hi hik
    · exact ho.waiting p hw
  once := ho.once
  waiting p hp := ho.waiting p (ha.waiting_subset hp)

/-- Arrivals leave `t` in its place, and they come behind it. -/
theorem Inbound.arrives (ho : Inbound t h g k) (ha : Arrives g g') : Inbound t h g' k where
  place := ha.place ho.place
  lt := by
    rw [ha.current]
    exact ho.lt
  fresh i p hi hlt hle := by
    rw [ha.current] at hlt
    -- a thread that has just arrived was waiting, and had no turn since
    rcases ha.place_or_waiting hi with hi | hw
    · exact ho.fresh i p hi hlt hle
    · exact ho.waiting p hw
  later i p hi hki := by
    rcases ha.place_or_waiting hi with hi | hw
    · exact ho.later i p hi hki
    · rw [List.count_eq_zero.mpr (ho.waiting p hw)]
      exact Nat.zero_le 1
  twice := ho.twice
  waiting p hp := ho.waiting p (ha.waiting_subset hp)

/-- The first position gets the turn. -/
theorem Outbound.wrap (ho : Outbound t h g k) (hd : g'.members.Nodup) (hzero : g'.current = 0)
    (hplace : ∀ (i : ℕ) q, g'.queue[i]? = some q → g.queue[i]? = some q)
    (hk : g'.queue[k]? = some t) (hw : g'.waiting = g.waiting) (hp : g'.running = some p)
    (hne : p ≠ t) : Inbound t (h ++ [p]) g' k := by
  have hp' : g'.queue[0]? = some p := by rw [← hzero]; exact hp
  have hpos : 0 < k := by
    refine Nat.pos_of_ne_zero fun h0 => hne ?_
    rw [h0] at hk
    exact Option.some.inj (hp'.symm.trans hk)
  -- the thread in the first place has had no turn since `t` ran
  have hnew : p ∉ h := ho.fresh 0 p (hplace 0 p hp') (.inl (Nat.zero_le k))
  refine ⟨hk, by omega, fun i q hi hlt hle => ?_, fun i q hi hki => ?_, fun u => ?_,
    fun q hq => ?_⟩
  · -- the first place is taken, and every other thread has its own
    refine notMem_concat.mpr ⟨ho.fresh i q (hplace i q hi) (.inl hle), ?_⟩
    rintro rfl
    have hindex := index_inj hd hp' hi
    omega
  · exact count_concat_le (Nat.le_refl 1) hnew ho.once q
  · exact Nat.le_succ_of_le (count_concat_le (Nat.le_refl 1) hnew ho.once u)
  · refine notMem_concat.mpr ⟨ho.waiting q (hw ▸ hq), ?_⟩
    rintro rfl
    exact notMem_waiting hd hp' hq

/-- A later position gets the turn, or the current one again with somebody new. -/
theorem Outbound.forward (ho : Outbound t h g k) (hd : g'.members.Nodup)
    (hcur : g.current ≤ g'.current)
    (hplace : ∀ (i : ℕ) q, i ≠ g'.current → g'.queue[i]? = some q → g.queue[i]? = some q)
    (hk : g'.queue[k]? = some t) (hw : g'.waiting = g.waiting) (hp : g'.running = some p)
    (hne : p ≠ t) (hnew : p ∉ h) : Outbound t (h ++ [p]) g' k := by
  have hkc := ho.le
  have hkc' : k ≠ g'.current := by
    rintro rfl
    exact hne (Option.some.inj (hp.symm.trans hk))
  refine ⟨hk, by omega, fun i q hi hik => ?_, count_concat_le (Nat.le_refl 1) hnew ho.once,
    fun q hq => ?_⟩
  · -- only the place under the pointer may hold another thread than before
    have hic : i ≠ g'.current := by omega
    refine notMem_concat.mpr ⟨ho.fresh i q (hplace i q hic hi) (by omega), ?_⟩
    rintro rfl
    exact hic (index_inj hd hi hp)
  · refine notMem_concat.mpr ⟨ho.waiting q (hw ▸ hq), ?_⟩
    rintro rfl
    exact notMem_waiting hd hp hq

/-- The same on the way to `t`, where it may be a second turn. -/
theorem Inbound.forward (ho : Inbound t h g k) (hd : g'.members.Nodup)
    (hcur : g.current ≤ g'.current) (hlt : g'.current < k)
    (hplace : ∀ (i : ℕ) q, i ≠ g'.current → g'.queue[i]? = some q → g.queue[i]? = some q)
    (hk : g'.queue[k]? = some t) (hw : g'.waiting = g.waiting) (hp : g'.running = some p)
    (hnew : p ∉ g.waiting) (honce : h.count p ≤ 1) : Inbound t (h ++ [p]) g' k := by
  -- the turn goes to one place, and the other places hold other threads
  have hother {i : ℕ} {q : α} (hi : g'.queue[i]? = some q) (hic : i ≠ g'.current) : p ≠ q := by
    rintro rfl
    exact hic (index_inj hd hi hp)
  refine ⟨hk, hlt, fun i q hi hci hik => ?_, fun i q hi hki => ?_, fun u => ?_, fun q hq => ?_⟩
  · have hic : i ≠ g'.current := by omega
    exact notMem_concat.mpr
      ⟨ho.fresh i q (hplace i q hic hi) (by omega) hik, (hother hi hic).symm⟩
  · have hic : i ≠ g'.current := by omega
    rw [count_concat, if_neg (hother hi hic)]
    exact ho.later i q (hplace i q hic hi) hki
  · rw [count_concat]
    split
    · rename_i hpu
      subst hpu
      omega
    · exact ho.twice u
  · rw [hw] at hq
    refine notMem_concat.mpr ⟨ho.waiting q hq, ?_⟩
    rintro rfl
    exact hnew hq

/-! ### Both ends of a turn -/

/-- The turn passes on towards the end of the queue, or from there to its start. -/
theorem Outbound.pass (ho : Outbound t h g k) (hd : g.members.Nodup)
    (hp : g.pass.running = some p) (hne : p ≠ t) : Phase t (h ++ [p]) g.pass := by
  by_cases hlast : g.current + 1 = g.queue.length
  · have hzero : g.pass.current = 0 := if_pos hlast
    exact .inr (.inl ⟨k, ho.wrap hd hzero (fun _ _ => id) ho.place rfl hp hne⟩)
  · have hnext : g.pass.current = g.current + 1 := if_neg hlast
    have hnew : p ∉ h := ho.fresh _ p hp (.inr (by omega))
    exact .inl ⟨k, ho.forward hd (by omega) (fun _ _ _ => id) ho.place rfl hp hne hnew⟩

/-- `t` is further on, so this is not the end of the queue. -/
theorem Inbound.pass (ho : Inbound t h g k) (hd : g.members.Nodup)
    (hp : g.pass.running = some p) (hne : p ≠ t) : Inbound t (h ++ [p]) g.pass k := by
  have hk : k < g.queue.length := (List.getElem?_eq_some_iff.mp ho.place).1
  have hlt := ho.lt
  have hnext : g.pass.current = g.current + 1 := if_neg (by omega)
  have hkc : k ≠ g.pass.current := by
    rintro rfl
    exact hne (Option.some.inj (hp.symm.trans ho.place))
  have hnew : p ∉ h := ho.fresh _ p hp (by omega) (by omega)
  refine ho.forward hd (by omega) (by omega) (fun _ _ _ => id) ho.place rfl hp
    (notMem_waiting hd hp) ?_
  rw [List.count_eq_zero.mpr hnew]
  exact Nat.zero_le 1

/-- Passing on. -/
theorem Phase.pass (ho : Phase t h g) (hd : g.members.Nodup) (hp : g.pass.running = some p)
    (hne : p ≠ t) : Phase t (h ++ [p]) g.pass := by
  rcases ho with ⟨k, ho⟩ | ⟨k, ho⟩ | ho
  · exact ho.pass hd hp hne
  · exact .inr (.inl ⟨k, ho.pass hd hp hne⟩)
  · exact .inr (.inr ho)

/-- The one before is dropped, and the turn goes on. -/
theorem Outbound.drop (ho : Outbound t h g k) (hd : g.members.Nodup)
    (hc : g.current < g.queue.length) (hp : g.drop.running = some p) (hne : p ≠ t) :
    Phase t (h ++ [p]) g.drop := by
  have hd' : g.drop.members.Nodup := (nodup_drop hd (List.getElem?_eq_getElem hc)).2
  have hle := ho.le
  by_cases hkc : k = g.current
  · -- `t` itself drops out
    have ht : g.running = some t := by rw [← ho.place, hkc]; rfl
    exact .inr (.inr (nodup_drop hd ht).1)
  · have hk : g.drop.queue[k]? = some t := place_drop hc ho.place (by omega) hkc
    by_cases hlast : g.current + 1 = g.queue.length
    · have hzero : g.drop.current = 0 := if_pos hlast
      refine .inr (.inl ⟨k, ho.wrap hd' hzero (fun i q hi => ?_) hk rfl hp hne⟩)
      have hlt := lt_of_drop hc hi
      exact place_of_drop hc (by omega) hi
    · have hsame : g.drop.current = g.current := if_neg hlast
      have hnew : p ∉ h := ho.fresh _ p (running_drop hc hlast hp) (.inr (by omega))
      refine .inl ⟨k, ho.forward hd' (by omega) (fun i q hic hi => ?_) hk rfl hp hne hnew⟩
      exact place_of_drop hc (hsame ▸ hic) hi

/-- The last member moves to the front of `t`; it is not `t`, which has no turn now. -/
theorem Inbound.drop (ho : Inbound t h g k) (hd : g.members.Nodup)
    (hc : g.current < g.queue.length) (hp : g.drop.running = some p) (hne : p ≠ t) :
    Inbound t (h ++ [p]) g.drop k := by
  have hd' : g.drop.members.Nodup := (nodup_drop hd (List.getElem?_eq_getElem hc)).2
  have hk : k < g.queue.length := (List.getElem?_eq_some_iff.mp ho.place).1
  have hlt := ho.lt
  have hsame : g.drop.current = g.current := if_neg (by omega)
  have hp' : g.queue[g.queue.length - 1]? = some p := running_drop hc (by omega) hp
  have hkl : k ≠ g.queue.length - 1 := by
    rintro rfl
    exact hne (Option.some.inj (hp'.symm.trans ho.place))
  refine ho.forward hd' (by omega) (by omega) (fun i q hic hi => ?_)
    (place_drop hc ho.place (by omega) (by omega)) rfl hp (notMem_waiting hd hp')
    (ho.later _ p hp' (by omega))
  exact place_of_drop hc (hsame ▸ hic) hi

/-- Dropping out. -/
theorem Phase.drop (ho : Phase t h g) (hd : g.members.Nodup) (hc : g.current < g.queue.length)
    (hp : g.drop.running = some p) (hne : p ≠ t) : Phase t (h ++ [p]) g.drop := by
  rcases ho with ⟨k, ho⟩ | ⟨k, ho⟩ | ho
  · exact ho.drop hd hc hp hne
  · exact .inr (.inl ⟨k, ho.drop hd hc hp hne⟩)
  · refine .inr (.inr fun ht => ho ?_)
    exact (members_drop (List.getElem?_eq_getElem hc)).mem_iff.mpr (List.mem_cons_of_mem _ ht)

/-- Arrivals do not change the phase. -/
theorem Phase.arrives (ho : Phase t h g) (ha : Arrives g g') : Phase t h g' := by
  rcases ho with ⟨k, ho⟩ | ⟨k, ho⟩ | ho
  · exact .inl ⟨k, ho.arrives ha⟩
  · exact .inr (.inl ⟨k, ho.arrives ha⟩)
  · exact .inr (.inr fun ht => ho (ha.members.mem_iff.mp ht))

/-- When the only member of the queue drops out, it is `t`, or `t` has gone before. -/
theorem Phase.drop_only (ho : Phase t h g) (hd : g.members.Nodup)
    (hc : g.current < g.queue.length) (hone : g.queue.length = 1) : t ∉ g.drop.members := by
  have hrunning := List.getElem?_eq_getElem hc
  rcases ho with ⟨k, ho⟩ | ⟨k, ho⟩ | ho
  · have hk : k = g.current := by
      have hle := ho.le
      have hlt := (List.getElem?_eq_some_iff.mp ho.place).1
      omega
    have ht : g.running = some t := by rw [← ho.place, hk]; rfl
    exact (nodup_drop hd ht).1
  · have hlt := ho.lt
    have hk := (List.getElem?_eq_some_iff.mp ho.place).1
    omega
  · exact fun ht => ho ((members_drop hrunning).mem_iff.mpr (List.mem_cons_of_mem _ ht))

/-- **One turn** that `t` does not get. -/
theorem Phase.turn (ho : Phase t h g) (hd : g.members.Nodup) (hc : g.current < g.queue.length)
    (hturn : Turn g d g') (hp : g'.running = some p) (hne : p ≠ t) : Phase t (h ++ [p]) g' := by
  cases hturn with
  | pass ha => exact (ho.arrives ha).pass (ha.nodup hd) hp hne
  | drop ha => exact (ho.arrives ha).drop (ha.nodup hd) (ha.lt hc) hp hne
  | wait ha hone ha' =>
    refine .inr (.inr fun ht => ?_)
    exact (ho.arrives ha).drop_only (ha.nodup hd) (ha.lt hc) hone (ha'.members.mem_iff.mp ht)

/-! ### All turns -/

omit [DecidableEq α] in
/-- A turn brings in nobody new. -/
theorem Turn.members_subset (hc : g.current < g.queue.length) (hturn : Turn g d g') :
    (g.members.Nodup → g'.members.Nodup) ∧ ∀ p ∈ g'.members, p ∈ g.members := by
  cases hturn with
  | pass ha => exact ⟨ha.nodup, fun p hp => ha.members.mem_iff.mp hp⟩
  | drop ha =>
    have hrunning := List.getElem?_eq_getElem (ha.lt hc)
    refine ⟨fun hd => (nodup_drop (ha.nodup hd) hrunning).2, fun p hp => ?_⟩
    exact ha.members.mem_iff.mp ((members_drop hrunning).mem_iff.mpr (List.mem_cons_of_mem _ hp))
  | wait ha hone ha' =>
    have hrunning := List.getElem?_eq_getElem (ha.lt hc)
    refine ⟨fun hd => ha'.nodup (nodup_drop (ha.nodup hd) hrunning).2, fun p hp => ?_⟩
    have hp' := ha'.members.mem_iff.mp hp
    exact ha.members.mem_iff.mp ((members_drop hrunning).mem_iff.mpr (List.mem_cons_of_mem _ hp'))

omit [DecidableEq α] in
/-- After any turns, nobody is in the queue twice, and the turn is somebody's. -/
theorem Turns.valid (hd : g₀.members.Nodup) (hc : g₀.current < g₀.queue.length)
    (hs : Turns g₀ h x g) : g.members.Nodup ∧ g.current < g.queue.length := by
  induction hs with
  | start => exact ⟨hd, hc⟩
  | turn _ hturn hp ih =>
    exact ⟨(hturn.members_subset ih.2).1 ih.1, (List.getElem?_eq_some_iff.mp hp).1⟩

/-- **Until `t` has its turn again**, every turn keeps to one of the two phases. -/
theorem Turns.phase (hd : g₀.members.Nodup) (ht : g₀.running = some t) (hs : Turns g₀ h x g)
    (hnot : t ∉ h) : Phase t h g := by
  have hc : g₀.current < g₀.queue.length := (List.getElem?_eq_some_iff.mp ht).1
  induction hs with
  | start =>
    exact .inl ⟨g₀.current, ht, Nat.le_refl _, fun _ _ _ _ => List.not_mem_nil,
      fun _ => Nat.zero_le 1, fun _ _ => List.not_mem_nil⟩
  | turn hs hturn hp ih =>
    obtain ⟨hnot, hne⟩ := notMem_concat.mp hnot
    have hvalid := hs.valid hd hc
    exact (ih hnot).turn hvalid.1 hvalid.2 hturn hp hne.symm

/-- **Bounded overtaking.**  Between two turns of `t` nobody has more than two. -/
theorem overtaken_at_most_twice (hd : g₀.members.Nodup) (ht : g₀.running = some t)
    (hs : Turns g₀ (h ++ [t]) x g) (hnot : t ∉ h) (u : α) : h.count u ≤ 2 := by
  have hc : g₀.current < g₀.queue.length := (List.getElem?_eq_some_iff.mp ht).1
  generalize hlast : h ++ [t] = h' at hs
  cases hs with
  | start => simp at hlast
  | turn hs hturn hp =>
    obtain ⟨rfl, hpt⟩ := List.append_inj' hlast rfl
    obtain rfl := List.singleton_inj.mp hpt
    rcases hs.phase hd ht hnot with ⟨k, ho⟩ | ⟨k, ho⟩ | ho
    · exact Nat.le_succ_of_le (ho.once u)
    · exact ho.twice u
    · -- it has the turn again, so it has not dropped out
      have hmem := List.mem_append_left g.waiting (List.mem_of_getElem? hp)
      exact absurd ((hturn.members_subset (hs.valid hd hc).2).2 _ hmem) ho

/-! ### Turns without anybody dropping out -/

/-- The turns since the one at `g₀` have gone round in the order of the queue, to which others have
    been added. -/
def Rotated (g₀ : Rota α) (h : List α) (g : Rota α) : Prop :=
  g₀.queue <+: g.queue ∧
    ((g₀.current ≤ g.current ∧ h = (g.queue.take (g.current + 1)).drop (g₀.current + 1)) ∨
    (g.current < g₀.current ∧ ∃ b, g₀.queue ++ b <+: g.queue ∧
      h = (g₀.queue ++ b).drop (g₀.current + 1) ++ g₀.queue.take (g.current + 1)))

omit [DecidableEq α] in
/-- Arrivals go to the end, behind those who have been counted. -/
theorem Rotated.arrives (hr : Rotated g₀ h g) (hc : g.current < g.queue.length)
    (ha : Arrives g g') : Rotated g₀ h g' := by
  obtain ⟨a, hqueue, -⟩ := ha.arrived
  have hmore : g.queue <+: g'.queue := ⟨a, hqueue.symm⟩
  obtain ⟨hfront, hr⟩ := hr
  refine ⟨hfront.trans hmore, ?_⟩
  rw [ha.current]
  rcases hr with ⟨hle, rfl⟩ | ⟨hlt, b, hb, rfl⟩
  · refine .inl ⟨hle, ?_⟩
    rw [hqueue, List.take_append_of_le_length hc]
  · exact .inr ⟨hlt, b, hb.trans hmore, rfl⟩

omit [DecidableEq α] in
/-- A place in the front of a queue is the same place in the queue. -/
theorem getElem?_of_front {l l' : List α} (hfront : l <+: l') (hi : l[i]? = some p) :
    l'[i]? = some p := by
  obtain ⟨a, rfl⟩ := hfront
  rw [List.getElem?_append_left (List.getElem?_eq_some_iff.mp hi).1, hi]

omit [DecidableEq α] in
/-- The turn passes to the next one, who has not had a turn yet. -/
theorem Rotated.pass (hr : Rotated g₀ h g) (hc : g.current < g.queue.length)
    (ht : g₀.running = some t) (hp : g.pass.running = some p) (hne : p ≠ t) :
    Rotated g₀ (h ++ [p]) g.pass := by
  obtain ⟨hfront, hr⟩ := hr
  have hk : g₀.current < g₀.queue.length := (List.getElem?_eq_some_iff.mp ht).1
  have hcur : g.pass.current ≠ g₀.current := by
    intro heq
    have hplace : g.queue[g.pass.current]? = some t := by
      rw [heq]
      exact getElem?_of_front hfront ht
    exact hne (Option.some.inj (hp.symm.trans hplace))
  refine ⟨hfront, ?_⟩
  rcases hr with ⟨hle, rfl⟩ | ⟨hlt, b, hb, rfl⟩
  · by_cases hlast : g.current + 1 = g.queue.length
    · -- the whole queue behind `t` has had its turn
      have hzero : g.pass.current = 0 := if_pos hlast
      obtain ⟨a, ha⟩ := hfront
      refine .inr ⟨by omega, a, ha ▸ List.prefix_rfl, ?_⟩
      have hp' : g₀.queue[0]? = some p := by
        have hzero' : g.queue[0]? = some p := by rw [← hzero]; exact hp
        rwa [← ha, List.getElem?_append_left (by omega)] at hzero'
      rw [hlast, List.take_length, ha, hzero, List.take_add_one, hp']
      rfl
    · have hnext : g.pass.current = g.current + 1 := if_neg hlast
      refine .inl ⟨by omega, ?_⟩
      have hp' : g.queue[g.current + 1]? = some p := by rw [← hnext]; exact hp
      show _ = (g.queue.take (g.pass.current + 1)).drop _
      rw [hnext, List.take_add_one (i := g.current + 1), hp', List.drop_append_of_le_length]
      · rfl
      · rw [List.length_take]
        omega
  · have hlen := hfront.length_le
    have hnext : g.pass.current = g.current + 1 := if_neg (by omega)
    refine .inr ⟨by omega, b, hb, ?_⟩
    have hp' : g₀.queue[g.current + 1]? = some p := by
      have hnext' : g.queue[g.current + 1]? = some p := by rw [← hnext]; exact hp
      obtain ⟨a, ha⟩ := hfront
      rwa [← ha, List.getElem?_append_left (by omega)] at hnext'
    rw [hnext, List.append_assoc, List.take_add_one (i := g.current + 1), hp']
    rfl

omit [DecidableEq α] in
/-- **Without exits**, the turns since that of `t` go around the queue in order. -/
theorem Turns.rotated (hd : g₀.members.Nodup) (ht : g₀.running = some t)
    (hs : Turns g₀ h false g) (hnot : t ∉ h) : Rotated g₀ h g := by
  have hc : g₀.current < g₀.queue.length := (List.getElem?_eq_some_iff.mp ht).1
  generalize hx : false = x at hs
  induction hs with
  | start =>
    refine ⟨List.prefix_rfl, .inl ⟨Nat.le_refl _, ?_⟩⟩
    rw [List.drop_eq_nil_of_le (List.length_take_le _ _)]
  | turn hs hturn hp ih =>
    obtain ⟨hnot, hne⟩ := notMem_concat.mp hnot
    obtain ⟨hx', rfl⟩ := Bool.or_eq_false_iff.mp hx.symm
    have hc' := (hs.valid hd hc).2
    cases hturn with
    | pass ha =>
      exact ((ih hnot hx'.symm).arrives hc' ha).pass (ha.lt hc') ht hp hne.symm

/-- The others of a queue, from behind `t` round to it. -/
theorem count_others {l : List α} (hl : l.Nodup) (hk : l[k]? = some t) (hu : u ∈ l) (hne : u ≠ t) :
    (l.drop (k + 1) ++ l.take k).count u = 1 := by
  obtain ⟨hlt, rfl⟩ := List.getElem?_eq_some_iff.mp hk
  have hperm : l.Perm (l[k] :: (l.drop (k + 1) ++ l.take k)) := by
    have hsplit : l = l.take k ++ l.drop k := (List.take_append_drop k l).symm
    rw [List.drop_eq_getElem_cons hlt] at hsplit
    exact (List.Perm.of_eq hsplit).trans List.perm_append_comm
  have hcount := hperm.count_eq u
  rw [List.count_eq_one_of_mem hl hu, List.count_cons_of_ne hne.symm] at hcount
  exact hcount.symm

/-- The turn comes back to `t`. -/
theorem Rotated.closes (hr : Rotated g₀ h g) (hd : g.members.Nodup) (ht : g₀.running = some t)
    (hp : g.pass.running = some t) (hu : u ∈ g₀.queue) (hne : u ≠ t) : h.count u = 1 := by
  obtain ⟨hfront, hr⟩ := hr
  have hqueue : g.queue.Nodup := hd.of_append_left
  have hplace : g.queue[g₀.current]? = some t := getElem?_of_front hfront ht
  have hcur : g.pass.current = g₀.current := index_inj hd hp hplace
  have hk : g₀.current < g₀.queue.length := (List.getElem?_eq_some_iff.mp ht).1
  rcases hr with ⟨hle, rfl⟩ | ⟨hlt, b, hb, rfl⟩
  · -- `t` is the first member
    have hlast : g.current + 1 = g.queue.length := by
      by_contra hlast
      have hnext : g.pass.current = g.current + 1 := if_neg hlast
      omega
    have hzero : g.pass.current = 0 := if_pos hlast
    have hcount := count_others hqueue hplace (hfront.subset hu) hne
    rw [← hcur, hzero] at hcount ⊢
    rw [hlast, List.take_length]
    rwa [List.take_zero, List.append_nil] at hcount
  · have hlen := hfront.length_le
    have hnext : g.pass.current = g.current + 1 := if_neg (by omega)
    have hcount := count_others (hqueue.sublist hb.sublist)
      (getElem?_of_front (List.prefix_append _ b) ht) (List.mem_append_left b hu) hne
    have hbehind : g₀.current = g.current + 1 := by rw [← hcur, hnext]
    rw [List.take_append_of_le_length (Nat.le_of_lt hk)] at hcount
    rwa [← hbehind]

/-- **Exactly once.**  If nobody drops out between two turns of `t`, then everybody who was in the
    queue at the first of them has one turn. -/
theorem exactly_once (hd : g₀.members.Nodup) (ht : g₀.running = some t)
    (hs : Turns g₀ (h ++ [t]) false g) (hnot : t ∉ h) (hu : u ∈ g₀.queue) (hne : u ≠ t) :
    h.count u = 1 := by
  have hc : g₀.current < g₀.queue.length := (List.getElem?_eq_some_iff.mp ht).1
  generalize hlast : h ++ [t] = h' at hs
  generalize hx : false = x at hs
  cases hs with
  | start => simp at hlast
  | turn hs hturn hp =>
    obtain ⟨rfl, hpt⟩ := List.append_inj' hlast rfl
    obtain rfl := List.singleton_inj.mp hpt
    obtain ⟨rfl, rfl⟩ := Bool.or_eq_false_iff.mp hx.symm
    obtain ⟨hd', hc'⟩ := hs.valid hd hc
    cases hturn with
    | pass ha =>
      exact ((hs.rotated hd ht hnot).arrives hc' ha).closes (ha.nodup hd') ht hp hu hne

end SystemProgramming.RoundRobin
