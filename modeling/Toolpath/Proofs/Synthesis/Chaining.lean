import Mathlib
import Toolpath.Synthesis.Chain

/-!
# Chaining

The segments of a slice are joined into chains in the order in which they happen to fit, each one
forward or backward, at either end. Whether two points are the same vertex is a test of a distance,
and nothing is assumed of it: it may hold of points that differ, it may fail for a point and itself,
and a coordinate may be no number. So what is proved here is bookkeeping. Every piece that a pass
takes away is exactly one step of the chain, and what it takes away and what it leaves are the
pieces that it was given.

A chain is given up when a whole pass joined nothing. In that pass the chain did not change, so its
two ends, which every piece left was tried against, are those that it keeps.

## Main definitions

* `Chain.steps` — the pairs of consecutive points of a chain
* `Chain.Traces` — a step goes along a piece
* `Chain.growWithin`, `Chain.allWithin` — the loops with a bound on the passes they may make
* `Chain.Accounts` — chains go along every piece once, and are given up for good

## Main results

* `Chain.joins_grow` — what one chain takes, and what it leaves
* `Chain.allWithin_eq` — the loops end
* `Chain.all_accounts` — joining loses and doubles no piece
-/

namespace Toolpath

namespace Chain

variable {R : Type}

/-! ### Steps -/

/-- The pairs of consecutive points. -/
def steps (c : Chain R) : List (Piece R) := c.points.zip c.points.tail

@[simp] theorem steps_single (s : Piece R) : (single s).steps = [s] := rfl

@[simp] theorem head?_points (c : Chain R) : c.points.head? = some c.head := rfl

@[simp] theorem getLast?_points (c : Chain R) : c.points.getLast? = some c.tail := by
  simp [points, List.getLast?_cons]

theorem length_steps (c : Chain R) : c.steps.length + 1 = c.points.length := by
  simp [steps, points]

/-- A point before the first makes a step to it. -/
theorem steps_cons (c : Chain R) (p : Vec2 R) : (c.cons p).steps = (p, c.head) :: c.steps := by
  rw [steps, points_cons]
  rfl

/-- A point behind the last makes a step from it. -/
theorem steps_push (c : Chain R) (p : Vec2 R) : (c.push p).steps = c.steps ++ [(c.tail, p)] := by
  have hzip (a : Vec2 R) (xs : List (Vec2 R)) (z : Vec2 R) :
      (a :: (xs ++ [z, p])).zip (xs ++ [z, p]) =
        (a :: (xs ++ [z])).zip (xs ++ [z]) ++ [(z, p)] := by
    induction xs generalizing a with
    | nil => rfl
    | cons x xs ih => exact congrArg ((a, x) :: ·) (ih x)
  have hpoints : c.points = c.head :: (c.front ++ c.back.reverse ++ [c.tail]) := by
    simp [points]
  rw [steps, steps, points_push, hpoints, List.cons_append, List.append_assoc, List.tail_cons,
    List.tail_cons]
  exact hzip c.head (c.front ++ c.back.reverse) c.tail

variable [Analytic R]

/-- A point is the end of a piece, or taken for it. -/
def Near (a p : Vec2 R) : Prop := p = a ∨ meets a p = true

/-- A step goes along a piece: one end of it is an end of the piece, and the other one is the other
end of the piece or taken for it. -/
inductive Traces (s : Piece R) : Piece R → Prop where
  /-- It ends where the piece does. -/
  | forward {p : Vec2 R} (h : Near s.1 p) : Traces s (p, s.2)
  /-- It ends where the piece begins. -/
  | backward {p : Vec2 R} (h : Near s.2 p) : Traces s (p, s.1)
  /-- It begins where the piece does. -/
  | onward {q : Vec2 R} (h : Near s.2 q) : Traces s (s.1, q)
  /-- It begins where the piece ends. -/
  | returning {q : Vec2 R} (h : Near s.1 q) : Traces s (s.2, q)

/-- Some steps go along some pieces, each along one of them. -/
def TracesAll (pieces steps : List (Piece R)) : Prop :=
  ∃ order, order.Perm pieces ∧ List.Forall₂ Traces order steps

theorem TracesAll.append {ps qs ss ts : List (Piece R)} (h : TracesAll ps ss)
    (h' : TracesAll qs ts) : TracesAll (ps ++ qs) (ss ++ ts) := by
  obtain ⟨order, hperm, htraces⟩ := h
  obtain ⟨order', hperm', htraces'⟩ := h'
  exact ⟨order ++ order', hperm.append hperm', List.rel_append htraces htraces'⟩

theorem TracesAll.perm {ps qs ss : List (Piece R)} (h : TracesAll ps ss) (hperm : ps.Perm qs) :
    TracesAll qs ss := by
  obtain ⟨order, horder, htraces⟩ := h
  exact ⟨order, horder.trans hperm, htraces⟩

theorem TracesAll.length_eq {ps ss : List (Piece R)} (h : TracesAll ps ss) :
    ss.length = ps.length := by
  obtain ⟨order, hperm, htraces⟩ := h
  rw [← htraces.length_eq, hperm.length_eq]

theorem tracesAll_singleton {s q : Piece R} (h : Traces s q) : TracesAll [s] [q] :=
  ⟨[s], .refl _, .cons h .nil⟩

/-! ### One chain -/

/-- A chain consists of some pieces: its steps go along them, and its points are their ends. -/
structure Joins (c : Chain R) (pieces : List (Piece R)) : Prop where
  /-- The steps go along the pieces. -/
  traced : TracesAll pieces c.steps
  /-- Every point is an end of a piece. -/
  points : ∀ p ∈ c.points, ∃ s ∈ pieces, p = s.1 ∨ p = s.2

/-- No piece has an end where the chain ends. -/
def Done (c : Chain R) (pieces : List (Piece R)) : Prop := ∀ s ∈ pieces, c.join? s = none

theorem joins_single (s : Piece R) : (single s).Joins [s] where
  traced := tracesAll_singleton (.forward (.inl rfl))
  points := by
    intro p hp
    exact ⟨s, List.mem_singleton_self s, by simpa using hp⟩

theorem join?_eq_none_iff (c : Chain R) (s : Piece R) :
    c.join? s = none ↔ (meets s.1 c.tail = false ∧ meets s.2 c.tail = false) ∧
      meets s.2 c.head = false ∧ meets s.1 c.head = false := by
  rw [join?]
  cases meets s.1 c.tail <;> cases meets s.2 c.tail <;> cases meets s.2 c.head <;>
    cases meets s.1 c.head <;> simp

/-- A point behind the last that is an end of a piece. -/
theorem Joins.push {c : Chain R} {pieces : List (Piece R)} (h : c.Joins pieces) {s : Piece R}
    {p : Vec2 R} (hp : p = s.1 ∨ p = s.2) (hs : Traces s (c.tail, p)) :
    (c.push p).Joins (s :: pieces) where
  traced := by
    rw [steps_push]
    exact (h.traced.append (tracesAll_singleton hs)).perm (List.perm_append_singleton s pieces)
  points := by
    intro q hq
    rw [points_push, List.mem_append, List.mem_singleton] at hq
    rcases hq with hq | rfl
    · obtain ⟨t, ht, hends⟩ := h.points q hq
      exact ⟨t, List.mem_cons_of_mem s ht, hends⟩
    · exact ⟨s, List.mem_cons_self, hp⟩

/-- A point before the first that is an end of a piece. -/
theorem Joins.cons {c : Chain R} {pieces : List (Piece R)} (h : c.Joins pieces) {s : Piece R}
    {p : Vec2 R} (hp : p = s.1 ∨ p = s.2) (hs : Traces s (p, c.head)) :
    (c.cons p).Joins (s :: pieces) where
  traced := by
    rw [steps_cons]
    exact (tracesAll_singleton hs).append h.traced
  points := by
    intro q hq
    rw [points_cons] at hq
    rcases List.mem_cons.mp hq with rfl | hq
    · exact ⟨s, List.mem_cons_self, hp⟩
    · obtain ⟨t, ht, hends⟩ := h.points q hq
      exact ⟨t, List.mem_cons_of_mem s ht, hends⟩

/-- **A piece that is joined** is one step more, at either end and in either direction. -/
theorem Joins.join? {c d : Chain R} {pieces : List (Piece R)} (h : c.Joins pieces) {s : Piece R}
    (hd : c.join? s = some d) : d.Joins (s :: pieces) := by
  rw [Chain.join?] at hd
  split at hd
  · rename_i hmeets
    obtain rfl := Option.some.inj hd
    exact h.push (.inr rfl) (.forward (.inr hmeets))
  split at hd
  · rename_i hmeets
    obtain rfl := Option.some.inj hd
    exact h.push (.inl rfl) (.backward (.inr hmeets))
  split at hd
  · rename_i hmeets
    obtain rfl := Option.some.inj hd
    exact h.cons (.inl rfl) (.onward (.inr hmeets))
  split at hd
  · rename_i hmeets
    obtain rfl := Option.some.inj hd
    exact h.cons (.inr rfl) (.returning (.inr hmeets))
  · cases hd

/-- What a chain that consists of some pieces takes of others, and what it leaves of them. -/
structure Takes (used pieces : List (Piece R)) (r : Chain R × List (Piece R)) : Prop where
  /-- The chain consists of the pieces that it had and those that it takes. -/
  taken : ∃ taken, r.1.Joins (taken ++ used) ∧ (taken ++ r.2).Perm pieces
  /-- The pieces left are in their order. -/
  left : r.2.Sublist pieces

/-- **One pass** takes some pieces and leaves the others. -/
theorem Joins.sweep {c : Chain R} {used : List (Piece R)} (h : c.Joins used)
    (pieces : List (Piece R)) : Takes used pieces (c.sweep pieces) := by
  induction pieces generalizing c used with
  | nil => exact ⟨⟨[], h, .nil⟩, .slnil⟩
  | cons s rest ih =>
    rw [Chain.sweep]
    cases hd : c.join? s with
    | some d =>
      obtain ⟨⟨taken, hjoins, hperm⟩, hleft⟩ := ih (h.join? hd)
      refine ⟨⟨taken ++ [s], ?_, ?_⟩, hleft.cons s⟩
      · rw [List.append_assoc]
        exact hjoins
      · rw [List.append_assoc]
        exact List.perm_middle.trans (hperm.cons s)
    | none =>
      obtain ⟨⟨taken, hjoins, hperm⟩, hleft⟩ := ih h
      exact ⟨⟨taken, hjoins, List.perm_middle.trans (hperm.cons s)⟩, hleft.cons_cons s⟩

/-- **A pass that takes nothing** found no piece with an end where the chain ends. -/
theorem sweep_of_length_eq {c : Chain R} {pieces : List (Piece R)}
    (h : ¬ (c.sweep pieces).2.length < pieces.length) :
    c.sweep pieces = (c, pieces) ∧ c.Done pieces := by
  induction pieces with
  | nil => exact ⟨rfl, List.forall_mem_nil _⟩
  | cons s rest ih =>
    rw [Chain.sweep] at h ⊢
    cases hd : c.join? s with
    | some d =>
      rw [hd] at h
      have hle := length_sweep_le d rest
      exact absurd (Nat.lt_succ_of_le hle) h
    | none =>
      rw [hd] at h
      obtain ⟨hsweep, hdone⟩ := ih fun hlt => h (Nat.succ_lt_succ hlt)
      exact ⟨by rw [hsweep], List.forall_mem_cons.mpr ⟨hd, hdone⟩⟩

/-- **A chain that is given up** has taken some pieces, and none that is left has an end where it
ends. -/
theorem joins_grow (c : Chain R) (pieces : List (Piece R)) {used : List (Piece R)}
    (h : c.Joins used) :
    Takes used pieces (c.grow pieces) ∧ (c.grow pieces).1.Done (c.grow pieces).2 := by
  revert used
  fun_induction grow c pieces with
  | case1 c pieces swept hlt =>
    rename_i ih
    intro used h
    obtain ⟨⟨taken, hjoins, hperm⟩, hleft⟩ := h.sweep pieces
    obtain ⟨⟨⟨more, hmore, hmoreperm⟩, hless⟩, hdone⟩ := ih hjoins
    refine ⟨⟨⟨more ++ taken, ?_, ?_⟩, hless.trans hleft⟩, hdone⟩
    · rw [List.append_assoc]
      exact hmore
    · -- what this pass leaves is what the later ones take and what they leave
      rw [List.append_assoc]
      exact (List.perm_append_comm_assoc _ _ _).trans ((hmoreperm.append_left taken).trans hperm)
  | case2 c pieces swept =>
    rename_i hlt
    intro used h
    obtain ⟨hsweep, hdone⟩ := sweep_of_length_eq hlt
    refine ⟨h.sweep pieces, ?_⟩
    rw [show swept = (c, pieces) from hsweep]
    exact hdone

/-! ### All chains -/

/-- Chains that come from some pieces one after the other: each of them takes some pieces, and none
of those that it leaves for the later ones has an end where it ends. -/
inductive Follows : List (Piece R) → List (Chain R) → Prop where
  /-- No chains from no pieces. -/
  | nil : Follows [] []
  /-- A chain, and those that come from what it leaves. -/
  | cons {pieces used left : List (Piece R)} {c : Chain R} {later : List (Chain R)}
    (hjoins : c.Joins used) (hperm : (used ++ left).Perm pieces) (hleft : left.Sublist pieces)
    (hdone : c.Done left) (hlater : Follows left later) : Follows pieces (c :: later)

/-- **The chains that pieces form** come from them one after the other. -/
theorem follows_all (pieces : List (Piece R)) : Follows pieces (all pieces) := by
  fun_induction all pieces with
  | case1 => exact .nil
  | case2 s rest grown ih =>
    obtain ⟨⟨⟨taken, hjoins, hperm⟩, hleft⟩, hdone⟩ := joins_grow _ rest (joins_single s)
    refine .cons hjoins ?_ (hleft.cons s) hdone ih
    rw [List.append_assoc]
    exact List.perm_middle.trans (hperm.cons s)

namespace Follows

variable {pieces : List (Piece R)} {chains : List (Chain R)}

theorem traced (h : Follows pieces chains) : TracesAll pieces (chains.flatMap steps) := by
  induction h with
  | nil => exact ⟨[], .refl _, .nil⟩
  | cons hjoins hperm _ _ _ ih =>
    rw [List.flatMap_cons]
    exact (hjoins.traced.append ih).perm hperm

/-- Every point of the chains is an end of a piece. -/
theorem exists_end (h : Follows pieces chains) {c : Chain R} (hc : c ∈ chains) {p : Vec2 R}
    (hp : p ∈ c.points) : ∃ s ∈ pieces, p = s.1 ∨ p = s.2 := by
  induction h with
  | nil => cases hc
  | cons hjoins hperm hleft _ _ ih =>
    rcases List.mem_cons.mp hc with rfl | hc
    · obtain ⟨s, hs, hends⟩ := hjoins.points p hp
      exact ⟨s, hperm.subset (List.mem_append_left _ hs), hends⟩
    · obtain ⟨s, hs, hends⟩ := ih hc
      exact ⟨s, hleft.subset hs, hends⟩

/-- Where a chain is given up, the pieces divide into those of the chains so far and those left. -/
theorem exists_left (h : Follows pieces chains) {before after : List (Chain R)} {c : Chain R}
    (hchains : chains = before ++ c :: after) :
    ∃ used left, (used ++ left).Perm pieces ∧ left.Sublist pieces ∧
      TracesAll used ((before ++ [c]).flatMap steps) ∧ c.Done left ∧ Follows left after := by
  induction h generalizing before with
  | nil => exact absurd hchains (by simp)
  | @cons pieces used left d later hjoins hperm hleft hdone hlater ih =>
    cases before with
    | nil =>
      obtain ⟨rfl, rfl⟩ := List.cons.inj hchains
      refine ⟨used, left, hperm, hleft, ?_, hdone, hlater⟩
      rw [List.nil_append, List.flatMap_singleton]
      exact hjoins.traced
    | cons e before =>
      obtain ⟨rfl, hrest⟩ := List.cons.inj hchains
      obtain ⟨more, less, hmore, hless, htraced, hmisses, hafter⟩ := ih hrest
      refine ⟨used ++ more, less, ?_, hless.trans hleft, ?_, hmisses, hafter⟩
      · rw [List.append_assoc]
        exact (hmore.append_left used).trans hperm
      · rw [List.cons_append, List.flatMap_cons]
        exact hjoins.traced.append htraced

end Follows

/-- A point is not taken for the first or the last point of a chain. -/
def Misses (c : Chain R) (p : Vec2 R) : Prop :=
  ∀ q, c.points.head? = some q ∨ c.points.getLast? = some q → meets p q = false

theorem Done.misses {c : Chain R} {pieces : List (Piece R)} (h : c.Done pieces) {s : Piece R}
    (hs : s ∈ pieces) : c.Misses s.1 ∧ c.Misses s.2 := by
  obtain ⟨⟨hfirst, hsecond⟩, hsecond', hfirst'⟩ := (c.join?_eq_none_iff s).mp (h s hs)
  rw [Misses, Misses, head?_points, getLast?_points]
  constructor
  · rintro q (hq | hq)
    · exact Option.some.inj hq ▸ hfirst'
    · exact Option.some.inj hq ▸ hfirst
  · rintro q (hq | hq)
    · exact Option.some.inj hq ▸ hsecond'
    · exact Option.some.inj hq ▸ hsecond

/-- Chains go along every piece once, and each of them is given up for good. -/
structure Accounts (pieces : List (Piece R)) (chains : List (Chain R)) : Prop where
  /-- A chain has two points at least. -/
  two_le : ∀ c ∈ chains, 2 ≤ c.points.length
  /-- There are as many steps as pieces. -/
  count : (chains.map fun c => c.points.length - 1).sum = pieces.length
  /-- The steps of all chains go along the pieces, each along one of them. -/
  traced : TracesAll pieces (chains.flatMap steps)
  /-- Where a chain is given up, the pieces divide into those that the chains so far go along and
  those left, which the later ones go along. None of those left has an end where the chain begins or
  ends, and no later chain has a point there. -/
  closed : ∀ before c after, chains = before ++ c :: after → ∃ used left,
    (used ++ left).Perm pieces ∧ left.Sublist pieces ∧
      TracesAll used ((before ++ [c]).flatMap steps) ∧ TracesAll left (after.flatMap steps) ∧
      (∀ s ∈ left, c.Misses s.1 ∧ c.Misses s.2) ∧
      ∀ later ∈ after, ∀ p ∈ later.points, c.Misses p

theorem Follows.accounts {pieces : List (Piece R)} {chains : List (Chain R)}
    (h : Follows pieces chains) : Accounts pieces chains where
  two_le := by
    intro c _
    simp only [points, List.length_cons, List.length_append, List.length_reverse]
    omega
  count := by
    have hsteps : (chains.map fun c => c.points.length - 1).sum =
        (chains.flatMap steps).length := by
      rw [List.length_flatMap]
      refine congrArg List.sum (List.map_congr_left fun c _ => ?_)
      have hlength := c.length_steps
      omega
    rw [hsteps, h.traced.length_eq]
  traced := h.traced
  closed := by
    intro before c after hchains
    obtain ⟨used, left, hperm, hleft, htraced, hdone, hafter⟩ := h.exists_left hchains
    refine ⟨used, left, hperm, hleft, htraced, hafter.traced, fun s hs => hdone.misses hs, ?_⟩
    intro later hlater p hp
    obtain ⟨s, hs, rfl | rfl⟩ := hafter.exists_end hlater hp
    · exact (hdone.misses hs).1
    · exact (hdone.misses hs).2

/-! ### The loops end -/

/-- The passes of one chain, if there are no more of them than `passes`. -/
def growWithin : Nat → Chain R → List (Piece R) → Option (Chain R × List (Piece R))
  | 0, _, _ => none
  | passes + 1, c, pieces =>
    let swept := c.sweep pieces
    if swept.2.length < pieces.length then growWithin passes swept.1 swept.2 else some swept

/-- The chains of some pieces, if there are no more of them than `chains`, and no more passes for
each. -/
def allWithin : Nat → List (Piece R) → Option (List (Chain R))
  | _, [] => some []
  | 0, _ :: _ => none
  | chains + 1, s :: rest =>
    ((single s).growWithin (chains + 1) rest).bind fun grown =>
      (allWithin chains grown.2).map (grown.1 :: ·)

/-- Every pass but the last takes a piece. -/
theorem growWithin_eq {passes : Nat} {c : Chain R} {pieces : List (Piece R)}
    (h : pieces.length < passes) : c.growWithin passes pieces = some (c.grow pieces) := by
  induction passes generalizing c pieces with
  | zero => exact absurd h (Nat.not_lt_zero _)
  | succ passes ih =>
    rw [growWithin, grow]
    split
    · exact ih (by omega)
    · rfl

/-- **The loops end**: there are no more chains than pieces, and no more passes for a chain. -/
theorem allWithin_eq {bound : Nat} {pieces : List (Piece R)} (h : pieces.length ≤ bound) :
    allWithin bound pieces = some (all pieces) := by
  induction bound generalizing pieces with
  | zero =>
    obtain rfl := List.eq_nil_of_length_eq_zero (Nat.le_zero.mp h)
    rw [allWithin, all]
  | succ bound ih =>
    cases pieces with
    | nil => rw [allWithin, all]
    | cons s rest =>
      have hrest : rest.length < bound + 1 := h
      have hleft := length_grow_le (single s) rest
      rw [allWithin, growWithin_eq hrest, Option.bind_some, ih (by omega), all]
      rfl

/-- **Joining loses and doubles no piece**, whatever the test of a distance says of whatever
coordinates: it ends, its chains go along every piece exactly once, and no piece that is left could
have been joined to a chain that was given up. -/
theorem all_accounts (pieces : List (Piece R)) :
    allWithin pieces.length pieces = some (all pieces) ∧ Accounts pieces (all pieces) :=
  ⟨allWithin_eq (Nat.le_refl _), (follows_all pieces).accounts⟩

end Chain

end Toolpath
