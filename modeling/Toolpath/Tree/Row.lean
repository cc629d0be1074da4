/-!
# Rows

A row is a list without repetitions, and a member of it is looked at through its two neighbours.
That is how a linked chain sees its members: taking one out or putting one in changes the links of
at most two others, and the lemmas below say which ones, operation by operation.

`before` is the inverse of `after` (`before_eq_some_iff`), so what an operation does to `before`
and to the last member is derived from what it does to `after`, and no induction is done twice.
-/

namespace Toolpath

namespace Row

variable {α : Type} [DecidableEq α]

/-- The member directly behind `x`. -/
def after (x : α) : List α → Option α
  | [] => none
  | y :: ys => if y = x then ys.head? else after x ys

/-- The member directly before `x` in a row that follows `p`. -/
def beforeFrom (p : Option α) (x : α) : List α → Option α
  | [] => none
  | y :: ys => if y = x then p else beforeFrom (some y) x ys

/-- The member directly before `x`. -/
def before (x : α) (xs : List α) : Option α := beforeFrom none x xs

/-- `x` put directly behind the first `anchor`. -/
def insertBehind (anchor x : α) : List α → List α
  | [] => []
  | y :: ys => if y = anchor then y :: x :: ys else y :: insertBehind anchor x ys

/-- The neighbours `a` and `b` exchanged where `b` directly follows `a`. -/
def exchange (a b : α) : List α → List α
  | [] => []
  | [x] => [x]
  | x :: y :: rest => if x = a ∧ y = b then y :: x :: rest else x :: exchange a b (y :: rest)

/-! ### Neighbours -/

theorem after_cons_self (x : α) (xs : List α) : after x (x :: xs) = xs.head? := if_pos rfl

theorem after_cons_of_ne {x y : α} (h : y ≠ x) (xs : List α) : after x (y :: xs) = after x xs :=
  if_neg h

theorem mem_of_after {x y : α} {xs : List α} (h : after x xs = some y) : x ∈ xs ∧ y ∈ xs := by
  induction xs with
  | nil => simp [after] at h
  | cons z zs ih =>
    by_cases hz : z = x
    · subst hz
      rw [after, if_pos rfl] at h
      exact ⟨List.mem_cons_self, List.mem_cons_of_mem _ (List.mem_of_head? h)⟩
    · rw [after, if_neg hz] at h
      exact ⟨List.mem_cons_of_mem _ (ih h).1, List.mem_cons_of_mem _ (ih h).2⟩

theorem after_of_not_mem {x : α} {xs : List α} (h : x ∉ xs) : after x xs = none :=
  Option.eq_none_iff_forall_ne_some.mpr fun _ hy => h (mem_of_after hy).1

theorem after_ne_self {x : α} {xs : List α} (hn : xs.Nodup) : after x xs ≠ some x := by
  induction xs with
  | nil => simp [after]
  | cons z zs ih =>
    obtain ⟨hz, hn⟩ := List.nodup_cons.mp hn
    by_cases hzx : z = x
    · subst hzx
      rw [after_cons_self]
      exact fun h => hz (List.mem_of_head? h)
    · rw [after_cons_of_ne hzx]
      exact ih hn

theorem after_asymm {x y : α} {xs : List α} (hn : xs.Nodup) (h : after x xs = some y) :
    after y xs ≠ some x := by
  induction xs with
  | nil => simp [after] at h
  | cons z zs ih =>
    obtain ⟨hz, hn⟩ := List.nodup_cons.mp hn
    by_cases hzx : z = x
    · subst hzx
      have hy : y ∈ zs := List.mem_of_head? (after_cons_self z zs ▸ h)
      rw [after_cons_of_ne fun he : z = y => hz (he ▸ hy)]
      exact fun h => hz (mem_of_after h).2
    · rw [after_cons_of_ne hzx] at h
      have hzy : z ≠ y := fun he => hz (he ▸ (mem_of_after h).2)
      rw [after_cons_of_ne hzy]
      exact ih hn h

theorem beforeFrom_eq_some_iff {p : Option α} {x y : α} {xs : List α} (hn : xs.Nodup)
    (hp : ∀ q, p = some q → q ∉ xs) :
    beforeFrom p x xs = some y ↔ (p = some y ∧ xs.head? = some x) ∨ after y xs = some x := by
  induction xs generalizing p with
  | nil => simp [beforeFrom, after]
  | cons z zs ih =>
    obtain ⟨hz, hn⟩ := List.nodup_cons.mp hn
    have hfirst : zs.head? ≠ some z := fun h => hz (List.mem_of_head? h)
    have hlater : after y zs ≠ some z := fun h => hz (mem_of_after h).2
    rw [beforeFrom, after, List.head?_cons, Option.some.injEq]
    by_cases hx : z = x
    · subst hx
      by_cases hy : z = y
      · simp [if_pos hy, hfirst]
      · simp [if_neg hy, hlater]
    · rw [if_neg hx, ih hn fun q hq => Option.some.inj hq ▸ hz]
      by_cases hy : z = y
      · subst hy
        simp [hx, after_of_not_mem hz]
      · simp [hx, hy]

/-- **Before is the inverse of after.** -/
theorem before_eq_some_iff {x y : α} {xs : List α} (hn : xs.Nodup) :
    before x xs = some y ↔ after y xs = some x := by
  rw [before, beforeFrom_eq_some_iff hn (by simp)]
  simp

theorem mem_of_before {x y : α} {xs : List α} (hn : xs.Nodup) (h : before x xs = some y) :
    x ∈ xs ∧ y ∈ xs :=
  (mem_of_after ((before_eq_some_iff hn).mp h)).symm

theorem beforeFrom_eq_none_iff {p : Option α} {x : α} {xs : List α} (hx : x ∈ xs) :
    beforeFrom p x xs = none ↔ p = none ∧ xs.head? = some x := by
  induction xs generalizing p with
  | nil => simp at hx
  | cons z zs ih =>
    rw [beforeFrom]
    by_cases hzx : z = x
    · simp [hzx]
    · rw [if_neg hzx, ih ((List.mem_cons.mp hx).resolve_left (Ne.symm hzx))]
      simp [hzx]

theorem after_eq_none_iff {x : α} {xs : List α} (hn : xs.Nodup) (hx : x ∈ xs) :
    after x xs = none ↔ xs.getLast? = some x := by
  induction xs with
  | nil => simp at hx
  | cons z zs ih =>
    obtain ⟨hz, hzs⟩ := List.nodup_cons.mp hn
    cases zs with
    | nil =>
      obtain rfl : x = z := by simpa using hx
      simp [after]
    | cons y ys =>
      rw [after, List.getLast?_cons_cons]
      by_cases hzx : z = x
      · -- the head has a member behind it, and comes only once
        subst hzx
        have hne : (y :: ys).getLast? ≠ some z := fun h => hz (List.mem_of_getLast? h)
        simp [hne]
      · rw [if_neg hzx]
        exact ih hzs ((List.mem_cons.mp hx).resolve_left (Ne.symm hzx))

theorem before_eq_none_iff {x : α} {xs : List α} (hx : x ∈ xs) :
    before x xs = none ↔ xs.head? = some x := by
  rw [before, beforeFrom_eq_none_iff hx]
  simp

/-- The tail of a row is the member with nothing behind it. -/
theorem getLast?_eq_some_iff {x : α} {xs : List α} (hn : xs.Nodup) :
    xs.getLast? = some x ↔ x ∈ xs ∧ after x xs = none := by
  constructor
  · intro h
    have hx := List.mem_of_getLast? h
    exact ⟨hx, (after_eq_none_iff hn hx).mpr h⟩
  · rintro ⟨hx, h⟩
    exact (after_eq_none_iff hn hx).mp h

/-- Where a row is cut at a member, the cut shows the neighbours. -/
theorem after_append {x : α} {pre ys : List α} (h : x ∉ pre) :
    after x (pre ++ x :: ys) = ys.head? := by
  induction pre with
  | nil => simp [after]
  | cons z zs ih =>
    obtain ⟨hz, hzs⟩ := not_or.mp (mt List.mem_cons.mpr h)
    rw [List.cons_append, after, if_neg (Ne.symm hz), ih hzs]

theorem beforeFrom_append {p : Option α} {x : α} {pre ys : List α} (h : x ∉ pre) :
    beforeFrom p x (pre ++ x :: ys) = pre.getLast?.or p := by
  induction pre generalizing p with
  | nil => simp [beforeFrom]
  | cons z zs ih =>
    obtain ⟨hz, hzs⟩ := not_or.mp (mt List.mem_cons.mpr h)
    rw [List.cons_append, beforeFrom, if_neg (Ne.symm hz), ih hzs]
    cases zs <;> simp [List.getLast?_cons]

/-- The members before a member, from those before the one directly before it. -/
theorem takeWhile_of_after {x y : α} {xs : List α} (hn : xs.Nodup) (h : after y xs = some x) :
    xs.takeWhile (· != x) = xs.takeWhile (· != y) ++ [y] := by
  induction xs with
  | nil => cases h
  | cons z zs ih =>
    obtain ⟨hz, hn⟩ := List.nodup_cons.mp hn
    by_cases hzy : z = y
    · subst hzy
      rw [after_cons_self] at h
      obtain ⟨rest, rfl⟩ := List.head?_eq_some_iff.mp h
      have hne : z ≠ x := fun he => hz (he ▸ List.mem_cons_self)
      simp [hne]
    · rw [after_cons_of_ne hzy] at h
      have hne : z ≠ x := fun he => hz (he ▸ (mem_of_after h).2)
      rw [List.takeWhile_cons_of_pos (by simpa using hne),
        List.takeWhile_cons_of_pos (by simpa using hzy), ih hn h, List.cons_append]

theorem before_append {x : α} {pre ys : List α} (h : x ∉ pre) :
    before x (pre ++ x :: ys) = pre.getLast? := by
  rw [before, beforeFrom_append h, Option.or_none]

/-! ### Taking a member out -/

theorem head?_erase {y : α} {xs : List α} :
    (xs.erase y).head? = if xs.head? = some y then after y xs else xs.head? := by
  cases xs with
  | nil => simp
  | cons z zs =>
    by_cases hz : z = y
    · subst hz; simp [after]
    · simp [hz]

theorem after_erase {x y : α} {xs : List α} (hn : xs.Nodup) (hxy : x ≠ y) :
    after x (xs.erase y) = if after x xs = some y then after y xs else after x xs := by
  induction xs with
  | nil => simp [after]
  | cons z zs ih =>
    obtain ⟨hz, hn⟩ := List.nodup_cons.mp hn
    by_cases hzy : z = y
    · subst hzy
      have hne : after x zs ≠ some z := fun h => hz (mem_of_after h).2
      rw [List.erase_cons_head, after_cons_of_ne (Ne.symm hxy), if_neg hne]
    · rw [List.erase_cons_tail (by simpa using hzy), after_cons_of_ne hzy]
      by_cases hzx : z = x
      · subst hzx
        rw [after_cons_self, after_cons_self, head?_erase]
      · rw [after_cons_of_ne hzx, after_cons_of_ne hzx, ih hn]

theorem before_erase {x y : α} {xs : List α} (hn : xs.Nodup) (hxy : x ≠ y) :
    before x (xs.erase y) = if before x xs = some y then before y xs else before x xs := by
  have hback {z w : α} : before w xs = some z ↔ after z xs = some w := before_eq_some_iff hn
  apply Option.ext
  intro z
  rw [before_eq_some_iff (hn.erase y)]
  by_cases hz : z = y
  · subst hz
    have hself := after_ne_self (x := z) hn
    rw [after_of_not_mem hn.not_mem_erase]
    by_cases hb : before x xs = some z
    · simp [hb, hback, hself]
    · simp [hb]
  · rw [after_erase hn hz]
    by_cases hb : before x xs = some y
    · rw [if_pos hb, hback]
      by_cases ha : after z xs = some y
      · simp [ha, hback.mp hb]
      · rw [if_neg ha]
        exact iff_of_false (fun h => hz (Option.some.inj ((hback.mpr h).symm.trans hb))) ha
    · rw [if_neg hb, hback]
      by_cases ha : after z xs = some y
      · rw [if_pos ha, ha]
        exact iff_of_false (mt hback.mpr hb) fun h => hxy (Option.some.inj h).symm
      · rw [if_neg ha]

theorem getLast?_erase {y : α} {xs : List α} (hn : xs.Nodup) :
    (xs.erase y).getLast? = if xs.getLast? = some y then before y xs else xs.getLast? := by
  apply Option.ext
  intro z
  rw [getLast?_eq_some_iff (hn.erase y), hn.mem_erase_iff]
  by_cases hz : z = y
  · subst hz
    have hself := after_ne_self (x := z) hn
    by_cases hl : xs.getLast? = some z
    · simp [hl, before_eq_some_iff hn, hself]
    · simp [hl]
  · rw [after_erase hn hz]
    by_cases hl : xs.getLast? = some y
    · obtain ⟨-, hy⟩ := (getLast?_eq_some_iff hn).mp hl
      rw [if_pos hl, before_eq_some_iff hn]
      by_cases ha : after z xs = some y
      · simp [ha, hy, hz, (mem_of_after ha).1]
      · rw [if_neg ha]
        refine iff_of_false (fun h => hz ?_) ha
        have hlast := (getLast?_eq_some_iff hn).mpr ⟨h.1.2, h.2⟩
        exact Option.some.inj (hlast.symm.trans hl)
    · rw [if_neg hl, getLast?_eq_some_iff hn]
      by_cases ha : after z xs = some y
      · have hy : after y xs ≠ none := fun h => hl ((getLast?_eq_some_iff hn).mpr
          ⟨(mem_of_after ha).2, h⟩)
        simp [ha, hy]
      · simp [ha, hz]

/-! ### Putting a member in -/

theorem mem_insertBehind {a x y : α} {xs : List α} (ha : a ∈ xs) :
    x ∈ insertBehind a y xs ↔ x = y ∨ x ∈ xs := by
  induction xs with
  | nil => simp at ha
  | cons z zs ih =>
    rw [insertBehind]
    by_cases hz : z = a
    · rw [if_pos hz, List.mem_cons, List.mem_cons, List.mem_cons, or_left_comm]
    · have ha := (List.mem_cons.mp ha).resolve_left (Ne.symm hz)
      rw [if_neg hz, List.mem_cons, List.mem_cons, ih ha, or_left_comm]

/-- Where a row is cut at the anchor, the new member comes first behind the cut. -/
theorem insertBehind_append {a y : α} {pre ys : List α} (h : a ∉ pre) :
    insertBehind a y (pre ++ a :: ys) = pre ++ a :: y :: ys := by
  induction pre with
  | nil => exact if_pos rfl
  | cons z zs ih =>
    obtain ⟨hz, hzs⟩ := not_or.mp (mt List.mem_cons.mpr h)
    rw [List.cons_append, insertBehind, if_neg (Ne.symm hz), ih hzs, List.cons_append]

theorem nodup_insertBehind {a y : α} {xs : List α} (hn : xs.Nodup) (hy : y ∉ xs) (ha : a ∈ xs) :
    (insertBehind a y xs).Nodup := by
  induction xs with
  | nil => simp at ha
  | cons z zs ih =>
    obtain ⟨hz, hn⟩ := List.nodup_cons.mp hn
    obtain ⟨hyz, hy⟩ := not_or.mp (mt List.mem_cons.mpr hy)
    rw [insertBehind]
    by_cases hza : z = a
    · rw [if_pos hza]
      simp [hz, hn, hy, Ne.symm hyz]
    · have ha := (List.mem_cons.mp ha).resolve_left (Ne.symm hza)
      rw [if_neg hza, List.nodup_cons, mem_insertBehind ha]
      exact ⟨not_or.mpr ⟨Ne.symm hyz, hz⟩, ih hn hy ha⟩

theorem length_insertBehind {a y : α} {xs : List α} (ha : a ∈ xs) :
    (insertBehind a y xs).length = xs.length + 1 := by
  induction xs with
  | nil => simp at ha
  | cons z zs ih =>
    rw [insertBehind]
    by_cases hz : z = a
    · simp [hz]
    · rw [if_neg hz, List.length_cons, ih ((List.mem_cons.mp ha).resolve_left (Ne.symm hz)),
        List.length_cons]

@[simp] theorem head?_insertBehind (a y : α) (xs : List α) :
    (insertBehind a y xs).head? = xs.head? := by
  cases xs with
  | nil => rfl
  | cons z zs => by_cases hz : z = a <;> simp [insertBehind, hz]

theorem after_insertBehind {a x y : α} {xs : List α} (hn : xs.Nodup) (hy : y ∉ xs) (ha : a ∈ xs) :
    after x (insertBehind a y xs) =
      if x = a then some y else if x = y then after a xs else after x xs := by
  induction xs with
  | nil => simp at ha
  | cons z zs ih =>
    obtain ⟨hz, hn⟩ := List.nodup_cons.mp hn
    obtain ⟨hyz, hy⟩ := not_or.mp (mt List.mem_cons.mpr hy)
    rw [insertBehind]
    by_cases hza : z = a
    · subst hza
      rw [if_pos rfl]
      by_cases hxz : x = z
      · subst hxz
        rw [after_cons_self, if_pos rfl, List.head?_cons]
      · rw [after_cons_of_ne (Ne.symm hxz), if_neg hxz, after_cons_self,
          after_cons_of_ne (Ne.symm hxz), after]
        by_cases hxy : x = y
        · rw [if_pos hxy.symm, if_pos hxy]
        · rw [if_neg (Ne.symm hxy), if_neg hxy]
    · have ha := (List.mem_cons.mp ha).resolve_left (Ne.symm hza)
      rw [if_neg hza, after_cons_of_ne hza]
      by_cases hxz : x = z
      · subst hxz
        rw [after_cons_self, head?_insertBehind, after_cons_self, if_neg hza, if_neg (Ne.symm hyz)]
      · rw [after_cons_of_ne (Ne.symm hxz), after_cons_of_ne (Ne.symm hxz), ih hn hy ha]

theorem before_insertBehind {a x y : α} {xs : List α} (hn : xs.Nodup) (hy : y ∉ xs) (ha : a ∈ xs) :
    before x (insertBehind a y xs) =
      if x = y then some a else if before x xs = some a then some y else before x xs := by
  have hback {z w : α} : before w xs = some z ↔ after z xs = some w := before_eq_some_iff hn
  have hya : y ≠ a := fun he => hy (he ▸ ha)
  have hbehind (z : α) : after z xs ≠ some y := fun h => hy (mem_of_after h).2
  apply Option.ext
  intro z
  rw [before_eq_some_iff (nodup_insertBehind hn hy ha), after_insertBehind hn hy ha]
  by_cases hxy : x = y
  · subst hxy
    by_cases hza : z = a
    · simp [hza]
    · by_cases hzx : z = x
      · simp [hzx, hya, hbehind, Ne.symm hya]
      · simp [hza, hzx, hbehind, Ne.symm hza]
  · by_cases hb : before x xs = some a
    · have hax := hback.mp hb
      by_cases hza : z = a
      · simp [hza, hxy, hb, hya, Ne.symm hxy]
      · have hzx : after z xs ≠ some x := fun h =>
          hza (Option.some.inj ((hback.mpr h).symm.trans hb))
        by_cases hzy : z = y
        · simp [hzy, hxy, hb, hya, hax]
        · simp [hza, hzy, hxy, hb, hzx, Ne.symm hzy]
    · have hax : after a xs ≠ some x := mt hback.mpr hb
      rw [if_neg hxy, if_neg hb, hback]
      by_cases hza : z = a
      · simp [hza, hax, Ne.symm hxy]
      · by_cases hzy : z = y
        · simp [hzy, hya, hax, after_of_not_mem hy]
        · simp [hza, hzy]

theorem getLast?_insertBehind {a y : α} {xs : List α} (hn : xs.Nodup) (hy : y ∉ xs) (ha : a ∈ xs) :
    (insertBehind a y xs).getLast? = if xs.getLast? = some a then some y else xs.getLast? := by
  have hya : y ≠ a := fun he => hy (he ▸ ha)
  apply Option.ext
  intro z
  rw [getLast?_eq_some_iff (nodup_insertBehind hn hy ha), after_insertBehind hn hy ha,
    mem_insertBehind ha]
  by_cases hl : xs.getLast? = some a
  · have hlast := (getLast?_eq_some_iff hn).mp hl
    rw [if_pos hl]
    by_cases hzy : z = y
    · simp [hzy, hya, hlast.2]
    · by_cases hza : z = a
      · simp [hza, hya]
      · have hz : ¬ (z ∈ xs ∧ after z xs = none) := fun h =>
          hza (Option.some.inj (((getLast?_eq_some_iff hn).mpr h).symm.trans hl))
        simpa [hzy, hza, Ne.symm hzy] using hz
  · have hlast : after a xs ≠ none := fun h => hl ((getLast?_eq_some_iff hn).mpr ⟨ha, h⟩)
    rw [if_neg hl, getLast?_eq_some_iff hn]
    by_cases hza : z = a
    · simp [hza, hlast]
    · by_cases hzy : z = y
      · simp [hzy, hya, hlast, hy]
      · simp [hza, hzy]

theorem insertBehind_getLast? {a y : α} {xs : List α} (hn : xs.Nodup) (ha : xs.getLast? = some a) :
    insertBehind a y xs = xs ++ [y] := by
  induction xs with
  | nil => simp at ha
  | cons z zs ih =>
    cases zs with
    | nil =>
      obtain rfl : z = a := by simpa using ha
      simp [insertBehind]
    | cons w ws =>
      rw [List.getLast?_cons_cons] at ha
      have hz : z ≠ a := fun he => (List.nodup_cons.mp hn).1 (he ▸ List.mem_of_getLast? ha)
      rw [insertBehind, if_neg hz, ih (List.nodup_cons.mp hn).2 ha, List.cons_append,
        List.cons_append, List.cons_append]

/-- `x` behind the head of a row, or as the head of an empty one; a head stays where it is. -/
def behindHead (x : α) : List α → List α
  | [] => [x]
  | y :: ys => if y = x then y :: ys else y :: x :: ys.erase x

/-- `x` at the tail of a row; a tail stays where it is. -/
def atTail (x : α) (xs : List α) : List α :=
  if xs.getLast? = some x then xs else xs.erase x ++ [x]

theorem mem_behindHead {x y : α} {xs : List α} : x ∈ behindHead y xs ↔ x = y ∨ x ∈ xs := by
  cases xs with
  | nil => simp [behindHead]
  | cons z zs =>
    rw [behindHead]
    by_cases hz : z = y
    · subst hz
      simp
    · rw [if_neg hz, List.mem_cons, List.mem_cons, List.mem_cons, or_left_comm]
      by_cases hx : x = y
      · simp [hx]
      · rw [List.mem_erase_of_ne hx]

theorem mem_atTail {x y : α} {xs : List α} : x ∈ atTail y xs ↔ x = y ∨ x ∈ xs := by
  rw [atTail]
  split
  · rename_i hlast
    refine ⟨.inr, ?_⟩
    rintro (rfl | hx)
    · exact List.mem_of_getLast? hlast
    · exact hx
  · rw [List.mem_append, List.mem_singleton, or_comm]
    by_cases hx : x = y
    · simp [hx]
    · rw [List.mem_erase_of_ne hx]

/-! ### Exchanging neighbours -/

/-- Exchanging two neighbours is moving the first one behind the second one. -/
theorem exchange_eq {a b : α} {xs : List α} (hn : xs.Nodup) (h : after a xs = some b) :
    exchange a b xs = insertBehind b a (xs.erase a) := by
  induction xs with
  | nil => simp [after] at h
  | cons z zs ih =>
    obtain ⟨hz, hn⟩ := List.nodup_cons.mp hn
    cases zs with
    | nil => by_cases hza : z = a <;> simp [after, hza] at h
    | cons y ys =>
      by_cases hza : z = a
      · subst hza
        obtain rfl : y = b := by simpa [after_cons_self] using h
        rw [exchange, if_pos ⟨rfl, rfl⟩, List.erase_cons_head, insertBehind, if_pos rfl]
      · rw [after_cons_of_ne hza] at h
        have hzb : z ≠ b := fun he => hz (he ▸ (mem_of_after h).2)
        have herase : (z :: y :: ys).erase a = z :: (y :: ys).erase a :=
          List.erase_cons_tail (by simpa using hza)
        rw [exchange, if_neg fun he => hza he.1, ih hn h, herase, insertBehind, if_neg hzb]

/-- A row from which the first of two neighbours was taken out still has the other one. -/
theorem mem_erase_of_after {a b : α} {xs : List α} (hn : xs.Nodup) (h : after a xs = some b) :
    b ∈ xs.erase a := by
  have hne : b ≠ a := fun he => after_ne_self hn (he ▸ h)
  exact (List.mem_erase_of_ne hne).mpr (mem_of_after h).2

theorem nodup_exchange {a b : α} {xs : List α} (hn : xs.Nodup) (h : after a xs = some b) :
    (exchange a b xs).Nodup := by
  rw [exchange_eq hn h]
  exact nodup_insertBehind (hn.erase a) hn.not_mem_erase (mem_erase_of_after hn h)

theorem mem_exchange {a b x : α} {xs : List α} (hn : xs.Nodup) (h : after a xs = some b) :
    x ∈ exchange a b xs ↔ x ∈ xs := by
  have ha := (mem_of_after h).1
  rw [exchange_eq hn h, mem_insertBehind (mem_erase_of_after hn h), hn.mem_erase_iff]
  by_cases hxa : x = a
  · simp [hxa, ha]
  · simp [hxa]

@[simp] theorem length_exchange {a b : α} {xs : List α} : (exchange a b xs).length = xs.length := by
  fun_induction exchange a b xs with
  | case1 => rfl
  | case2 => rfl
  | case3 => simp
  | case4 x y rest _ ih => simpa using ih

theorem after_exchange {a b x : α} {xs : List α} (hn : xs.Nodup) (h : after a xs = some b) :
    after x (exchange a b xs) =
      if x = b then some a else if x = a then after b xs else
        if after x xs = some a then some b else after x xs := by
  have hne : b ≠ a := fun he => after_ne_self hn (he ▸ h)
  rw [exchange_eq hn h, after_insertBehind (hn.erase a) hn.not_mem_erase (mem_erase_of_after hn h),
    after_erase hn hne, if_neg (after_asymm hn h)]
  by_cases hxa : x = a
  · simp [hxa]
  · rw [after_erase hn hxa, h]

theorem before_exchange {a b x : α} {xs : List α} (hn : xs.Nodup) (h : after a xs = some b) :
    before x (exchange a b xs) =
      if x = a then some b else if x = b then before a xs else
        if before x xs = some b then some a else before x xs := by
  have hback {z w : α} : before w xs = some z ↔ after z xs = some w := before_eq_some_iff hn
  rw [exchange_eq hn h,
    before_insertBehind (hn.erase a) hn.not_mem_erase (mem_erase_of_after hn h)]
  by_cases hxa : x = a
  · simp [hxa]
  · rw [if_neg hxa, if_neg hxa, before_erase hn hxa]
    by_cases hxb : x = b
    · have hab : before a xs ≠ some b := mt hback.mp (after_asymm hn h)
      simp [hxb, hback.mpr h, hab]
    · have hxa : before x xs ≠ some a := fun he =>
        hxb (Option.some.inj ((hback.mp he).symm.trans h))
      simp [hxb, hxa]

theorem head?_exchange {a b : α} {xs : List α} (hn : xs.Nodup) (h : after a xs = some b) :
    (exchange a b xs).head? = if xs.head? = some a then some b else xs.head? := by
  rw [exchange_eq hn h, head?_insertBehind, head?_erase, h]

theorem getLast?_exchange {a b : α} {xs : List α} (hn : xs.Nodup) (h : after a xs = some b) :
    (exchange a b xs).getLast? = if xs.getLast? = some b then some a else xs.getLast? := by
  have hlast : xs.getLast? ≠ some a := by
    intro he
    rw [((getLast?_eq_some_iff hn).mp he).2] at h
    cases h
  rw [exchange_eq hn h,
    getLast?_insertBehind (hn.erase a) hn.not_mem_erase (mem_erase_of_after hn h),
    getLast?_erase hn, if_neg hlast]

/-! ### Some of the members

An operation on a member that is not looked at leaves those that are in their order. -/

section Filter

variable {p : α → Bool} {a b y : α}

theorem filter_erase (hy : p y = false) (xs : List α) : (xs.erase y).filter p = xs.filter p := by
  induction xs with
  | nil => rfl
  | cons z zs ih =>
    by_cases hz : z = y
    · subst hz
      rw [List.erase_cons_head, List.filter_cons_of_neg (by simp [hy])]
    · rw [List.erase_cons_tail (by simpa using hz), List.filter_cons, List.filter_cons, ih]

theorem filter_insertBehind (hy : p y = false) (xs : List α) :
    (insertBehind a y xs).filter p = xs.filter p := by
  induction xs with
  | nil => rfl
  | cons z zs ih =>
    rw [insertBehind]
    split
    · simp [List.filter_cons, hy]
    · rw [List.filter_cons, List.filter_cons, ih]

theorem filter_behindHead (hy : p y = false) (xs : List α) :
    (behindHead y xs).filter p = xs.filter p := by
  cases xs with
  | nil => simp [behindHead, hy]
  | cons z zs =>
    rw [behindHead]
    split
    · rfl
    · simp [List.filter_cons, hy, filter_erase hy]

theorem filter_atTail (hy : p y = false) (xs : List α) : (atTail y xs).filter p = xs.filter p := by
  rw [atTail]
  split
  · rfl
  · rw [List.filter_append, filter_erase hy, List.filter_cons_of_neg (by simp [hy]),
      List.filter_nil, List.append_nil]

/-- Two neighbours that are exchanged pass nobody else. -/
theorem filter_exchange (hab : p a = false ∨ p b = false) (xs : List α) :
    (exchange a b xs).filter p = xs.filter p := by
  fun_induction exchange a b xs with
  | case1 => rfl
  | case2 => rfl
  | case3 x y rest h =>
    obtain ⟨rfl, rfl⟩ := h
    rcases hab with hx | hy
    · simp [List.filter_cons, hx]
    · simp [List.filter_cons, hy]
  | case4 x y rest _ ih => rw [List.filter_cons, ih]; exact List.filter_cons.symm

end Filter

end Row

end Toolpath
