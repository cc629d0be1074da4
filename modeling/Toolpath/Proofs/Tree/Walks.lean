import Toolpath.Proofs.Tree.Acyclic

/-!
# Walks up and down

What a tree tells about the nodes around and below a node it finds out with fuel, since there may be
cycles. In a tree without cycles the fuel is never used up: there are fewer levels than nodes were
made. So what a node tells is put together from what its parent tells, or its children, and there is
an induction in either direction. On the way down it is enough that the node is not below itself,
since then nothing below it is.

A loop that goes up or down a tree has no bound of its own. It is run with fuel and gives nothing if
the fuel is used up; that it ends means that it gives an answer as soon as there is enough.

## Main definitions

* `Answers` — a run ends with an answer

## Main results

* `Tree.upward`, `Tree.backward`, `Tree.downward` — induction from the outermost nodes inward, along
  the siblings before a node and those before its parents, and from the innermost nodes outward
* `Tree.ancestors_eq` — the nodes around a node, from those around its parent
* `Tree.branch?_eq`, `Tree.subtree_eq` — what is below a node, from what is below its children
-/

namespace Toolpath

/-! ### Runs with fuel -/

/-- A run with fuel ends with an answer: it gives it as soon as there is enough fuel. -/
def Answers {β : Type} (run : Nat → Option β) (b : β) : Prop :=
  ∃ enough, ∀ fuel, enough ≤ fuel → run fuel = some b

namespace Answers

variable {β γ δ : Type} {run : Nat → Option β} {b : β}

/-- No answer is given without fuel, and the answer takes one step more than another one. -/
theorem step {run' : Nat → Option β} (h : Answers run' b)
    (hs : ∀ fuel, run (fuel + 1) = run' fuel) : Answers run b := by
  obtain ⟨enough, h⟩ := h
  refine ⟨enough + 1, fun fuel hfuel => ?_⟩
  obtain ⟨rest, rfl⟩ := Nat.exists_eq_add_of_le' (Nat.le_of_add_left_le hfuel)
  exact (hs rest).trans (h rest (Nat.le_of_succ_le_succ hfuel))

theorem pure (b : β) : Answers (fun _ => some b) b := ⟨0, fun _ _ => rfl⟩

theorem bind {k : Nat → β → Option γ} {c : γ} (h : Answers run b)
    (hk : Answers (fun fuel => k fuel b) c) : Answers (fun fuel => (run fuel).bind (k fuel)) c := by
  obtain ⟨enough, h⟩ := h
  obtain ⟨enough', hk⟩ := hk
  refine ⟨max enough enough', fun fuel hfuel => ?_⟩
  show (run fuel).bind (k fuel) = some c
  rw [h fuel (le_of_max_le_left hfuel)]
  exact hk fuel (le_of_max_le_right hfuel)

theorem mapM {run : γ → Nat → Option β} {g : γ → β} {xs : List γ}
    (h : ∀ x ∈ xs, Answers (run x) (g x)) :
    Answers (fun fuel => xs.mapM fun x => run x fuel) (xs.map g) := by
  induction xs with
  | nil => exact pure []
  | cons x xs ih =>
    obtain ⟨enough, hx⟩ := h x List.mem_cons_self
    obtain ⟨enough', hxs⟩ := ih fun y hy => h y (List.mem_cons_of_mem x hy)
    refine ⟨max enough enough', fun fuel hfuel => ?_⟩
    have hx := hx fuel (le_of_max_le_left hfuel)
    have hxs : xs.mapM (fun x => run x fuel) = some (xs.map g) :=
      hxs fuel (le_of_max_le_right hfuel)
    show (x :: xs).mapM (fun x => run x fuel) = some (g x :: xs.map g)
    rw [List.mapM_cons, hx, hxs]
    rfl

/-- One step after the other, where each leads on from what it finds. -/
theorem foldlM {P : δ → Prop} {run : δ → γ → Nat → Option δ} {g : δ → γ → δ} {xs : List γ}
    (hP : ∀ d x, P d → P (g d x)) (h : ∀ x ∈ xs, ∀ d, P d → Answers (run d x) (g d x)) {d : δ}
    (hd : P d) : Answers (fun fuel => xs.foldlM (fun d x => run d x fuel) d) (xs.foldl g d) := by
  induction xs generalizing d with
  | nil => exact pure d
  | cons x xs ih =>
    exact (h x List.mem_cons_self d hd).bind
      (ih (fun y hy => h y (List.mem_cons_of_mem x hy)) (hP d x hd))

end Answers

namespace Tree

open Links

variable {α : Type} {t : Tree α}

/-! ### Up -/

theorem owner?_of_mem_childLists {x : NodeId} {l : ListId} (h : l ∈ t.childLists x) :
    t.owner? l = some x := by
  rw [childLists] at h
  cases hn : t.node? x with
  | none => rw [hn] at h; cases h
  | some n =>
    rw [hn, Option.map_some, Option.getD_some] at h
    exact t.sound.owner_eq_some_iff.mpr ⟨n, hn, h⟩

theorem contains_of_parent? {x p : NodeId} (h : t.parent? x = some p) : t.links.contains p := by
  obtain ⟨n, -, hn, -⟩ := parent?_eq_some_iff.mp h
  exact Option.isSome_iff_exists.mpr ⟨n, hn⟩

/-- Nothing is so many levels below another node as nodes were ever made. -/
theorem not_descends_of_acyclic (h : t.links.Acyclic) {levels : Nat} {x p z : NodeId}
    (hlevels : t.links.nodes.nextKey ≤ levels + 1) (hp : t.parent? x = some p) :
    ¬ t.links.Descends levels z p := by
  intro hz
  have hx : t.links.Descends (levels + 1) z x :=
    descends_add.mpr ⟨p, hz, x, parent?_eq_some_iff.mp hp, rfl⟩
  have halive : t.links.contains z := by
    obtain ⟨-, ⟨n, -, hn, -⟩, -⟩ := hx
    exact Option.isSome_iff_exists.mpr ⟨n, hn⟩
  exact h z (t.sound.descends_self_of_deep halive hlevels hx)

/-- **Following parents ends**, at a node without one. -/
theorem exists_top (h : t.links.Acyclic) (x : NodeId) :
    ∃ levels top, t.links.Descends levels top x ∧ t.parent? top = none := by
  by_contra hno
  have hup (n : Nat) : ∃ z, t.links.Descends n z x := by
    induction n with
    | zero => exact ⟨x, rfl⟩
    | succ n ih =>
      obtain ⟨z, hz⟩ := ih
      cases hp : t.parent? z with
      | none => exact absurd ⟨n, z, hz, hp⟩ hno
      | some p => exact ⟨p, z, parent?_eq_some_iff.mp hp, hz⟩
  cases hp : t.parent? x with
  | none => exact hno ⟨0, x, rfl, hp⟩
  | some p =>
    obtain ⟨z, hz⟩ := hup (t.links.nodes.nextKey + 1)
    obtain ⟨p', hzp, y, hy, rfl⟩ := descends_add.mp hz
    obtain rfl := t.sound.eq_of_isChild hy (parent?_eq_some_iff.mp hp)
    exact not_descends_of_acyclic h (Nat.le_succ _) hp hzp

/-- **Induction from the outermost nodes inward.** -/
theorem upward (h : t.links.Acyclic) {P : NodeId → Prop}
    (top : ∀ x, t.parent? x = none → P x)
    (step : ∀ x p, t.parent? x = some p → P p → P x) (x : NodeId) : P x := by
  obtain ⟨levels, y, hxy, hy⟩ := exists_top h x
  induction levels generalizing x with
  | zero => exact top x (hxy ▸ hy)
  | succ levels ih =>
    obtain ⟨p, hp, z, hz, rfl⟩ := descends_add.mp hxy
    exact step z p (parent?_eq_some_iff.mpr hz) (ih p hp)

theorem ancestorsTo_succ {fuel : Nat} {x : NodeId} (h : ∀ z, ¬ t.links.Descends fuel z x) :
    t.ancestorsTo (fuel + 1) x = t.ancestorsTo fuel x := by
  induction fuel generalizing x with
  | zero => exact absurd rfl (h x)
  | succ fuel ih =>
    rw [ancestorsTo, ancestorsTo]
    cases hp : t.parent? x with
    | none => rfl
    | some p =>
      have hshallow (z : NodeId) : ¬ t.links.Descends fuel z p := fun hz =>
        h z (descends_add.mpr ⟨p, hz, x, parent?_eq_some_iff.mp hp, rfl⟩)
      exact congrArg (p :: ·) (ih hshallow)

/-- The nodes around a node that is not too deep, one parent after the other. -/
theorem ancestors_of_shallow {x : NodeId}
    (h : ∀ z, t.links.contains z → ¬ t.links.Descends t.links.nodes.nextKey z x) :
    t.ancestors x =
      match t.parent? x with
      | none => []
      | some p => p :: t.ancestors p := by
  rw [ancestors]
  cases hp : t.parent? x with
  | none => cases t.links.nodes.nextKey <;> simp [ancestorsTo, hp]
  | some p =>
    have halive := contains_of_parent? hp
    obtain ⟨fuel, hfuel⟩ : ∃ fuel, t.links.nodes.nextKey = fuel + 1 :=
      Nat.exists_eq_succ_of_ne_zero (Nat.ne_zero_of_lt (key_lt_of_contains halive))
    have hshallow (z : NodeId) : ¬ t.links.Descends fuel z p := by
      intro hz
      have hx : t.links.Descends (fuel + 1) z x :=
        descends_add.mpr ⟨p, hz, x, parent?_eq_some_iff.mp hp, rfl⟩
      obtain ⟨-, ⟨n, -, hn, -⟩, -⟩ := id hx
      exact h z (Option.isSome_iff_exists.mpr ⟨n, hn⟩) (hfuel ▸ hx)
    show _ = p :: t.ancestorsTo t.links.nodes.nextKey p
    rw [hfuel, ancestorsTo_succ hshallow, ancestorsTo, hp]

/-- **The nodes around a node**, one parent after the other. -/
theorem ancestors_eq (h : t.links.Acyclic) (x : NodeId) :
    t.ancestors x =
      match t.parent? x with
      | none => []
      | some p => p :: t.ancestors p :=
  ancestors_of_shallow fun z hz hx => h z (t.sound.descends_self_of_deep hz (Nat.le_refl _) hx)

/-! ### Back -/

theorem preceding_of_prev {x q : NodeId} (h : t.prev? x = some q) :
    t.preceding x = t.preceding q ++ [q] ∧ t.parent? q = t.parent? x := by
  obtain ⟨l, hl⟩ := t.sound.holds.prev?_eq_some_iff.mp h
  obtain ⟨hq, hx⟩ := Row.mem_of_after hl
  have hlistx : t.listOf? x = some l := t.sound.holds.listOf?_eq_some_iff.mpr hx
  have hlistq : t.listOf? q = some l := t.sound.holds.listOf?_eq_some_iff.mpr hq
  constructor
  · rw [preceding, preceding, hlistx, hlistq]
    exact Row.takeWhile_of_after (t.sound.holds.nodup l) hl
  · rw [parent?, parent?, hlistx, hlistq]

theorem preceding_of_first {x : NodeId} (h : t.prev? x = none) : t.preceding x = [] := by
  rw [preceding]
  cases hl : t.listOf? x with
  | none => rfl
  | some l =>
    have hx : x ∈ t.members l := t.sound.holds.listOf?_eq_some_iff.mp hl
    have hfirst : Row.before x (t.members l) = none := by
      by_contra hne
      obtain ⟨q, hq⟩ := Option.ne_none_iff_exists'.mp hne
      have hafter := (Row.before_eq_some_iff (t.sound.holds.nodup l)).mp hq
      rw [prev?, t.sound.holds.prev?_eq_some_iff.mpr ⟨l, hafter⟩] at h
      cases h
    obtain ⟨rest, hrest⟩ := List.head?_eq_some_iff.mp ((Row.before_eq_none_iff hx).mp hfirst)
    show (t.members l).takeWhile (· != x) = []
    rw [hrest, List.takeWhile_cons_of_neg (by simp)]

theorem contains_of_mem_preceding {x y : NodeId} (h : y ∈ t.preceding x) : t.contains y := by
  rw [preceding] at h
  cases hl : t.listOf? x with
  | none => rw [hl] at h; cases h
  | some l =>
    rw [hl] at h
    exact (t.sound.holds.alive l y ((List.takeWhile_sublist _).subset h)).1

/-- A row begins with the siblings before a node and the node. -/
theorem exists_members_eq {x : NodeId} {l : ListId} (hx : x ∈ t.members l) :
    ∃ behind, t.members l = t.preceding x ++ x :: behind := by
  obtain ⟨before, behind, hrow, hout⟩ := List.eq_append_cons_of_mem hx
  have hne : ∀ y ∈ before, (y != x) = true := fun y hy =>
    bne_iff_ne.mpr fun he => hout (he ▸ hy)
  have hlist : t.listOf? x = some l := t.sound.holds.listOf?_eq_some_iff.mpr hx
  refine ⟨behind, ?_⟩
  rw [preceding, hlist]
  show t.members l = (t.members l).takeWhile (· != x) ++ x :: behind
  rw [hrow, List.takeWhile_append_of_pos hne, List.takeWhile_cons_of_neg (by simp),
    List.append_nil]

/-- **Induction along the way back**: over the siblings before a node, then those before its parent,
and so on outward. -/
theorem backward (h : t.links.Acyclic) {P : NodeId → Prop}
    (top : ∀ x, t.prev? x = none → t.parent? x = none → P x)
    (out : ∀ x p, t.prev? x = none → t.parent? x = some p → P p → P x)
    (back : ∀ x q, t.prev? x = some q → P q → P x) (x : NodeId) : P x := by
  have hrow (x : NodeId) (hparent : ∀ p, t.parent? x = some p → P p) : P x := by
    induction hlength : (t.preceding x).length generalizing x with
    | zero =>
      have hfirst : t.prev? x = none := by
        cases hq : t.prev? x with
        | none => rfl
        | some q => rw [(preceding_of_prev hq).1] at hlength; simp at hlength
      cases hp : t.parent? x with
      | none => exact top x hfirst hp
      | some p => exact out x p hfirst hp (hparent p hp)
    | succ k ih =>
      cases hq : t.prev? x with
      | none => rw [preceding_of_first hq] at hlength; cases hlength
      | some q =>
        obtain ⟨hpreceding, hsame⟩ := preceding_of_prev hq
        rw [hpreceding, List.length_append] at hlength
        exact back x q hq (ih q (fun p hp => hparent p (hsame ▸ hp)) (Nat.succ.inj hlength))
  refine upward h (fun x hx => hrow x fun p hp => ?_) (fun x p hx hp => hrow x fun p' hp' => ?_) x
  · rw [hx] at hp
    cases hp
  · obtain rfl := Option.some.inj (hx.symm.trans hp')
    exact hp

/-! ### Down -/

theorem shallow_of_not_belowItself {levels : Nat} {x y : NodeId} (h : ¬ t.links.BelowItself x)
    (hlevels : t.links.nodes.nextKey ≤ levels) (hx : t.links.contains x) :
    ¬ t.links.Descends levels x y :=
  fun hy => h (t.sound.descends_self_of_deep hx hlevels hy)

/-- **Induction from the innermost nodes outward**, over nodes that are not below themselves. -/
theorem downward_of_not_belowItself {P : ∀ x, ¬ t.links.BelowItself x → Prop}
    (step : ∀ x (hx : ¬ t.links.BelowItself x),
      (∀ y (hy : t.links.IsChild x y), P y (t.sound.not_belowItself_of_isChild hx hy)) → P x hx)
    (x : NodeId) (hx : ¬ t.links.BelowItself x) : P x hx := by
  have hshallow (levels : Nat) (x : NodeId) (hself : ¬ t.links.BelowItself x)
      (hx : ∀ y, ¬ t.links.Descends levels x y) : P x hself := by
    induction levels generalizing x with
    | zero => exact absurd rfl (hx x)
    | succ levels ih => exact step x hself fun y hy => ih y _ fun z hz => hx z ⟨y, hy, hz⟩
  refine hshallow (t.links.nodes.nextKey + 1) x hx fun y hy => ?_
  obtain ⟨z, hz, hzy⟩ := id hy
  obtain ⟨n, -, hn, -⟩ := hz
  have halive : t.links.contains x := Option.isSome_iff_exists.mpr ⟨n, hn⟩
  exact shallow_of_not_belowItself hx (Nat.le_succ _) halive hy

theorem downward (h : t.links.Acyclic) {P : NodeId → Prop}
    (step : ∀ x, (∀ y, t.links.IsChild x y → P y) → P x) (x : NodeId) : P x :=
  downward_of_not_belowItself (P := fun x _ => P x) (fun x _ => step x) x (h x)

theorem branchTo_succ {fuel : Nat} {x : NodeId} (h : ∀ y, ¬ t.links.Descends fuel x y) :
    t.branchTo (fuel + 1) x = t.branchTo fuel x := by
  induction fuel generalizing x with
  | zero => exact absurd rfl (h x)
  | succ fuel ih =>
    rw [branchTo, branchTo]
    cases hn : t.node? x with
    | none => rfl
    | some n =>
      have hlists (l : ListId) (hl : l ∈ n.lists) :
          (t.members l).filterMap (t.branchTo (fuel + 1)) =
            (t.members l).filterMap (t.branchTo fuel) :=
        List.filterMap_congr fun y hy => ih fun z hz => h z ⟨y, ⟨n, l, hn, hl, hy⟩, hz⟩
      exact congrArg (fun ls => some (Branch.node (x, n.item) ls)) (List.map_congr_left hlists)

/-- **What is below a node**, from what is below its children. -/
theorem branch?_eq {x : NodeId} (h : ¬ t.links.BelowItself x) :
    t.branch? x = (t.node? x).map fun n => .node (x, n.item) (n.lists.map t.forest) := by
  rw [branch?]
  cases hn : t.node? x with
  | none => cases t.links.nodes.nextKey <;> simp [branchTo, hn]
  | some n =>
    have hx : t.links.contains x := Option.isSome_iff_exists.mpr ⟨n, hn⟩
    obtain ⟨fuel, hfuel⟩ : ∃ fuel, t.links.nodes.nextKey = fuel + 1 :=
      Nat.exists_eq_succ_of_ne_zero (Nat.ne_zero_of_lt (key_lt_of_contains hx))
    have hlists (l : ListId) (hl : l ∈ n.lists) :
        (t.members l).filterMap (t.branchTo fuel) = t.forest l := by
      refine List.filterMap_congr fun y hy => ?_
      rw [branch?, hfuel, branchTo_succ]
      exact fun z hz => shallow_of_not_belowItself h hfuel.le hx ⟨y, ⟨n, l, hn, hl, hy⟩, hz⟩
    rw [hfuel, branchTo, hn]
    exact congrArg (fun ls => some (Branch.node (x, n.item) ls)) (List.map_congr_left hlists)

/-- What a function of branches gives for the branches that there are. -/
theorem flatMap_filterMap {β γ δ : Type} (f : β → Option γ) (g : γ → List δ) (xs : List β) :
    (xs.filterMap f).flatMap g = xs.flatMap fun x => ((f x).map g).getD [] := by
  induction xs with
  | nil => rfl
  | cons x xs ih =>
    cases hx : f x with
    | none => rw [List.filterMap_cons_none hx, List.flatMap_cons, hx, ih]; rfl
    | some y => rw [List.filterMap_cons_some hx, List.flatMap_cons, List.flatMap_cons, hx, ih]; rfl

/-- **The nodes of a subtree**, from those of the subtrees of the children. -/
theorem subtree_eq {x : NodeId} (h : ¬ t.links.BelowItself x) (hx : t.contains x) :
    t.subtree x = x :: (t.childLists x).flatMap fun l => (t.members l).flatMap t.subtree := by
  obtain ⟨n, hn⟩ := Option.isSome_iff_exists.mp hx
  have hlists : t.childLists x = n.lists := childLists_of_node? hn
  have hlabels (l : ListId) :
      ((t.forest l).flatMap Branch.labels).map Prod.fst = (t.members l).flatMap t.subtree := by
    rw [List.map_flatMap, forest, flatMap_filterMap]
    rfl
  rw [subtree, branch?_eq h, node?, hn, hlists]
  simp only [Option.map_some, Option.getD_some, Branch.labels_node, List.map_cons,
    List.flatMap_map, List.map_flatMap, ← hlabels]

end Tree

end Toolpath
