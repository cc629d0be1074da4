import Toolpath.Proofs.Document.Sparing
import Toolpath.Proofs.Synthesis.Composition
import Toolpath.Proofs.Synthesis.Reaching

/-!
# The blocks that synthesis visits

Synthesis visits the blocks of the top level, and inside a group that it reaches the blocks in the
list of children. It visits a suppressed block too, but goes no further: nothing inside is visited.
A block that is visited gets a verdict, and no other block does.

The verdicts from a block on come from inside to outside, so the recursion has the shape of the one
for the blocks that are reached (`Document.reachedTo`), with the block itself behind what is inside.

## Main definitions

* `Document.Visits` — synthesis visits a block
* `Document.verdictsFrom` — the verdicts on a block and on what is visited inside it

## Main results

* `Document.mem_verdicts_iff` — the blocks with a verdict are those that are visited
-/

namespace Toolpath

namespace Document

variable {R S : Type}

/-- Synthesis visits the blocks of the top level, and the blocks inside a group that it reaches. -/
def Visits (d : Document R S) (x : NodeId) : Prop :=
  x ∈ d.tree.members d.root ∨
    ∃ p g, d.Reaches p ∧ d.get? p = some g ∧ g.kind.isGroup = true ∧ x ∈ d.inside p

variable {d : Document R S} {x y : NodeId} {b : Block R S}

/-- A block that is visited and not suppressed is reached. -/
theorem Visits.reaches (h : d.Visits x) (hb : d.get? x = some b)
    (hactive : b.flags.suppressed = false) : d.Reaches x := by
  rcases h with hx | ⟨p, g, hp, hg, hgroup, hx⟩
  · exact .top hx hb hactive
  · exact .within hp hg hgroup hx hb hactive

theorem Visits.contains (h : d.Visits x) : d.tree.links.contains x := by
  rcases h with hx | ⟨p, g, -, -, -, hx⟩
  · exact (d.tree.sound.holds.alive _ x hx).1
  · obtain ⟨n, l, -, -, hmem⟩ := isChild_of_mem_inside hx
    exact (d.tree.sound.holds.alive l x hmem).1

/-! ### The verdicts from a block on -/

section Verdicts

variable [Analytic R] [Storage R S] [Numeral R] {f : ProgramFormat}

variable (d f) in
/-- The verdicts on a block and inside it, to a depth that `fuel` bounds. -/
def verdictsTo (fuel : Nat) (x : NodeId) : List (NodeId × Option SynthesisError) :=
  ((d.tree.branchTo fuel x).map fun br => (d.emit f br).verdicts).getD []

variable (d f) in
/-- The verdicts on a block and inside it. -/
def verdictsFrom (x : NodeId) : List (NodeId × Option SynthesisError) :=
  d.verdictsTo f d.tree.links.nodes.nextKey x

theorem verdicts_eq_flatMap :
    d.verdicts f = (d.tree.members d.root).flatMap (d.verdictsFrom f) := by
  refine List.flatMap_congr fun x _ => ?_
  rw [outcome, verdictsFrom, verdictsTo, ← Tree.branch?]
  cases d.tree.branch? x <;> rfl

theorem verdicts_emit_node (ls : List (List (Branch (NodeId × Block R S)))) :
    (d.emit f (.node (x, b) ls)).verdicts =
      (if b.flags.suppressed = false ∧ b.kind.isGroup = true then
        (ls.headD []).flatMap fun br => (d.emit f br).verdicts else []) ++
      [(x, d.verdictOn f x b)] := by
  rw [emit]
  split
  · rename_i hb
    rw [if_neg fun h => Bool.false_ne_true (h.1.symm.trans hb), verdictOn, if_pos hb]
    rfl
  · rename_i hb
    split
    · rename_i hgroup
      rw [if_pos ⟨Bool.eq_false_iff.mpr hb, hgroup⟩, ← verdicts_emitBlock hb]
      cases ls with
      | nil => rfl
      | cons l rest =>
        rw [List.headD_cons, ← verdicts_emitForest]
        rfl
    · rename_i hgroup
      rw [if_neg fun h => hgroup h.2, verdicts_emitBlock hb]
      rfl

/-- The verdicts from a block on: those inside it, if it is a group that is not suppressed, and
then the one on the block. -/
theorem verdictsTo_succ (fuel : Nat) (hb : d.get? x = some b) : d.verdictsTo f (fuel + 1) x =
    (if b.flags.suppressed = false ∧ b.kind.isGroup = true then
      (d.inside x).flatMap (d.verdictsTo f fuel) else []) ++ [(x, d.verdictOn f x b)] := by
  obtain ⟨n, hn, rfl⟩ := Option.map_eq_some_iff.mp hb
  have hnode : d.tree.node? x = some n := hn
  have hinside : ((n.lists.map fun l =>
      (d.tree.members l).filterMap (d.tree.branchTo fuel)).headD []).flatMap
        (fun br => (d.emit f br).verdicts) = (d.inside x).flatMap (d.verdictsTo f fuel) := by
    rw [inside, children?, Tree.childLists, hnode]
    cases hl : n.lists with
    | nil => simp [hl]
    | cons l rest =>
      simp only [hl, Option.map_some, Option.getD_some, List.head?_cons, List.map_cons,
        List.headD_cons]
      exact Tree.flatMap_filterMap _ _ _
  rw [verdictsTo, Tree.branchTo, hnode, Option.map_some, Option.map_some, Option.getD_some,
    verdicts_emit_node, hinside]

/-- Whatever has a verdict is visited, if the block from which on it has one is. -/
theorem visits_of_mem_verdictsTo {fuel : Nat} {v : NodeId × Option SynthesisError}
    (hv : v ∈ d.verdictsTo f fuel y) (hy : d.Visits y) : d.Visits v.1 := by
  induction fuel generalizing y with
  | zero => cases hv
  | succ fuel ih =>
    obtain ⟨c, hc⟩ := exists_get?_of_contains hy.contains
    rw [verdictsTo_succ fuel hc] at hv
    rcases List.mem_append.mp hv with hv | hv
    · split at hv
      · rename_i hopen
        obtain ⟨z, hz, hv⟩ := List.mem_flatMap.mp hv
        exact ih hv (.inr ⟨y, c, hy.reaches hc hopen.1, hc, hopen.2, hz⟩)
      · cases hv
    · obtain rfl := List.mem_singleton.mp hv
      exact hy

/-- A block is among those with a verdict from it on. -/
theorem self_mem_verdictsFrom (hb : d.get? x = some b) :
    (x, d.verdictOn f x b) ∈ d.verdictsFrom f x := by
  have hlt := key_lt_of_get? hb
  obtain ⟨fuel, hfuel⟩ : ∃ fuel, d.tree.links.nodes.nextKey = fuel + 1 :=
    Nat.exists_eq_succ_of_ne_zero (by omega)
  rw [verdictsFrom, hfuel, verdictsTo_succ fuel hb]
  exact List.mem_append_right _ (List.mem_singleton_self _)

section Rooted

variable (hroot : d.tree.owner? d.root = none)

include hroot

/-- Inside a group that is reached the verdicts are among those from the group on. -/
theorem Reaches.verdictsFrom_subset (h : d.Reaches x) (hb : d.get? x = some b)
    (hgroup : b.kind.isGroup = true) (hy : y ∈ d.inside x) :
    d.verdictsFrom f y ⊆ d.verdictsFrom f x := by
  have hshallow (z : NodeId) : ¬ d.tree.links.Descends d.tree.links.nodes.nextKey x z := fun hz =>
    h.not_belowItself hroot
      (d.tree.sound.descends_self_of_deep (contains_of_get? hb) (Nat.le_refl _) hz)
  have hfuel : d.verdictsFrom f x = d.verdictsTo f (d.tree.links.nodes.nextKey + 1) x := by
    rw [verdictsFrom, verdictsTo, verdictsTo, Tree.branchTo_succ hshallow]
  rw [hfuel, verdictsTo_succ _ hb, if_pos ⟨h.active hb, hgroup⟩]
  intro v hv
  exact List.mem_append_left _ (List.mem_flatMap.mpr ⟨y, hy, hv⟩)

theorem Visits.verdictsFrom_subset (h : d.Visits x) : d.verdictsFrom f x ⊆ d.verdicts f := by
  rw [verdicts_eq_flatMap]
  have htop {y : NodeId} (hy : y ∈ d.tree.members d.root) :
      d.verdictsFrom f y ⊆ (d.tree.members d.root).flatMap (d.verdictsFrom f) :=
    fun v hv => List.mem_flatMap.mpr ⟨y, hy, hv⟩
  have hreached {p : NodeId} (hp : d.Reaches p) :
      d.verdictsFrom f p ⊆ (d.tree.members d.root).flatMap (d.verdictsFrom f) := by
    induction hp with
    | top hx _ _ => exact htop hx
    | within hp hg hgroup hx _ _ ih =>
      exact fun v hv => ih (hp.verdictsFrom_subset hroot hg hgroup hx hv)
  rcases h with hx | ⟨p, g, hp, hg, hgroup, hx⟩
  · exact htop hx
  · exact fun v hv => hreached hp (hp.verdictsFrom_subset hroot hg hgroup hx hv)

/-- **The blocks with a verdict are those that are visited.** -/
theorem mem_verdicts_iff {v : Option SynthesisError} : (x, v) ∈ d.verdicts f ↔
    d.Visits x ∧ ∃ b, d.get? x = some b ∧ v = d.verdictOn f x b := by
  constructor
  · intro hv
    refine ⟨?_, verdict_of_mem_verdicts hv⟩
    rw [verdicts_eq_flatMap] at hv
    obtain ⟨y, hy, hv⟩ := List.mem_flatMap.mp hv
    exact visits_of_mem_verdictsTo hv (.inl hy)
  · rintro ⟨hx, b, hb, rfl⟩
    exact hx.verdictsFrom_subset hroot (self_mem_verdictsFrom hb)

end Rooted

end Verdicts

end Document

end Toolpath
