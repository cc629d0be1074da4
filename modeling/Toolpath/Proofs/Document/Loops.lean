import Toolpath.Document.Scope
import Toolpath.Proofs.Tree.Pruning

/-!
# Loops of a document

The tool of a block is searched by a loop that goes back over the siblings and then out to the
parent, its placement by a loop that goes from parent to parent, and a block is scaled by a
recursion into its lists. None of them has a bound. In a document without cycles they all end, and
find what the document tells.

## Main definitions

* `Document.searchTool`, `Document.searchPlacement`, `Document.scaleTo` — the loops, with fuel

## Main results

* `Document.answers_searchTool`, `Document.answers_searchPlacement`, `Document.answers_scaleTo` —
  they end
-/

namespace Toolpath

namespace Document

variable {R S : Type} {d : Document R S}

/-! ### The tool of a block -/

/-- The search for the tool of a block: the siblings before it from the nearest one on, then those
before its parent, and so on outward. -/
def searchTool (d : Document R S) : Nat → NodeId → Option (Option (Tool R))
  | 0, _ => none
  | fuel + 1, id =>
    match d.tree.prev? id with
    | some q =>
      match (d.get? q).bind Block.tool? with
      | some tool => some (some tool)
      | none => searchTool d fuel q
    | none =>
      match d.tree.parent? id with
      | some p => searchTool d fuel p
      | none => some none

theorem findTool?_of_prev (h : d.tree.links.Acyclic) {x q : NodeId} (hq : d.tree.prev? x = some q) :
    d.findTool? x = ((d.get? q).bind Block.tool?).or (d.findTool? q) := by
  obtain ⟨hpreceding, hparent⟩ := Tree.preceding_of_prev hq
  have hancestors : d.tree.ancestors q = d.tree.ancestors x := by
    rw [Tree.ancestors_eq h, hparent, ← Tree.ancestors_eq h]
  have hlast : d.lastTool? (d.tree.preceding x) =
      ((d.get? q).bind Block.tool?).or (d.lastTool? (d.tree.preceding q)) := by
    rw [hpreceding, lastTool?, List.reverse_concat, List.findSome?_cons]
    cases (d.get? q).bind Block.tool? <;> rfl
  rw [findTool?, findTool?, List.findSome?_cons, List.findSome?_cons, hlast, hancestors]
  cases (d.get? q).bind Block.tool? <;> rfl

theorem findTool?_of_first (h : d.tree.links.Acyclic) {x : NodeId} (hx : d.tree.prev? x = none) :
    d.findTool? x = (d.tree.parent? x).bind d.findTool? := by
  rw [findTool?, Tree.ancestors_eq h, List.findSome?_cons, Tree.preceding_of_first hx]
  cases d.tree.parent? x <;> rfl

/-- **The search for a tool ends**, with the tool that the block cuts with or without one. -/
theorem answers_searchTool (h : d.tree.links.Acyclic) (id : NodeId) :
    Answers (d.searchTool · id) (d.findTool? id) := by
  induction id using Tree.backward h with
  | top x hx hp =>
    rw [findTool?_of_first h hx, hp]
    exact (Answers.pure none).step fun fuel => by rw [searchTool, hx, hp]
  | out x p hx hp ih =>
    rw [findTool?_of_first h hx, hp]
    exact ih.step fun fuel => by rw [searchTool, hx, hp]
  | back x q hq ih =>
    rw [findTool?_of_prev h hq]
    cases ht : (d.get? q).bind Block.tool? with
    | some tool =>
      exact (Answers.pure (some tool)).step fun fuel => by rw [searchTool, hq]; simp only [ht]
    | none => exact ih.step fun fuel => by rw [searchTool, hq]; simp only [ht]

/-! ### The placement of a block -/

theorem firstSketch?_cons (p : NodeId) (ids : List NodeId) :
    d.firstSketch? (p :: ids) =
      (((d.get? p).bind Block.sketch?).map fun s => (p, s)).or (d.firstSketch? ids) := by
  rw [firstSketch?, List.findSome?_cons]
  cases (d.get? p).bind Block.sketch? <;> rfl

section

variable [Analytic R]

/-- The search for the placement of a block: every template around it is applied, and the first
sketch gives the compensation. -/
def searchPlacement (d : Document R S) : Nat → Placement R → Bool → NodeId → Option (Placement R)
  | 0, _, _, _ => none
  | fuel + 1, found, sided, id =>
    match d.tree.parent? id with
    | none => some found
    | some p =>
      match (d.get? p).bind Block.motion?, (d.get? p).bind Block.sketch?, sided with
      | some outer, _, _ => searchPlacement d fuel (found.within outer) sided p
      | none, some s, false =>
        (d.searchTool fuel p).bind fun tool =>
          let found := { found with side := s.side.sign, tool := (tool.map Tool.radius).getD 0 }
          searchPlacement d fuel found true p
      | none, _, _ => searchPlacement d fuel found sided p

/-- What a search for a placement finds on the way through some blocks: the motions of the templates
are applied, and the first sketch gives the compensation unless there is one already. -/
def placementThrough (d : Document R S) (found : Placement R) (sided : Bool) (ids : List NodeId) :
    Placement R :=
  let motion := (ids.filterMap fun id => (d.get? id).bind Block.motion?).foldl
    (fun m outer => outer.after m) found.motion
  match if sided then none else d.firstSketch? ids with
  | none => { found with motion }
  | some (s, data) => ⟨motion, data.side.sign, ((d.findTool? s).map Tool.radius).getD 0⟩

theorem placement_eq_through (id : NodeId) :
    d.placement id = d.placementThrough Placement.identity false (d.tree.ancestors id) := by
  rw [placement, placementThrough]
  cases d.firstSketch? (d.tree.ancestors id) <;> rfl

theorem placementThrough_template {p : NodeId} {outer : Motion R} {found : Placement R}
    {sided : Bool} {ids : List NodeId} (hm : (d.get? p).bind Block.motion? = some outer) :
    d.placementThrough found sided (p :: ids) =
      d.placementThrough (found.within outer) sided ids := by
  have hs : (d.get? p).bind Block.sketch? = none := by
    obtain ⟨b, hb, hm⟩ := Option.bind_eq_some_iff.mp hm
    rw [hb, Option.bind_some]
    unfold Block.motion? at hm
    unfold Block.sketch?
    split at hm
    · simp_all
    · cases hm
  simp [placementThrough, firstSketch?_cons, hm, hs, Placement.within]

theorem placementThrough_sketch {p : NodeId} {s : Sketch R} {found : Placement R}
    {ids : List NodeId} (hm : (d.get? p).bind Block.motion? = none)
    (hs : (d.get? p).bind Block.sketch? = some s) :
    d.placementThrough found false (p :: ids) =
      d.placementThrough
        { found with side := s.side.sign, tool := ((d.findTool? p).map Tool.radius).getD 0 }
        true ids := by
  simp [placementThrough, firstSketch?_cons, hm, hs]

theorem placementThrough_other {p : NodeId} {found : Placement R} {sided : Bool}
    {ids : List NodeId} (hm : (d.get? p).bind Block.motion? = none)
    (hs : sided = true ∨ (d.get? p).bind Block.sketch? = none) :
    d.placementThrough found sided (p :: ids) = d.placementThrough found sided ids := by
  rcases hs with rfl | hs <;> simp [placementThrough, firstSketch?_cons, *]

/-- The search ends with what is found among the blocks around. -/
theorem answers_searchPlacement_through (h : d.tree.links.Acyclic) (id : NodeId)
    (found : Placement R) (sided : Bool) :
    Answers (d.searchPlacement · found sided id)
      (d.placementThrough found sided (d.tree.ancestors id)) := by
  induction id using Tree.upward h generalizing found sided with
  | top x hx =>
    rw [Tree.ancestors_eq h, hx]
    have hnone : d.placementThrough found sided [] = found := by cases sided <;> rfl
    rw [hnone]
    exact (Answers.pure found).step fun fuel => by rw [searchPlacement, hx]
  | step x p hp ih =>
    rw [Tree.ancestors_eq h, hp]
    cases hm : (d.get? p).bind Block.motion? with
    | some outer =>
      rw [placementThrough_template hm]
      exact (ih _ _).step fun fuel => by rw [searchPlacement, hp]; simp only [hm]
    | none =>
      cases hs : (d.get? p).bind Block.sketch? with
      | none =>
        rw [placementThrough_other hm (.inr hs)]
        exact (ih _ _).step fun fuel => by rw [searchPlacement, hp]; simp only [hm, hs]
      | some s =>
        cases sided with
        | true =>
          rw [placementThrough_other hm (.inl rfl)]
          exact (ih _ _).step fun fuel => by rw [searchPlacement, hp]; simp only [hm, hs]
        | false =>
          rw [placementThrough_sketch hm hs]
          have hboth := (answers_searchTool h p).bind (k := fun fuel tool =>
            d.searchPlacement fuel { found with
              side := s.side.sign, tool := (tool.map Tool.radius).getD 0 } true p) (ih _ _)
          exact hboth.step fun fuel => by rw [searchPlacement, hp]; simp only [hm, hs]

/-- **The search for a placement ends**, with the placement of the block. -/
theorem answers_searchPlacement (h : d.tree.links.Acyclic) (id : NodeId) :
    Answers (d.searchPlacement · Placement.identity false id) (d.placement id) := by
  rw [placement_eq_through]
  exact answers_searchPlacement_through h id Placement.identity false

end

/-! ### Scaling -/

section

variable [Scalar R] [Storage R S]

/-- A block scaled, then the members of each of its lists, each with everything below it. -/
def scaleTo (k : R) : Nat → Document R S → NodeId → Option (Document R S)
  | 0, _, _ => none
  | fuel + 1, d, id =>
    let scaled := d.modify id (·.scale k)
    (scaled.tree.childLists id).foldlM
      (fun e l => (e.tree.members l).foldlM (fun e y => scaleTo k fuel e y) e) scaled

/-- Blocks of the one document are in the places where they are in the other. -/
structure SamePlaces (d e : Document R S) : Prop where
  /-- The lists have the same members. -/
  members : e.tree.members = d.tree.members
  /-- The blocks own the same lists. -/
  childLists : e.tree.childLists = d.tree.childLists

omit [Scalar R] [Storage R S] in
theorem SamePlaces.modify {e : Document R S} (h : d.SamePlaces e) (id : NodeId)
    (f : Block R S → Block R S) : d.SamePlaces (e.modify id f) where
  members := (e.tree.members_modify id f).trans h.members
  childLists := (funext (e.tree.childLists_modify id f)).trans h.childLists

theorem SamePlaces.scaled {e : Document R S} (h : d.SamePlaces e) (k : R) (ids : List NodeId) :
    d.SamePlaces (ids.foldl (fun e x => e.modify x (·.scale k)) e) := by
  induction ids generalizing e with
  | nil => exact h
  | cons x ids ih => exact ih (h.modify x _)

theorem SamePlaces.scaledAll {e : Document R S} (h : d.SamePlaces e) (k : R) (ys : List NodeId) :
    d.SamePlaces
      (ys.foldl (fun e y => (d.tree.subtree y).foldl (fun e x => e.modify x (·.scale k)) e) e) := by
  rw [← List.foldl_flatMap]
  exact h.scaled k _

/-- The recursion ends, and has scaled the whole subtree. -/
theorem answers_scaleTo_of_places (k : R) {id : NodeId} (h : ¬ d.tree.links.BelowItself id)
    (hid : d.tree.contains id) {e : Document R S} (he : d.SamePlaces e) :
    Answers (scaleTo k · e id)
      ((d.tree.subtree id).foldl (fun e x => e.modify x (·.scale k)) e) := by
  induction id, h using Tree.downward_of_not_belowItself generalizing e with
  | step x hx ih =>
    obtain ⟨n, hn⟩ := Option.isSome_iff_exists.mp hid
    have hscaled := he.modify x (·.scale k)
    have hlist (l : ListId) (hl : l ∈ d.tree.childLists x) (e : Document R S)
        (he : d.SamePlaces e) :
        Answers (fun fuel => (e.tree.members l).foldlM (fun e y => scaleTo k fuel e y) e)
          ((d.tree.members l).foldl
            (fun e y => (d.tree.subtree y).foldl (fun e x => e.modify x (·.scale k)) e) e) := by
      have hl : l ∈ n.lists := Tree.childLists_of_node? hn ▸ hl
      rw [he.members]
      refine Answers.foldlM (P := d.SamePlaces) (fun e y he => he.scaled k _) ?_ he
      exact fun y hy e he => ih y ⟨n, l, hn, hl, hy⟩ (d.tree.sound.holds.alive l y hy).1 he
    have hlists := Answers.foldlM (P := d.SamePlaces) (fun e l he => he.scaledAll k _) hlist hscaled
    rw [Tree.subtree_eq hx hid, List.foldl_cons, List.foldl_flatMap]
    simp only [List.foldl_flatMap]
    refine hlists.step fun fuel => ?_
    rw [scaleTo, hscaled.childLists]

/-- **Scaling ends**, with the whole subtree scaled, for a block that is not below itself. -/
theorem answers_scaleTo (k : R) {id : NodeId} (h : ¬ d.tree.links.BelowItself id)
    (hid : d.tree.contains id) : Answers (scaleTo k · d id) (d.scale id k) :=
  answers_scaleTo_of_places k h hid ⟨rfl, rfl⟩

end

end Document

end Toolpath
