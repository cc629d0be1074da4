import Toolpath.Document.Scope

/-!
# The tool in scope

A block cuts with the tool of a tool change that stands before it: among the siblings before it, or
among those before its parent, and so on outward. The search for it meets these blocks one after the
other, the nearest first, and stops at the first tool change. It does not look into the blocks that
it passes over.

## Main definitions

* `Document.scope` — the blocks that the search meets
* `Document.toolBlock?` — the tool change that it finds
* `Document.passed` — the blocks that it passes over

## Main results

* `Document.findTool?_eq` — the tool that a block cuts with is that of the tool change
-/

namespace Toolpath

/-- What is found first is what the first hit gives. -/
theorem findSome?_eq_find? {α β : Type} (f : α → Option β) (xs : List α) :
    xs.findSome? f = (xs.find? fun x => (f x).isSome).bind f := by
  induction xs with
  | nil => rfl
  | cons x xs ih =>
    cases hx : f x with
    | some y => simp [hx]
    | none => simpa [hx] using ih

theorem findSome?_congr {α β : Type} {f g : α → Option β} {xs : List α}
    (h : ∀ x ∈ xs, f x = g x) : xs.findSome? f = xs.findSome? g := by
  induction xs with
  | nil => rfl
  | cons x xs ih =>
    rw [List.findSome?_cons, List.findSome?_cons, h x List.mem_cons_self,
      ih fun y hy => h y (List.mem_cons_of_mem x hy)]

/-- What is found first among parts is what is found first in one of them. -/
theorem findSome?_flatMap {α β γ : Type} (f : β → Option γ) (g : α → List β) (xs : List α) :
    (xs.flatMap g).findSome? f = xs.findSome? fun x => (g x).findSome? f := by
  induction xs with
  | nil => rfl
  | cons x xs ih =>
    rw [List.flatMap_cons, List.findSome?_append, ih, List.findSome?_cons]
    cases (g x).findSome? f <;> rfl

namespace Block

variable {R S : Type} {b : Block R S}

theorem payload_of_tool? {t : Tool R} (h : b.tool? = some t) : b.payload = .tool t := by
  unfold tool? at h
  split at h
  · rename_i hp
    rw [hp, Option.some.inj h]
  · cases h

theorem kind_of_tool? {t : Tool R} (h : b.tool? = some t) : b.kind = .tool :=
  congrArg Payload.kind (payload_of_tool? h)

theorem tool?_of_ne (h : b.kind ≠ .tool) : b.tool? = none := by
  cases ht : b.tool? with
  | none => rfl
  | some t => exact absurd (kind_of_tool? ht) h

end Block

namespace Document

variable {R S : Type} (d : Document R S)

/-- The tool of a block, if it is a tool change. -/
def tool? (id : NodeId) : Option (Tool R) := (d.get? id).bind Block.tool?

/-- The blocks that the search for the tool of a block meets, in its order. -/
def scope (x : NodeId) : List NodeId :=
  (x :: d.tree.ancestors x).flatMap fun a => (d.tree.preceding a).reverse

/-- The tool change that the search finds. -/
def toolBlock? (x : NodeId) : Option NodeId := (d.scope x).find? fun g => (d.tool? g).isSome

/-- The blocks that the search passes over. -/
def passed (x : NodeId) : List NodeId := (d.scope x).takeWhile fun g => !(d.tool? g).isSome

/-- **The tool that a block cuts with** is that of the tool change that the search finds. -/
theorem findTool?_eq (x : NodeId) : d.findTool? x = (d.toolBlock? x).bind d.tool? := by
  rw [toolBlock?, ← findSome?_eq_find?, scope, findSome?_flatMap]
  rfl

variable {d} {x t : NodeId}

theorem exists_of_findTool? {tool : Tool R} (h : d.findTool? x = some tool) :
    ∃ t, d.toolBlock? x = some t ∧ d.tool? t = some tool := by
  rw [findTool?_eq] at h
  exact Option.bind_eq_some_iff.mp h

/-- Behind the blocks that are passed over, the search finds the tool change. -/
theorem exists_scope_eq (h : d.toolBlock? x = some t) :
    ∃ rest, d.scope x = d.passed x ++ t :: rest := by
  obtain ⟨ht, before, rest, hscope, hbefore⟩ := List.find?_eq_some_iff_append.mp h
  have hpassed : d.passed x = before := by
    rw [passed, hscope, List.takeWhile_append_of_pos hbefore,
      List.takeWhile_cons_of_neg (by simp [ht]), List.append_nil]
  exact ⟨rest, hpassed ▸ hscope⟩

end Document

end Toolpath
