/-!
# Branches

A branch is a subtree as a value: a label and, for each list that the node owns, the branches of
the members of that list. Whatever copies, stores or walks a whole subtree works on branches, by
recursion on their structure; only taking a branch out of a store has to look out for cycles.
-/

namespace Toolpath

/-- A label with lists of branches below it. -/
inductive Branch (α : Type) where
  /-- A node and the members of its lists. -/
  | node (label : α) (lists : List (List (Branch α)))
deriving Repr

namespace Branch

variable {α β : Type}

/-- The label at the top. -/
def label : Branch α → α
  | node a _ => a

/-- The lists below the top. -/
def lists : Branch α → List (List (Branch α))
  | node _ ls => ls

/-- The members of the first list below the top, or of none. -/
def children (b : Branch α) : List (Branch α) := b.lists.headD []

mutual

/-- A function applied to every label. -/
def map (f : α → β) : Branch α → Branch β
  | node a ls => node (f a) (mapLists f ls)

/-- `map` over lists of lists. -/
def mapLists (f : α → β) : List (List (Branch α)) → List (List (Branch β))
  | [] => []
  | l :: ls => mapForest f l :: mapLists f ls

/-- `map` over a list. -/
def mapForest (f : α → β) : List (Branch α) → List (Branch β)
  | [] => []
  | b :: bs => map f b :: mapForest f bs

end

mutual

/-- The labels, each before those below it and lists in order. -/
def labels : Branch α → List α
  | node a ls => a :: labelsOfLists ls

/-- `labels` over lists of lists. -/
def labelsOfLists : List (List (Branch α)) → List α
  | [] => []
  | l :: ls => labelsOfForest l ++ labelsOfLists ls

/-- `labels` over a list. -/
def labelsOfForest : List (Branch α) → List α
  | [] => []
  | b :: bs => labels b ++ labelsOfForest bs

end

@[simp] theorem mapForest_eq_map (f : α → β) (bs : List (Branch α)) :
    mapForest f bs = bs.map (map f) := by
  induction bs with
  | nil => rfl
  | cons b bs ih => simp [mapForest, ih]

@[simp] theorem mapLists_eq_map (f : α → β) (ls : List (List (Branch α))) :
    mapLists f ls = ls.map (·.map (map f)) := by
  induction ls with
  | nil => rfl
  | cons l ls ih => simp [mapLists, ih]

@[simp] theorem map_node (f : α → β) (a : α) (ls : List (List (Branch α))) :
    map f (node a ls) = node (f a) (ls.map (·.map (map f))) := by
  simp [map]

@[simp] theorem labelsOfForest_eq_flatMap (bs : List (Branch α)) :
    labelsOfForest bs = bs.flatMap labels := by
  induction bs with
  | nil => rfl
  | cons b bs ih => simp [labelsOfForest, ih]

@[simp] theorem labelsOfLists_eq_flatMap (ls : List (List (Branch α))) :
    labelsOfLists ls = ls.flatMap (·.flatMap labels) := by
  induction ls with
  | nil => rfl
  | cons l ls ih => simp [labelsOfLists, ih]

@[simp] theorem labels_node (a : α) (ls : List (List (Branch α))) :
    labels (node a ls) = a :: ls.flatMap (·.flatMap labels) := by
  simp [labels]

end Branch

end Toolpath
