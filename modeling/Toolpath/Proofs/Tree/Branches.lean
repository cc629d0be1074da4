import Toolpath.Tree.Branch

/-!
# Measures and conditions on branches

Three things are said of branches throughout: how many levels and how many labels they have, and
that every node meets a condition. A condition looks at a node by itself, at its label and at the
number of its lists. Whether a branch is the right shape for its labels is such a condition, and
what lies deeper in the branch is none.

The functions follow the three levels of recursion of `Branch`. Their equations on `node` speak of
lists only, and nothing else is used of them.

## Main definitions

* `Branch.height`, `Branch.size` — the levels below the top, and the number of labels
* `Branch.Every` — every node meets a condition

## Main results

* `Branch.forall_of_step` — induction over branches
-/

namespace Toolpath

namespace Branch

variable {α β : Type}

mutual

/-- The number of levels below the top. -/
def height : Branch α → Nat
  | node _ ls => heightOfLists ls

/-- The levels in lists. -/
def heightOfLists : List (List (Branch α)) → Nat
  | [] => 0
  | l :: ls => max (heightOfForest l) (heightOfLists ls)

/-- The levels in a list. -/
def heightOfForest : List (Branch α) → Nat
  | [] => 0
  | b :: bs => max (height b + 1) (heightOfForest bs)

end

mutual

/-- The number of labels. -/
def size : Branch α → Nat
  | node _ ls => sizeOfLists ls + 1

/-- The labels in lists. -/
def sizeOfLists : List (List (Branch α)) → Nat
  | [] => 0
  | l :: ls => sizeOfForest l + sizeOfLists ls

/-- The labels in a list. -/
def sizeOfForest : List (Branch α) → Nat
  | [] => 0
  | b :: bs => size b + sizeOfForest bs

end

mutual

/-- Every node meets a condition on its label and the number of its lists. -/
def Every (P : α → Nat → Prop) : Branch α → Prop
  | node a ls => P a ls.length ∧ EveryOfLists P ls

/-- `Every` in lists. -/
def EveryOfLists (P : α → Nat → Prop) : List (List (Branch α)) → Prop
  | [] => True
  | l :: ls => EveryOfForest P l ∧ EveryOfLists P ls

/-- `Every` in a list. -/
def EveryOfForest (P : α → Nat → Prop) : List (Branch α) → Prop
  | [] => True
  | b :: bs => Every P b ∧ EveryOfForest P bs

end

/-! ### Heights -/

theorem heightOfForest_le_iff {bs : List (Branch α)} {n : Nat} :
    heightOfForest bs ≤ n ↔ ∀ b ∈ bs, b.height < n := by
  induction bs with
  | nil => simp [heightOfForest]
  | cons b bs ih => rw [heightOfForest, Nat.max_le, ih, Nat.succ_le_iff, List.forall_mem_cons]

theorem heightOfLists_le_iff {ls : List (List (Branch α))} {n : Nat} :
    heightOfLists ls ≤ n ↔ ∀ l ∈ ls, ∀ b ∈ l, b.height < n := by
  induction ls with
  | nil => simp [heightOfLists]
  | cons l ls ih =>
    rw [heightOfLists, Nat.max_le, ih, heightOfForest_le_iff, List.forall_mem_cons]

theorem height_node_le_iff {a : α} {ls : List (List (Branch α))} {n : Nat} :
    (node a ls).height ≤ n ↔ ∀ l ∈ ls, ∀ b ∈ l, b.height < n :=
  heightOfLists_le_iff

theorem height_lt_of_mem {a : α} {ls : List (List (Branch α))} {l : List (Branch α)}
    (hl : l ∈ ls) {b : Branch α} (hb : b ∈ l) : b.height < (node a ls).height :=
  height_node_le_iff.mp (Nat.le_refl _) l hl b hb

/-- One of the branches below a node is only one level lower. -/
theorem exists_of_height_eq_succ {a : α} {ls : List (List (Branch α))} {n : Nat}
    (h : (node a ls).height = n + 1) : ∃ l ∈ ls, ∃ b ∈ l, b.height = n := by
  refine Classical.byContradiction fun hnone => ?_
  have hle : (node a ls).height ≤ n := by
    refine height_node_le_iff.mpr fun l hl b hb => Nat.lt_of_le_of_ne ?_ fun he => ?_
    · have := height_lt_of_mem (a := a) hl hb
      omega
    · exact hnone ⟨l, hl, b, hb, he⟩
  omega

/-- What holds of a node whenever it holds of everything directly below holds of every branch. -/
theorem forall_of_step {P : Branch α → Prop}
    (h : ∀ a ls, (∀ l ∈ ls, ∀ b ∈ l, P b) → P (node a ls)) (b : Branch α) : P b := by
  generalize hn : b.height = n
  induction n using Nat.strongRecOn generalizing b with
  | ind n ih =>
    obtain ⟨a, ls⟩ := b
    refine h a ls fun l hl b hb => ih _ ?_ b rfl
    exact hn ▸ height_lt_of_mem hl hb

/-! ### Labels -/

theorem self_mem_labels (a : α) (ls : List (List (Branch α))) : a ∈ (node a ls).labels := by
  rw [labels_node]
  exact List.mem_cons_self

/-- What is directly below a node has its labels among those of the branch. -/
theorem mem_labels_of_mem {a c : α} {ls : List (List (Branch α))} {l : List (Branch α)}
    {b : Branch α} (hl : l ∈ ls) (hb : b ∈ l) (hc : c ∈ b.labels) : c ∈ (node a ls).labels := by
  rw [labels_node]
  exact List.mem_cons_of_mem a (List.mem_flatMap.mpr ⟨l, hl, List.mem_flatMap.mpr ⟨b, hb, hc⟩⟩)

mutual

@[simp] theorem labels_map (f : α → β) : ∀ b : Branch α, (b.map f).labels = b.labels.map f
  | node a ls => congrArg (f a :: ·) (labelsOfLists_mapLists f ls)

theorem labelsOfLists_mapLists (f : α → β) : ∀ ls : List (List (Branch α)),
    labelsOfLists (mapLists f ls) = (labelsOfLists ls).map f
  | [] => rfl
  | l :: ls => by
    rw [mapLists, labelsOfLists, labelsOfLists, List.map_append, labelsOfForest_mapForest f l,
      labelsOfLists_mapLists f ls]

theorem labelsOfForest_mapForest (f : α → β) : ∀ bs : List (Branch α),
    labelsOfForest (mapForest f bs) = (labelsOfForest bs).map f
  | [] => rfl
  | b :: bs => by
    rw [mapForest, labelsOfForest, labelsOfForest, List.map_append, labels_map f b,
      labelsOfForest_mapForest f bs]

end

/-! ### Sizes -/

theorem size_node (a : α) (ls : List (List (Branch α))) :
    (node a ls).size = sizeOfLists ls + 1 := rfl

mutual

/-- There are as many labels as the size says. -/
theorem length_labels : ∀ b : Branch α, b.labels.length = b.size
  | node _ ls => congrArg (· + 1) (length_labelsOfLists ls)

theorem length_labelsOfLists : ∀ ls : List (List (Branch α)),
    (labelsOfLists ls).length = sizeOfLists ls
  | [] => rfl
  | l :: ls => by
    rw [labelsOfLists, List.length_append, length_labelsOfForest l, length_labelsOfLists ls,
      sizeOfLists]

theorem length_labelsOfForest : ∀ bs : List (Branch α),
    (labelsOfForest bs).length = sizeOfForest bs
  | [] => rfl
  | b :: bs => by
    rw [labelsOfForest, List.length_append, length_labels b, length_labelsOfForest bs,
      sizeOfForest]

end

mutual

@[simp] theorem size_map (f : α → β) : ∀ b : Branch α, (b.map f).size = b.size
  | node _ ls => congrArg (· + 1) (sizeOfLists_mapLists f ls)

theorem sizeOfLists_mapLists (f : α → β) : ∀ ls : List (List (Branch α)),
    sizeOfLists (mapLists f ls) = sizeOfLists ls
  | [] => rfl
  | l :: ls => by
    rw [mapLists, sizeOfLists, sizeOfForest_mapForest f l, sizeOfLists_mapLists f ls, sizeOfLists]

theorem sizeOfForest_mapForest (f : α → β) : ∀ bs : List (Branch α),
    sizeOfForest (mapForest f bs) = sizeOfForest bs
  | [] => rfl
  | b :: bs => by
    rw [mapForest, sizeOfForest, size_map f b, sizeOfForest_mapForest f bs, sizeOfForest]

end

theorem sizeOfForest_append (bs cs : List (Branch α)) :
    sizeOfForest (bs ++ cs) = sizeOfForest bs + sizeOfForest cs := by
  induction bs with
  | nil => exact (Nat.zero_add _).symm
  | cons b bs ih => rw [List.cons_append, sizeOfForest, sizeOfForest, ih, Nat.add_assoc]

@[simp] theorem sizeOfForest_singleton (b : Branch α) : sizeOfForest [b] = b.size := rfl

theorem sizeOfLists_append (ks ls : List (List (Branch α))) :
    sizeOfLists (ks ++ ls) = sizeOfLists ks + sizeOfLists ls := by
  induction ks with
  | nil => exact (Nat.zero_add _).symm
  | cons k ks ih => rw [List.cons_append, sizeOfLists, sizeOfLists, ih, Nat.add_assoc]

@[simp] theorem sizeOfLists_singleton (l : List (Branch α)) : sizeOfLists [l] = sizeOfForest l :=
  rfl

theorem size_le_sizeOfForest {bs : List (Branch α)} {b : Branch α} (h : b ∈ bs) :
    b.size ≤ sizeOfForest bs := by
  induction bs with
  | nil => cases h
  | cons c bs ih =>
    rw [sizeOfForest]
    rcases List.mem_cons.mp h with rfl | h
    · omega
    · have := ih h
      omega

mutual

theorem height_lt_size : ∀ b : Branch α, b.height < b.size
  | node _ ls => Nat.lt_succ_of_le (heightOfLists_le_sizeOfLists ls)

theorem heightOfLists_le_sizeOfLists : ∀ ls : List (List (Branch α)),
    heightOfLists ls ≤ sizeOfLists ls
  | [] => Nat.le_refl _
  | l :: ls => by
    have hl := heightOfForest_le_sizeOfForest l
    have hls := heightOfLists_le_sizeOfLists ls
    rw [heightOfLists, sizeOfLists]
    omega

theorem heightOfForest_le_sizeOfForest : ∀ bs : List (Branch α),
    heightOfForest bs ≤ sizeOfForest bs
  | [] => Nat.le_refl _
  | b :: bs => by
    have hb := height_lt_size b
    have hbs := heightOfForest_le_sizeOfForest bs
    rw [heightOfForest, sizeOfForest]
    omega

end

/-! ### Conditions -/

theorem everyOfForest_iff {P : α → Nat → Prop} {bs : List (Branch α)} :
    EveryOfForest P bs ↔ ∀ b ∈ bs, b.Every P := by
  induction bs with
  | nil => simp [EveryOfForest]
  | cons b bs ih => simp [EveryOfForest, ih]

theorem everyOfLists_iff {P : α → Nat → Prop} {ls : List (List (Branch α))} :
    EveryOfLists P ls ↔ ∀ l ∈ ls, ∀ b ∈ l, b.Every P := by
  induction ls with
  | nil => simp [EveryOfLists]
  | cons l ls ih => simp [EveryOfLists, ih, everyOfForest_iff]

theorem every_node_iff {P : α → Nat → Prop} {a : α} {ls : List (List (Branch α))} :
    (node a ls).Every P ↔ P a ls.length ∧ ∀ l ∈ ls, ∀ b ∈ l, b.Every P := by
  rw [Every, everyOfLists_iff]

theorem Every.imp {P Q : α → Nat → Prop} (hPQ : ∀ a n, P a n → Q a n) {b : Branch α}
    (h : b.Every P) : b.Every Q := by
  induction b using forall_of_step with
  | h a ls ih =>
    obtain ⟨ha, hls⟩ := every_node_iff.mp h
    exact every_node_iff.mpr ⟨hPQ _ _ ha, fun l hl b hb => ih l hl b hb (hls l hl b hb)⟩

theorem Every.map {P : β → Nat → Prop} {f : α → β} {b : Branch α}
    (h : b.Every fun a n => P (f a) n) : (b.map f).Every P := by
  induction b using forall_of_step with
  | h a ls ih =>
    obtain ⟨ha, hls⟩ := every_node_iff.mp h
    rw [map_node, every_node_iff, List.length_map]
    refine ⟨ha, fun k hk c hc => ?_⟩
    obtain ⟨l, hl, rfl⟩ := List.mem_map.mp hk
    obtain ⟨b, hb, rfl⟩ := List.mem_map.mp hc
    exact ih l hl b hb (hls l hl b hb)

/-- A further condition on the labels. -/
theorem Every.and_labels {P : α → Nat → Prop} {Q : α → Prop} {b : Branch α} (h : b.Every P)
    (hQ : ∀ a ∈ b.labels, Q a) : b.Every fun a n => P a n ∧ Q a := by
  induction b using forall_of_step with
  | h a ls ih =>
    obtain ⟨ha, hls⟩ := every_node_iff.mp h
    refine every_node_iff.mpr ⟨⟨ha, hQ a (self_mem_labels a ls)⟩, fun l hl b hb => ?_⟩
    exact ih l hl b hb (hls l hl b hb) fun c hc => hQ c (mem_labels_of_mem hl hb hc)

/-- Functions that agree on the labels agree on the branch. -/
theorem Every.map_congr {P : α → Nat → Prop} {f g : α → β} (hfg : ∀ a n, P a n → f a = g a)
    {b : Branch α} (h : b.Every P) : b.map f = b.map g := by
  induction b using forall_of_step with
  | h a ls ih =>
    obtain ⟨ha, hls⟩ := every_node_iff.mp h
    rw [map_node, map_node, hfg _ _ ha]
    congr 1
    refine List.map_congr_left fun l hl => List.map_congr_left fun b hb => ?_
    exact ih l hl b hb (hls l hl b hb)

@[simp] theorem map_id (b : Branch α) : b.map id = b := by
  induction b using forall_of_step with
  | h a ls ih =>
    rw [map_node]
    congr 1
    refine (List.map_congr_left fun l hl => ?_).trans (List.map_id ls)
    exact (List.map_congr_left fun b hb => ih l hl b hb).trans (List.map_id l)

/-- A function that changes no label changes no branch. -/
theorem Every.map_eq_self {P : α → Nat → Prop} {f : α → α} (hf : ∀ a n, P a n → f a = a)
    {b : Branch α} (h : b.Every P) : b.map f = b :=
  (h.map_congr hf).trans b.map_id

end Branch

end Toolpath
