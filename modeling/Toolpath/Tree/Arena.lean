/-!
# Arenas

An arena hands out a fresh key for every value put into it. A key is never used again, so a key
whose value was erased stays dead for good. Every operation is described by what `get?` returns
afterwards.
-/

namespace Toolpath

/-- Values under keys that were handed out one after the other. -/
structure Arena (β : Type) where
  /-- The values by key; an erased one leaves a gap. -/
  cells : Array (Option β)
deriving Repr

namespace Arena

variable {β : Type}

/-- The arena without values. -/
def empty : Arena β := ⟨#[]⟩

instance : Inhabited (Arena β) := ⟨empty⟩

/-- The value under a key, if it is alive. -/
def get? (a : Arena β) (k : Nat) : Option β := a.cells[k]?.join

/-- The key that the next value gets. -/
def nextKey (a : Arena β) : Nat := a.cells.size

/-- The arena with a further value under the next key. -/
def push (a : Arena β) (b : β) : Arena β := ⟨a.cells.push (some b)⟩

/-- The arena with the value under a key replaced, if it is alive. -/
def modify (a : Arena β) (k : Nat) (f : β → β) : Arena β := ⟨a.cells.modify k (Option.map f)⟩

/-- The arena without the value under a key. -/
def erase (a : Arena β) (k : Nat) : Arena β := ⟨a.cells.setIfInBounds k none⟩

/-- The number of values alive. -/
def size (a : Arena β) : Nat := a.cells.countP Option.isSome

@[simp] theorem get?_empty (k : Nat) : (empty : Arena β).get? k = none := by
  simp [empty, get?]

@[simp] theorem nextKey_push (a : Arena β) (b : β) : (a.push b).nextKey = a.nextKey + 1 := by
  simp [push, nextKey]

@[simp] theorem nextKey_modify (a : Arena β) (k : Nat) (f : β → β) :
    (a.modify k f).nextKey = a.nextKey := by
  simp [modify, nextKey]

@[simp] theorem nextKey_erase (a : Arena β) (k : Nat) : (a.erase k).nextKey = a.nextKey := by
  simp [erase, nextKey]

theorem lt_nextKey_of_get? {a : Arena β} {k : Nat} {b : β} (h : a.get? k = some b) :
    k < a.nextKey := by
  simp only [get?, nextKey] at *
  by_cases hk : k < a.cells.size
  · exact hk
  · simp [Array.getElem?_eq_none (Nat.le_of_not_lt hk)] at h

@[simp] theorem get?_nextKey (a : Arena β) : a.get? a.nextKey = none := by
  simp [get?, nextKey]

theorem get?_push (a : Arena β) (b : β) (k : Nat) :
    (a.push b).get? k = if k = a.nextKey then some b else a.get? k := by
  simp only [push, get?, nextKey, Array.getElem?_push]
  by_cases h : k = a.cells.size <;> simp [h]

theorem get?_modify (a : Arena β) (k : Nat) (f : β → β) (j : Nat) :
    (a.modify k f).get? j = if j = k then (a.get? j).map f else a.get? j := by
  simp only [modify, get?, Array.getElem?_modify]
  by_cases h : k = j
  · subst h; rcases a.cells[k]? with _ | _ | _ <;> simp
  · simp [h, Ne.symm h]

/-- A change that leaves the value as it is. -/
theorem modify_eq_self {a : Arena β} {k : Nat} {f : β → β}
    (h : ∀ b, a.get? k = some b → f b = b) : a.modify k f = a := by
  refine congrArg mk (Array.ext_getElem? fun j => ?_)
  rw [Array.getElem?_modify]
  split
  · rename_i hj
    subst hj
    rw [get?] at h
    rcases hcell : a.cells[k]? with _ | _ | b
    · rfl
    · rfl
    · exact congrArg (some ∘ some) (h b (by rw [hcell]; rfl))
  · rfl

theorem get?_erase (a : Arena β) (k j : Nat) :
    (a.erase k).get? j = if j = k then none else a.get? j := by
  simp only [erase, get?, Array.getElem?_setIfInBounds]
  by_cases h : k = j
  · subst h; simp; split <;> rfl
  · simp [h, Ne.symm h]

/-! ### How many are alive -/

theorem size_le_nextKey (a : Arena β) : a.size ≤ a.nextKey := Array.countP_le_size

/-- A value under a key stands in a cell of its own. -/
theorem cells_of_get? {a : Arena β} {k : Nat} {b : β} (h : a.get? k = some b) :
    ∃ hk : k < a.cells.size, a.cells[k] = some b := by
  have hk : k < a.cells.size := lt_nextKey_of_get? h
  refine ⟨hk, ?_⟩
  rw [get?, Array.getElem?_eq_getElem hk] at h
  simpa using h

theorem size_erase {a : Arena β} {k : Nat} {b : β} (h : a.get? k = some b) :
    (a.erase k).size + 1 = a.size := by
  obtain ⟨hk, hb⟩ := cells_of_get? h
  have hpos : 0 < a.cells.countP Option.isSome :=
    Array.countP_pos_iff.mpr ⟨a.cells[k], Array.getElem_mem hk, by rw [hb]; rfl⟩
  simp only [size, erase, Array.setIfInBounds_def, hk, dite_true, Array.countP_set, hb,
    Option.isSome_some, Option.isSome_none, if_true]
  simp only [Bool.false_eq_true, if_false]
  omega

@[simp] theorem size_modify (a : Arena β) (k : Nat) (f : β → β) : (a.modify k f).size = a.size := by
  simp only [size, modify, ← Array.countP_toList, Array.toList_modify]
  generalize a.cells.toList = cells
  induction cells generalizing k with
  | nil => simp
  | cons c cs ih =>
    cases k with
    | zero => simp [List.countP_cons]
    | succ k => simp [List.countP_cons, ih]

/-- No more keys are alive than values. -/
theorem length_le_size {a : Arena β} {ks : List Nat} (hn : ks.Nodup)
    (h : ∀ k ∈ ks, (a.get? k).isSome) : ks.length ≤ a.size := by
  induction ks generalizing a with
  | nil => exact Nat.zero_le _
  | cons k ks ih =>
    obtain ⟨hk, hn⟩ := List.nodup_cons.mp hn
    obtain ⟨b, hb⟩ := Option.isSome_iff_exists.mp (h k List.mem_cons_self)
    have hrest : ks.length ≤ (a.erase k).size := by
      refine ih hn fun j hj => ?_
      have hne : j ≠ k := fun he => hk (he ▸ hj)
      rw [get?_erase, if_neg hne]
      exact h j (List.mem_cons_of_mem _ hj)
    have := size_erase hb
    rw [List.length_cons]
    omega

end Arena

end Toolpath
