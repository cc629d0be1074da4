import Mathlib.Data.List.Infix
import Toolpath.Text.Lines

/-!
# Texts of whole lines

A text is *whole* if its last line is ended. Behind a whole text a new line begins, so the lines of
whole texts put one behind the other are the lines of each. How the lines end plays no part: a
carriage return before a line feed belongs to the ending.

## Main definitions

* `Text.Whole` — the last line of a text is ended

## Main results

* `Text.lines_append`, `Text.lines_flatMap` — the lines of whole texts one behind the other
* `LineEnding.lines_apply` — the same lines, whatever ends them
* `LineEnding.apply_join` — the ends of lines are those of each text
* `Text.infix_of_mem_lines` — a line is a part of the text
-/

namespace Toolpath

/-- An element of a list is in the front part of it or in the rest. -/
theorem exists_of_append_eq_append_cons {α : Type} {xs ys before after : List α} {x : α}
    (h : xs ++ ys = before ++ x :: after) : (∃ rest, xs = before ++ x :: rest) ∨
      ∃ between, before = xs ++ between ∧ ys = between ++ x :: after := by
  rcases List.append_eq_append_iff.mp h with ⟨between, hbefore, hys⟩ | ⟨here, hxs, hrest⟩
  · exact .inr ⟨between, hbefore, hys⟩
  · cases here with
    | nil => exact .inr ⟨[], by rw [hxs, List.append_nil, List.append_nil], hrest.symm⟩
    | cons y here =>
      obtain ⟨rfl, -⟩ := List.cons.inj hrest
      exact .inl ⟨here, hxs⟩

namespace Text

/-- Nothing follows the last line feed. -/
def Whole (text : List Char) : Prop := text = [] ∨ ∃ front, text = front ++ ['\n']

theorem whole_nil : Whole [] := .inl rfl

theorem whole_line (line : List Char) : Whole (line ++ ['\n']) := .inr ⟨line, rfl⟩

theorem Whole.append {a b : List Char} (ha : Whole a) (hb : Whole b) : Whole (a ++ b) := by
  rcases hb with rfl | ⟨front, rfl⟩
  · rwa [List.append_nil]
  · exact .inr ⟨a ++ front, (List.append_assoc ..).symm⟩

theorem whole_flatMap {β : Type} {f : β → List Char} {xs : List β} (h : ∀ x ∈ xs, Whole (f x)) :
    Whole (xs.flatMap f) := by
  induction xs with
  | nil => exact whole_nil
  | cons x xs ih =>
    rw [List.flatMap_cons]
    exact (h x List.mem_cons_self).append (ih fun y hy => h y (List.mem_cons_of_mem x hy))

/-! ### One text behind another -/

@[simp] theorem linesFrom_newline (line rest : List Char) :
    linesFrom line ('\n' :: rest) = closeLine line :: linesFrom [] rest := by
  rw [linesFrom, if_pos rfl]

theorem linesFrom_of_ne {c : Char} (h : c ≠ '\n') (line rest : List Char) :
    linesFrom line (c :: rest) = linesFrom (c :: line) rest := by
  rw [linesFrom, if_neg h]

theorem linesFrom_append (line a b : List Char) :
    linesFrom line (a ++ '\n' :: b) = linesFrom line (a ++ ['\n']) ++ linesFrom [] b := by
  induction a generalizing line with
  | nil => simp [linesFrom]
  | cons c a ih =>
    rw [List.cons_append, List.cons_append]
    by_cases hc : c = '\n'
    · subst hc
      rw [linesFrom_newline, linesFrom_newline, ih, List.cons_append]
    · rw [linesFrom_of_ne hc, linesFrom_of_ne hc, ih]

theorem lines_append {a : List Char} (ha : Whole a) (b : List Char) :
    lines (a ++ b) = lines a ++ lines b := by
  rcases ha with rfl | ⟨front, rfl⟩
  · rfl
  · rw [List.append_assoc]
    exact linesFrom_append [] front b

/-- **The lines of whole texts** one behind the other are the lines of each. -/
theorem lines_flatMap {β : Type} {f : β → List Char} {xs : List β} (h : ∀ x ∈ xs, Whole (f x)) :
    lines (xs.flatMap f) = xs.flatMap fun x => lines (f x) := by
  induction xs with
  | nil => rfl
  | cons x xs ih =>
    rw [List.flatMap_cons, lines_append (h x List.mem_cons_self),
      ih fun y hy => h y (List.mem_cons_of_mem x hy), List.flatMap_cons]

/-- Up to the first line feed a text is put behind the line. -/
theorem linesFrom_of_not_mem {text : List Char} (h : '\n' ∉ text) (line rest : List Char) :
    linesFrom line (text ++ rest) = linesFrom (text.reverse ++ line) rest := by
  induction text generalizing line with
  | nil => rfl
  | cons c text ih =>
    obtain ⟨hc, htext⟩ := not_or.mp (mt List.mem_cons.mpr h)
    rw [List.cons_append, linesFrom_of_ne (Ne.symm hc), ih htext (c :: line), List.reverse_cons,
      List.append_assoc]
    rfl

/-- A line alone, as far as it has no line feed. -/
theorem lines_line {line : List Char} (h : '\n' ∉ line) :
    lines (line ++ ['\n']) = [closeLine line.reverse] := by
  rw [lines, linesFrom_of_not_mem h, List.append_nil, linesFrom_newline]
  rfl

/-- A line that nothing ends. -/
theorem lines_of_not_mem {line : List Char} (h : '\n' ∉ line) (hne : line ≠ []) :
    lines line = [line] := by
  have hfrom := linesFrom_of_not_mem h [] []
  rw [List.append_nil, List.append_nil] at hfrom
  rw [lines, hfrom]
  cases hr : line.reverse with
  | nil => exact absurd (List.reverse_eq_nil_iff.mp hr) hne
  | cons c rest =>
    have hopen : linesFrom (c :: rest) [] = [(c :: rest).reverse] := rfl
    rw [hopen, ← hr, List.reverse_reverse]

/-! ### What a line holds -/

theorem closeLine_isPrefix (line : List Char) : closeLine line <+: line.reverse := by
  unfold closeLine
  split
  · rw [List.reverse_cons]
    exact List.prefix_append _ _
  · exact List.prefix_refl _

theorem of_mem_linesFrom {line text l : List Char} (hline : '\n' ∉ line)
    (hl : l ∈ linesFrom line text) : '\n' ∉ l ∧ l <:+: line.reverse ++ text := by
  induction text generalizing line with
  | nil =>
    cases line with
    | nil => cases hl
    | cons c line =>
      obtain rfl := List.mem_singleton.mp hl
      exact ⟨by rwa [List.mem_reverse], by simp⟩
  | cons c text ih =>
    by_cases hc : c = '\n'
    · subst hc
      rw [linesFrom_newline] at hl
      rcases List.mem_cons.mp hl with rfl | hl
      · have hpart := closeLine_isPrefix line
        refine ⟨fun hmem => hline (List.mem_reverse.mp (hpart.subset hmem)), ?_⟩
        exact hpart.isInfix.trans (List.prefix_append _ _).isInfix
      · obtain ⟨hnot, hinfix⟩ := ih List.not_mem_nil hl
        refine ⟨hnot, hinfix.trans ?_⟩
        exact ⟨line.reverse ++ ['\n'], [], by simp⟩
    · rw [linesFrom_of_ne hc] at hl
      have hline' : '\n' ∉ c :: line := by
        rw [List.mem_cons, not_or]
        exact ⟨Ne.symm hc, hline⟩
      obtain ⟨hnot, hinfix⟩ := ih hline' hl
      exact ⟨hnot, by simpa using hinfix⟩

theorem not_mem_of_mem_lines {text l : List Char} (hl : l ∈ lines text) : '\n' ∉ l :=
  (of_mem_linesFrom List.not_mem_nil hl).1

theorem infix_of_mem_lines {text l : List Char} (hl : l ∈ lines text) : l <:+: text :=
  (of_mem_linesFrom List.not_mem_nil hl).2

end Text

namespace LineEnding

open Text

/-! ### How lines end -/

/-- A text behind a character, with a carriage return before every line feed. -/
def returns (before : Char) (text : List Char) : List Char :=
  (List.zipWith expand (before :: text) text).flatten

theorem returns_cons (before c : Char) (text : List Char) :
    returns before (c :: text) = expand before c ++ returns c text := rfl

theorem linesFrom_returns {before : Char} {line text : List Char}
    (h : line.head? = some '\r' → before = '\r') :
    linesFrom line (returns before text) = linesFrom line text := by
  induction text generalizing before line with
  | nil => rfl
  | cons c text ih =>
    rw [returns_cons, expand]
    split
    · rename_i hc
      obtain ⟨rfl, hbefore⟩ := hc
      have hclose : closeLine line = line.reverse := by
        unfold closeLine
        split
        · exact absurd (h rfl) hbefore
        · rfl
      rw [List.cons_append, List.singleton_append, linesFrom_of_ne (by decide), linesFrom_newline,
        linesFrom_newline, ih (by simp), hclose]
      rfl
    · rw [List.singleton_append]
      by_cases hc : c = '\n'
      · subst hc
        rw [linesFrom_newline, linesFrom_newline, ih (by simp)]
      · rw [linesFrom_of_ne hc, linesFrom_of_ne hc, ih (by simp)]

/-- **The same lines, whatever ends them.** -/
theorem lines_apply (ending : LineEnding) (text : String) :
    lines (ending.apply text).toList = lines text.toList := by
  cases ending with
  | lf => rfl
  | crlf =>
    rw [apply, String.toList_ofList]
    exact linesFrom_returns (by simp)

/-- Unless it is a carriage return it does not matter what stands before a text. -/
theorem returns_of_ne {a b : Char} (ha : a ≠ '\r') (hb : b ≠ '\r') (text : List Char) :
    returns a text = returns b text := by
  cases text with
  | nil => rfl
  | cons c text =>
    rw [returns_cons, returns_cons, expand, expand]
    simp [ha, hb]

theorem returns_append (before : Char) (front rest : List Char) :
    returns before (front ++ '\n' :: rest) =
      returns before (front ++ ['\n']) ++ returns '\n' rest := by
  induction front generalizing before with
  | nil =>
    rw [List.nil_append, List.nil_append, returns_cons, returns_cons]
    simp [returns]
  | cons c front ih =>
    rw [List.cons_append, List.cons_append, returns_cons, returns_cons, ih, List.append_assoc]

theorem apply_append (ending : LineEnding) {a : String} (ha : Whole a.toList) (b : String) :
    ending.apply (a ++ b) = ending.apply a ++ ending.apply b := by
  cases ending with
  | lf => rfl
  | crlf =>
    refine String.toList_inj.mp ?_
    rw [String.toList_append, apply, apply, apply, String.toList_ofList, String.toList_ofList,
      String.toList_ofList, String.toList_append]
    show returns '\x00' _ = returns '\x00' _ ++ returns '\x00' _
    rcases ha with ha | ⟨front, ha⟩
    · rw [ha]
      rfl
    · have hopen : returns '\x00' b.toList = returns '\n' b.toList :=
        returns_of_ne (by decide) (by decide) _
      rw [ha, List.append_assoc, hopen]
      exact returns_append '\x00' front b.toList

/-- **How lines end is a matter of each text** where whole texts are put one behind the other. -/
theorem apply_join (ending : LineEnding) {ts : List String} (h : ∀ t ∈ ts, Whole t.toList) :
    ending.apply (String.join ts) = String.join (ts.map ending.apply) := by
  induction ts with
  | nil => cases ending <;> rfl
  | cons t ts ih =>
    rw [String.join_cons, List.map_cons, String.join_cons,
      ending.apply_append (h t List.mem_cons_self),
      ih fun u hu => h u (List.mem_cons_of_mem t hu)]

end LineEnding

end Toolpath
