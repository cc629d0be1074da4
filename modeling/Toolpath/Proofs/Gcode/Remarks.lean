import Mathlib.Data.List.Infix
import Toolpath.Gcode.Line
import Toolpath.Proofs.Text.Lines

/-!
# What is read from remarks

A remark says nothing but markers. Whatever its text is, each of its lines is inside a remark from
its first character to its last, so no word is read from it; and if the text has no `GCAM:`, no
marker is read either. So whoever reads a program line by line may leave out its remarks.

## Main definitions

* `Unmarked` — a text holds no `GCAM:`
* `Statement.found` — what a reader of lines finds in a text
* `Statement.spoken` — statements without their remarks

## Main results

* `ProgramLine.words_remark`, `ProgramLine.markers_remark` — what is read from a line of a remark
* `Statement.found_program` — what is found in a program is found in its statements
-/

namespace Toolpath

/-! ### Marks -/

/-- What a marker starts with. -/
def markOf : List Char := "GCAM:".toList

/-- The text holds no mark, so no marker. -/
def Unmarked (text : List Char) : Prop := ¬ markOf <:+: text

instance (text : List Char) : Decidable (Unmarked text) :=
  inferInstanceAs (Decidable (¬ markOf <:+: text))

namespace Unmarked

theorem of_part {a b : List Char} (h : Unmarked b) (hab : a <:+: b) : Unmarked a :=
  fun ha => h (ha.trans hab)

/-- A mark has a character that the text does not have. -/
theorem of_missing {a : List Char} {c : Char} (hc : c ∈ markOf) (h : c ∉ a) : Unmarked a :=
  fun ha => h (ha.subset hc)

/-- A mark starts with a letter that the text does not have. -/
theorem of_not_mem {a : List Char} (h : 'G' ∉ a) : Unmarked a := of_missing (by decide) h

/-- A character that no mark has keeps apart what is before it and what is behind it. -/
theorem separated {a b : List Char} {c : Char} (ha : Unmarked a) (hb : Unmarked b)
    (hc : c ∉ markOf) : Unmarked (a ++ c :: b) := by
  rintro ⟨s, t, h⟩
  rw [List.append_assoc, List.append_eq_append_iff] at h
  rcases h with ⟨a', rfl, h⟩ | ⟨s', rfl, h⟩
  · rcases List.append_eq_append_iff.mp h with ⟨a'', rfl, -⟩ | ⟨m, hm, hrest⟩
    · exact ha ⟨s, a'', by rw [List.append_assoc]⟩
    · cases m with
      | nil => exact ha ⟨s, [], by rw [hm]; simp⟩
      | cons d m =>
        obtain rfl := (List.cons.inj hrest).1
        exact hc (by rw [hm]; simp)
  · cases s' with
    | nil =>
      obtain ⟨d, m, hm⟩ : ∃ d m, markOf = d :: m := ⟨_, _, rfl⟩
      rw [hm] at h
      obtain rfl := (List.cons.inj h).1
      exact hc (by rw [hm]; exact List.mem_cons_self)
    | cons d s' =>
      obtain ⟨-, rfl⟩ := List.cons.inj h
      exact hb ⟨s', t, List.append_assoc ..⟩

end Unmarked

namespace RemarkStyle

theorem unparenthesized_ne (c : Char) : unparenthesized c ≠ ')' := by
  unfold unparenthesized
  split
  · decide
  · split
    · decide
    · assumption

/-- The characters of a mark are written as they are, and for no others. -/
theorem eq_of_unparenthesized {c d : Char} (h : unparenthesized c = d) (hd : d ∈ markOf) :
    c = d := by
  unfold unparenthesized at h
  split at h
  · exact absurd (h ▸ hd) (by decide)
  · split at h
    · exact absurd (h ▸ hd) (by decide)
    · exact h

theorem unmarked_line (style : RemarkStyle) {text : List Char} (h : Unmarked text) :
    Unmarked (style.line text) := by
  cases style with
  | semicolon =>
    have hspace : Unmarked (' ' :: text) :=
      Unmarked.separated (.of_not_mem List.not_mem_nil) h (by decide)
    exact Unmarked.separated (.of_not_mem List.not_mem_nil) hspace (by decide)
  | parentheses =>
    have hmapped : Unmarked (text.map unparenthesized) := by
      intro hmark
      obtain ⟨part, hpart, hmap⟩ := List.infix_map_iff.mp hmark
      have hsame : part = markOf := by
        refine List.ext_getElem (by rw [hmap, List.length_map]) fun i hi hi' => ?_
        refine eq_of_unparenthesized ?_ (List.getElem_mem hi')
        simp only [hmap, List.getElem_map]
      exact h (hsame ▸ hpart)
    have hclosed : Unmarked (text.map unparenthesized ++ [')']) :=
      hmapped.separated (.of_not_mem List.not_mem_nil) (by decide)
    exact Unmarked.separated (.of_not_mem List.not_mem_nil) hclosed (by decide)

theorem newline_not_mem_line (style : RemarkStyle) {text : List Char} (h : '\n' ∉ text) :
    '\n' ∉ style.line text := by
  cases style with
  | semicolon => simpa [line] using h
  | parentheses =>
    have hchar (c : Char) (hc : c ∈ text) : unparenthesized c ≠ '\n' := by
      unfold unparenthesized
      split
      · decide
      · split
        · decide
        · exact fun he => h (he ▸ hc)
    simpa [line] using hchar

end RemarkStyle

/-! ### Lines of remarks -/

namespace ProgramLine

variable {R : Type} [Numeral R]

/-- Inside a remark nothing is outside, as far as it is not ended. -/
theorem outside_of_prefix {inside l : List Char} (h : ∀ c ∈ inside, c ≠ ')')
    (hl : l <+: inside ++ [')']) : outside true l = [] := by
  induction inside generalizing l with
  | nil =>
    rcases List.prefix_cons_iff.mp hl with rfl | ⟨rest, rfl, hrest⟩
    · rfl
    · obtain rfl := List.prefix_nil.mp hrest
      rfl
  | cons c inside ih =>
    rcases List.prefix_cons_iff.mp hl with rfl | ⟨rest, rfl, hrest⟩
    · rfl
    · have hc : (c != ')') = true := by simpa using h c List.mem_cons_self
      rw [outside, hc]
      exact ih (fun d hd => h d (List.mem_cons_of_mem c hd)) hrest

theorem outside_remark (style : RemarkStyle) {text l : List Char} (hl : l <+: style.line text) :
    outside false l = [] := by
  cases style with
  | semicolon =>
    rcases List.prefix_cons_iff.mp hl with rfl | ⟨rest, rfl, -⟩
    · rfl
    · rfl
  | parentheses =>
    rcases List.prefix_cons_iff.mp hl with rfl | ⟨rest, rfl, hrest⟩
    · rfl
    · have hinside : ∀ c ∈ text.map RemarkStyle.unparenthesized, c ≠ ')' := by
        rintro _ hc
        obtain ⟨c, -, rfl⟩ := List.mem_map.mp hc
        exact RemarkStyle.unparenthesized_ne c
      exact outside_of_prefix hinside hrest

/-- **No word is read from a line of a remark.** -/
theorem words_remark (style : RemarkStyle) {text l : List Char} (hl : l <+: style.line text) :
    (read l : ProgramLine R).words = [] := by
  show wordsOf (outside false l) = []
  rw [outside_remark style hl]
  rfl

theorem eq_append_of_after? {pattern text rest : List Char} (h : after? pattern text = some rest) :
    text = pattern ++ rest := by
  induction pattern generalizing text with
  | nil => exact Option.some.inj h
  | cons c pattern ih =>
    cases text with
    | nil => cases h
    | cons d text =>
      rw [after?] at h
      split at h
      · rename_i hcd
        rw [ih h, hcd, List.cons_append]
      · cases h

theorem markersOf_unmarked {l : List Char} (h : Unmarked l) :
    (markersOf l : List (Marker R)) = [] := by
  induction l with
  | nil => rfl
  | cons c l ih =>
    have hnone : after? "GCAM:".toList (c :: l) = none := by
      cases ha : after? "GCAM:".toList (c :: l) with
      | none => rfl
      | some rest => exact absurd ⟨[], rest, by rw [eq_append_of_after? ha]; rfl⟩ h
    rw [markersOf, hnone]
    exact ih (h.of_part (List.suffix_cons c l).isInfix)

/-- **No marker is read from a line of a remark without marks.** -/
theorem markers_remark (style : RemarkStyle) {text l : List Char} (h : Unmarked text)
    (hl : l <+: style.line text) : (read l : ProgramLine R).markers = [] :=
  markersOf_unmarked ((style.unmarked_line h).of_part hl.isInfix)

end ProgramLine

/-! ### Lines of programs -/

namespace Statement

open Text

/-- Whether a statement is a remark. A marker is none: it is written like one, and read. -/
def isRemark : Statement → Bool
  | remark _ => true
  | _ => false

theorem exists_of_isRemark {s : Statement} (h : s.isRemark = true) : ∃ t, s = .remark t := by
  cases s with
  | remark t => exact ⟨t, rfl⟩
  | _ => cases h

/-- Statements without their remarks. -/
def spoken (ss : List Statement) : List Statement := ss.filter fun s => !s.isRemark

theorem whole_remark (d : Dialect) (text : String) : Whole (d.remark text).toList := by
  rw [Dialect.remark, String.toList_ofList]
  exact whole_flatMap fun l _ => whole_line _

theorem whole_closed (text : String) : Whole (closed text).toList := by
  unfold closed
  split
  · rename_i h
    rcases Bool.or_eq_true _ _ ▸ h with h | h
    · left
      simpa using h
    · obtain ⟨front, hfront⟩ := List.getLast?_eq_some_iff.mp (eq_of_beq h)
      exact .inr ⟨front, hfront⟩
  · rw [String.toList_append]
    exact whole_line _

/-- **A statement is written as whole lines.** -/
theorem whole_text (d : Dialect) (s : Statement) : Whole (s.text d).toList := by
  cases s with
  | words ws =>
    rw [text, String.toList_ofList]
    exact whole_line _
  | frame => exact .inr ⟨['%'], by simp [text]⟩
  | remark t =>
    rw [text]
    split
    · exact whole_nil
    · exact whole_remark d t
  | marker name values => exact whole_remark d _
  | verbatim t => exact whole_closed t

variable {γ : Type} {φ : List Char → List γ}

/-- What is found on the lines of a text, one after the other. -/
def found (φ : List Char → List γ) (text : String) : List γ := (lines text.toList).flatMap φ

theorem whole_program (d : Dialect) (ss : List Statement) : Whole (program d ss).toList := by
  rw [program, String.toList_join, List.flatMap_map]
  exact whole_flatMap fun s _ => whole_text d s

/-- **What is found in a program** is found in its statements. -/
theorem found_program (d : Dialect) (ss : List Statement) :
    found φ (program d ss) = ss.flatMap fun s => found φ (s.text d) := by
  rw [found, program, String.toList_join, List.flatMap_map,
    lines_flatMap fun s _ => whole_text d s, List.flatMap_assoc]
  rfl

/-- The lines of a remark, as they are read. -/
theorem lines_remark (d : Dialect) (text : String) :
    lines (d.remark text).toList =
      (lines text.toList).map fun l => closeLine (d.remarks.line l).reverse := by
  rw [Dialect.remark, String.toList_ofList, lines_flatMap fun l _ => whole_line _,
    List.map_eq_flatMap]
  refine List.flatMap_congr fun l hl => ?_
  exact lines_line (d.remarks.newline_not_mem_line (not_mem_of_mem_lines hl))

/-- A line of a remark is that of a line of its text, or a part of it where that was ended. -/
theorem exists_of_mem_lines_remark (d : Dialect) {t : String} {l : List Char}
    (hl : l ∈ lines ((remark t).text d).toList) :
    ∃ line ∈ lines t.toList, l <+: d.remarks.line line := by
  rw [text] at hl
  split at hl
  · cases hl
  · rw [lines_remark] at hl
    obtain ⟨line, hline, rfl⟩ := List.mem_map.mp hl
    have hpart := closeLine_isPrefix (d.remarks.line line).reverse
    rw [List.reverse_reverse] at hpart
    exact ⟨line, hline, hpart⟩

/-- Nothing is found in a remark if nothing is found on any line of it. -/
theorem found_remark (d : Dialect) {t : String}
    (h : ∀ line ∈ lines t.toList, ∀ l, l <+: d.remarks.line line → φ l = []) :
    found φ ((remark t).text d) = [] := by
  rw [found, List.flatMap_eq_nil_iff]
  intro l hl
  obtain ⟨line, hline, hpart⟩ := exists_of_mem_lines_remark d hl
  exact h line hline l hpart

/-- **Where nothing is found in remarks**, a program may be read without them. -/
theorem found_spoken (d : Dialect) {ss : List Statement}
    (h : ∀ t, .remark t ∈ ss → ∀ line ∈ lines t.toList, ∀ l, l <+: d.remarks.line line → φ l = []) :
    found φ (program d (spoken ss)) = found φ (program d ss) := by
  rw [found_program, found_program]
  induction ss with
  | nil => rfl
  | cons s ss ih =>
    have hrest := ih fun t ht => h t (List.mem_cons_of_mem s ht)
    cases hs : s.isRemark with
    | true =>
      obtain ⟨t, rfl⟩ := exists_of_isRemark hs
      have hspoken : spoken (.remark t :: ss) = spoken ss := List.filter_cons_of_neg (by simp [hs])
      rw [hspoken, hrest, List.flatMap_cons, found_remark d (h t List.mem_cons_self),
        List.nil_append]
    | false =>
      have hspoken : spoken (s :: ss) = s :: spoken ss := List.filter_cons_of_pos (by simp [hs])
      rw [hspoken, List.flatMap_cons, List.flatMap_cons, hrest]

end Statement

end Toolpath
