import Toolpath.Proofs.Decimal.Texts
import Toolpath.Proofs.Gcode.Remarks

/-!
# What is read from words and markers

A program is written with words and markers, and read character by character. A line of words has
no remark in it and no mark; every number ends where a space or the line ends; so the words are read
one by one, each with the value of its number. A marker stands in a remark, so no word is read from
it, and its numbers end at a colon or where the remark ends.

## Main definitions

* `Word.Proper` — a capital letter with the text of a number
* `Word.row` — the line that some words are written on
* `Word.address?` — what a word says

## Main results

* `Statement.lines_words`, `Statement.lines_marker` — the lines of words and of markers
* `ProgramLine.wordsWithin_chars` — a word is read, and reading goes on behind it
* `ProgramLine.read_marker` — a marker is read, and nothing else from its line
-/

namespace Toolpath

/-! ### Lines of words -/

namespace Word

/-- A word as programs have it. -/
structure Proper (w : Word) : Prop where
  /-- A capital letter. -/
  letter : w.letter.isUpper = true
  /-- The text of a number. -/
  number : Decimal.Printed w.number

/-- The line that some words are written on. -/
def row (ws : List Word) : List Char := [' '].intercalate (ws.map Word.chars)

theorem row_cons (w : Word) (ws : List Word) :
    row (w :: ws) = w.chars ++ ws.flatMap fun v => ' ' :: v.chars := by
  induction ws generalizing w with
  | nil => simp [row]
  | cons v ws ih =>
    have hstep : row (w :: v :: ws) = w.chars ++ ' ' :: row (v :: ws) := by
      simp [row, List.intercalate]
    rw [hstep, ih, List.flatMap_cons]
    rfl

/-- What stands behind a word on a line begins with a space. -/
theorem eq_space_of_head? (ws : List Word) :
    ∀ c ∈ (ws.flatMap fun v => ' ' :: v.chars).head?, c = ' ' := by
  cases ws with
  | nil => exact nofun
  | cons w ws => exact fun c hc => (Option.some.inj hc).symm

/-- A character that neither words nor the spaces between them have. -/
def isForeign (c : Char) : Bool := !c.isUpper && c != ' ' && Decimal.isForeign c

theorem Proper.not_mem {w : Word} (h : w.Proper) {c : Char} (hc : isForeign c = true) :
    c ∉ w.chars := by
  simp only [isForeign, Bool.and_eq_true, Bool.not_eq_true', bne_iff_ne] at hc
  obtain ⟨⟨hupper, -⟩, hnumber⟩ := hc
  intro hmem
  rcases List.mem_cons.mp hmem with rfl | hmem
  · rw [h.letter] at hupper
    cases hupper
  · exact h.number.not_mem hnumber hmem

theorem not_mem_row {ws : List Word} (h : ∀ w ∈ ws, w.Proper) {c : Char}
    (hc : isForeign c = true) : c ∉ row ws := by
  have hspace : c ≠ ' ' := by
    rintro rfl
    exact absurd hc (by decide)
  cases ws with
  | nil => exact List.not_mem_nil
  | cons w ws =>
    rw [row_cons, List.mem_append, List.mem_flatMap]
    rintro (hmem | ⟨v, hv, hmem⟩)
    · exact (h w List.mem_cons_self).not_mem hc hmem
    · rcases List.mem_cons.mp hmem with heq | hmem
      · exact hspace heq
      · exact (h v (List.mem_cons_of_mem w hv)).not_mem hc hmem

end Word

theorem closeLine_reverse {line : List Char} (h : '\r' ∉ line) :
    Text.closeLine line.reverse = line := by
  unfold Text.closeLine
  split
  · rename_i rest heq
    have hmem : '\r' ∈ line.reverse := by
      rw [heq]
      exact List.mem_cons_self
    exact absurd (List.mem_reverse.mp hmem) h
  · exact List.reverse_reverse line

theorem Statement.lines_frame (d : Dialect) : Text.lines (frame.text d).toList = [['%']] := by
  have htext : (frame.text d).toList = ['%', '\n'] := by simp [text]
  rw [htext]
  rfl

/-- **Words stand on one line.** -/
theorem Statement.lines_words (d : Dialect) {ws : List Word} (h : ∀ w ∈ ws, w.Proper) :
    Text.lines ((words ws).text d).toList = [Word.row ws] := by
  have hline : ((words ws).text d).toList = Word.row ws ++ ['\n'] := by
    rw [text, String.toList_ofList]
    rfl
  rw [hline, Text.lines_line (Word.not_mem_row h (by decide)),
    closeLine_reverse (Word.not_mem_row h (by decide))]

namespace ProgramLine

variable {R : Type}

theorem outside_eq_self {l : List Char} (hsemicolon : ';' ∉ l) (hparenthesis : '(' ∉ l) :
    outside false l = l := by
  induction l with
  | nil => rfl
  | cons c l ih =>
    have hc : c ≠ ';' := fun h => hsemicolon (h ▸ List.mem_cons_self)
    have hc' : c ≠ '(' := fun h => hparenthesis (h ▸ List.mem_cons_self)
    rw [outside, if_neg hc, if_neg hc', ih (fun h => hsemicolon (List.mem_cons_of_mem c h))
      fun h => hparenthesis (List.mem_cons_of_mem c h)]

/-- A line of words has nothing inside of a remark. -/
theorem outside_row {ws : List Word} (h : ∀ w ∈ ws, w.Proper) :
    outside false (Word.row ws) = Word.row ws :=
  outside_eq_self (Word.not_mem_row h (by decide)) (Word.not_mem_row h (by decide))

end ProgramLine

/-! ### Reading words -/

/-- What a word says, if its number can be read. -/
def Word.address? {R : Type} [Numeral R] (w : Word) : Option (Address R) :=
  (Numeral.read? w.number.toList).map fun x => ⟨w.letter, x⟩

namespace ProgramLine

variable {R : Type} [Numeral R]

theorem isNumberChar_of_char {c : Char} (h : c.isDigit = true ∨ c = '.' ∨ c = '-') :
    isNumberChar c = true := by
  rcases h with h | rfl | rfl
  · simp [isNumberChar, h]
  · rfl
  · rfl

theorem toUpper_of_isUpper {c : Char} (h : c.isUpper = true) : c.toUpper = c := by
  have hupper : c.val ≥ 'A'.val ∧ c.val ≤ 'Z'.val := of_decide_eq_true h
  have hlower : ¬ (c.val ≥ 'a'.val ∧ c.val ≤ 'z'.val) := fun hlower =>
    absurd (UInt32.le_trans hlower.1 hupper.2) (by decide)
  exact dif_neg hlower

/-- **A word is read**, and reading goes on behind its number. -/
theorem wordsWithin_chars {w : Word} {rest : List Char} {x : R} (fuel : Nat)
    (hletter : w.letter.isUpper = true) (hnumber : Decimal.WrittenOut w.number.toList)
    (hread : Numeral.read? w.number.toList = some x)
    (hrest : ∀ c ∈ rest.head?, isNumberChar c = false) :
    wordsWithin (fuel + 1) (w.chars ++ rest) = ⟨w.letter, x⟩ :: wordsWithin fuel rest := by
  have hchars : ∀ c ∈ w.number.toList, isNumberChar c = true :=
    fun c hc => isNumberChar_of_char (hnumber.char hc)
  obtain ⟨htake, hdrop⟩ := Decimal.takeWhile_append_of_head hchars hrest
  have hbody : (w.number.toList ++ rest).dropWhile (· == ' ') = w.number.toList ++ rest := by
    obtain ⟨c, cs, hcs⟩ := List.exists_cons_of_ne_nil hnumber.ne_nil
    have hc : isNumberChar c = true := hchars c (by rw [hcs]; exact List.mem_cons_self)
    have hspace : (c == ' ') = false := by
      refine beq_false_of_ne fun heq => ?_
      rw [heq] at hc
      exact absurd hc (by decide)
    rw [hcs, List.cons_append, List.dropWhile_cons, hspace]
    rfl
  have halpha : w.letter.isAlpha = true := Bool.or_eq_true_iff.mpr (Or.inl hletter)
  rw [Word.chars, List.cons_append, wordsWithin, if_pos halpha]
  simp only [hbody, htake, hdrop, hread, toUpper_of_isUpper hletter]

/-- A space is passed over. -/
theorem wordsWithin_space (fuel : Nat) (rest : List Char) :
    (wordsWithin (fuel + 1) (' ' :: rest) : List (Address R)) = wordsWithin fuel rest := rfl

theorem wordsWithin_nil (fuel : Nat) : (wordsWithin fuel [] : List (Address R)) = [] := by
  cases fuel <;> rfl

theorem head?_flatMap_chars (ws : List Word) :
    ∀ c ∈ (ws.flatMap fun v => ' ' :: v.chars).head?, isNumberChar c = false := by
  intro c hc
  rw [Word.eq_space_of_head? ws c hc]
  rfl

end ProgramLine

/-! ### Lines of markers -/

namespace Marker

/-- The names under which markers are written. -/
def names : List String := [originName, toolDiameterName]

/-- The numbers of a marker, each behind a colon. -/
def numbers (values : List String) : List Char := values.flatMap fun v => ':' :: v.toList

theorem toList_markerText (name : String) (values : List String) :
    (Statement.markerText name values).toList = markOf ++ (name.toList ++ numbers values) := by
  have hcolons (first : List Char) : [':'].intercalate (first :: values.map String.toList) =
      first ++ numbers values := by
    induction values generalizing first with
    | nil => simp [numbers]
    | cons v values ih =>
      have hstep : [':'].intercalate (first :: (v :: values).map String.toList) =
          first ++ ':' :: [':'].intercalate (v.toList :: values.map String.toList) := by
        simp [List.intercalate]
      rw [hstep, ih]
      rfl
  have hmark : [':'].intercalate ("GCAM".toList :: name.toList :: values.map String.toList) =
      markOf ++ [':'].intercalate (name.toList :: values.map String.toList) := by
    simp [List.intercalate, markOf]
  rw [Statement.markerText, String.toList_intercalate]
  exact hmark.trans (congrArg (markOf ++ ·) (hcolons name.toList))

theorem not_mem_numbers {values : List String} (h : ∀ v ∈ values, Decimal.Printed v) {c : Char}
    (hc : Decimal.isForeign c = true) (hcolon : c ≠ ':') : c ∉ numbers values := by
  rw [numbers, List.mem_flatMap]
  rintro ⟨v, hv, hmem⟩
  rcases List.mem_cons.mp hmem with heq | hmem
  · exact hcolon heq
  · exact (h v hv).not_mem hc hmem

/-- A character that no marker has. -/
theorem not_mem_markerText {name : String} {values : List String} (hname : name ∈ names)
    (h : ∀ v ∈ values, Decimal.Printed v) {c : Char} (hc : Decimal.isForeign c = true)
    (hupper : c.isUpper = false) (hcolon : c ≠ ':') (hunderscore : c ≠ '_') :
    c ∉ (Statement.markerText name values).toList := by
  have hmark : ∀ c ∈ markOf, c.isUpper = true ∨ c = ':' := by simp [markOf]
  have hchars : ∀ name ∈ names, ∀ c ∈ name.toList, c.isUpper = true ∨ c = '_' := by
    simp [names, originName, toolDiameterName]
  rw [toList_markerText, List.mem_append, List.mem_append]
  rintro (hmem | hmem | hmem)
  · rcases hmark c hmem with h | h
    · rw [hupper] at h
      cases h
    · exact hcolon h
  · rcases hchars name hname c hmem with h | h
    · rw [hupper] at h
      cases h
    · exact hunderscore h
  · exact not_mem_numbers h hc hcolon hmem

end Marker

namespace RemarkStyle

/-- What stands before the text of a remark. -/
def opening : RemarkStyle → List Char
  | parentheses => ['(']
  | semicolon => [';', ' ']

/-- What stands behind the text of a remark. -/
def closing : RemarkStyle → List Char
  | parentheses => [')']
  | semicolon => []

theorem line_eq (style : RemarkStyle) {text : List Char} (hopen : '(' ∉ text)
    (hclose : ')' ∉ text) : style.line text = style.opening ++ (text ++ style.closing) := by
  cases style with
  | semicolon => simp [line, opening, closing]
  | parentheses =>
    have hsame : ∀ c ∈ text, unparenthesized c = id c := by
      intro c hc
      have hleft : c ≠ '(' := fun h => hopen (h ▸ hc)
      have hright : c ≠ ')' := fun h => hclose (h ▸ hc)
      rw [unparenthesized, if_neg hleft, if_neg hright, id]
    rw [line, List.map_congr_left hsame, List.map_id]
    rfl

end RemarkStyle

namespace Statement

variable {name : String} {values : List String}

/-- The line of a marker: its text between what opens and what closes a remark. -/
theorem line_markerText (style : RemarkStyle) (hname : name ∈ Marker.names)
    (h : ∀ v ∈ values, Decimal.Printed v) :
    style.line (markerText name values).toList =
      style.opening ++ (markOf ++ (name.toList ++ Marker.numbers values) ++ style.closing) := by
  rw [style.line_eq
    (Marker.not_mem_markerText hname h (by decide) (by decide) (by decide) (by decide))
    (Marker.not_mem_markerText hname h (by decide) (by decide) (by decide) (by decide)),
    Marker.toList_markerText]

/-- **A marker stands on one line.** -/
theorem lines_marker (d : Dialect) (hname : name ∈ Marker.names)
    (h : ∀ v ∈ values, Decimal.Printed v) :
    Text.lines ((marker name values).text d).toList =
      [d.remarks.line (markerText name values).toList] := by
  have hfeed : '\n' ∉ (markerText name values).toList :=
    Marker.not_mem_markerText hname h (by decide) (by decide) (by decide) (by decide)
  have hreturn : '\r' ∉ (markerText name values).toList :=
    Marker.not_mem_markerText hname h (by decide) (by decide) (by decide) (by decide)
  have hline : '\r' ∉ d.remarks.line (markerText name values).toList := by
    rw [line_markerText d.remarks hname h, ← Marker.toList_markerText]
    cases d.remarks <;> simpa [RemarkStyle.opening, RemarkStyle.closing] using hreturn
  have hne : (markerText name values).toList ≠ [] := by
    rw [Marker.toList_markerText]
    exact List.cons_ne_nil _ _
  rw [text, lines_remark, Text.lines_of_not_mem hfeed hne, List.map_singleton,
    closeLine_reverse hline]

end Statement

namespace ProgramLine

open Marker

variable {R : Type} [Numeral R]

theorem isMarkerChar_of_writtenOut {v : String} (hv : Decimal.WrittenOut v.toList) :
    ∀ c ∈ v.toList, isMarkerChar c = true := by
  intro c hc
  rw [isMarkerChar, isNumberChar_of_char (hv.char hc)]
  rfl

/-- Behind a colon the next number is read. -/
theorem numbersWithin_colon {v : String} {x : R} (fuel : Nat) (more : List Char)
    (hv : Decimal.WrittenOut v.toList) (hx : Numeral.read? v.toList = some x) :
    numbersWithin (fuel + 1) (v.toList ++ ':' :: more) = x :: numbersWithin fuel more := by
  have hhead : ∀ c ∈ (':' :: more).head?, isMarkerChar c = false := by
    rintro c ⟨⟩
    rfl
  obtain ⟨htake, hdrop⟩ := Decimal.takeWhile_append_of_head (isMarkerChar_of_writtenOut hv) hhead
  rw [numbersWithin, htake, hx, hdrop]
  rfl

/-- Where a remark ends no further number is read. -/
theorem numbersWithin_stop {v : String} {x : R} {stop : List Char} (fuel : Nat)
    (hv : Decimal.WrittenOut v.toList) (hx : Numeral.read? v.toList = some x)
    (hstop : stop = [] ∨ stop = [')']) : numbersWithin (fuel + 1) (v.toList ++ stop) = [x] := by
  have hhead : ∀ c ∈ stop.head?, isMarkerChar c = false := by
    rcases hstop with rfl | rfl
    · simp
    · rintro c ⟨⟩
      rfl
  obtain ⟨htake, hdrop⟩ := Decimal.takeWhile_append_of_head (isMarkerChar_of_writtenOut hv) hhead
  rw [numbersWithin, htake, hx, hdrop]
  rcases hstop with rfl | rfl <;> rfl

/-- The numbers of a marker are read one by one. -/
theorem numbersWithin_numbers {v : String} {values : List String} {x : R} {xs : List R}
    {stop : List Char} {fuel : Nat} (hvalues : ∀ u ∈ v :: values, Decimal.WrittenOut u.toList)
    (hx : Numeral.read? v.toList = some x)
    (hxs : (values.map fun u => Numeral.read? u.toList) = xs.map some)
    (hstop : stop = [] ∨ stop = [')']) (hfuel : (numbers values).length < fuel) :
    numbersWithin fuel (v.toList ++ (numbers values ++ stop)) = x :: xs := by
  induction values generalizing v x xs fuel with
  | nil =>
    obtain rfl := List.map_eq_nil_iff.mp hxs.symm
    obtain ⟨n, rfl⟩ : ∃ n, fuel = n + 1 := ⟨fuel - 1, by omega⟩
    exact numbersWithin_stop n (hvalues v List.mem_cons_self) hx hstop
  | cons u values ih =>
    cases xs with
    | nil => cases hxs
    | cons y ys =>
      obtain ⟨hy, hys⟩ := List.cons.inj hxs
      have hcons : numbers (u :: values) = ':' :: (u.toList ++ numbers values) := by
        simp [numbers]
      rw [hcons, List.length_cons, List.length_append] at hfuel
      obtain ⟨n, rfl⟩ : ∃ n, fuel = n + 1 := ⟨fuel - 1, by omega⟩
      rw [hcons, List.cons_append, List.append_assoc,
        numbersWithin_colon n _ (hvalues v List.mem_cons_self) hx,
        ih (fun t ht => hvalues t (List.mem_cons_of_mem v ht)) hy hys (by omega)]

/-- A marker stands where its name and its numbers do. -/
theorem markerAt?_numbers {name v : String} {values : List String} {x : R} {xs : List R}
    {stop : List Char} (hname : name ∈ names)
    (hvalues : ∀ u ∈ v :: values, Decimal.WrittenOut u.toList)
    (hx : Numeral.read? v.toList = some x)
    (hxs : (values.map fun u => Numeral.read? u.toList) = xs.map some)
    (hstop : stop = [] ∨ stop = [')']) :
    markerAt? (name.toList ++ (numbers (v :: values) ++ stop)) =
      Marker.ofNumbers? name (x :: xs) := by
  have hcolon : ∀ name ∈ names, ∀ c ∈ name.toList, (c != ':') = true := by
    simp [names, originName, toolDiameterName]
  have hcons : numbers (v :: values) ++ stop = ':' :: (v.toList ++ (numbers values ++ stop)) := by
    simp [numbers]
  have hhead : ∀ c ∈ (':' :: (v.toList ++ (numbers values ++ stop))).head?, (c != ':') = false := by
    rintro c ⟨⟩
    rfl
  obtain ⟨htake, hdrop⟩ := Decimal.takeWhile_append_of_head (hcolon name hname) hhead
  rw [hcons]
  have hfuel : (numbers values).length <
      (name.toList ++ ':' :: (v.toList ++ (numbers values ++ stop))).length := by
    simp only [List.length_append, List.length_cons]
    omega
  rw [markerAt?, hdrop, htake, String.ofList_toList]
  exact congrArg (Marker.ofNumbers? name) (numbersWithin_numbers hvalues hx hxs hstop hfuel)

/-- Behind its first letter a marker has no further mark. -/
theorem unmarked_rest {name : String} {values : List String} {stop : List Char}
    (hname : name ∈ names) (hvalues : ∀ u ∈ values, Decimal.Printed u)
    (hstop : stop = [] ∨ stop = [')']) :
    Unmarked ("CAM:".toList ++ (name.toList ++ (numbers values ++ stop))) := by
  have hends : ∀ name ∈ names, ∃ c ∈ name.toList.getLast?, c ∉ markOf ∧
      Unmarked ("CAM:".toList ++ name.toList.dropLast) :=
    List.forall_mem_cons.mpr ⟨⟨'N', rfl, by decide, by decide⟩,
      List.forall_mem_singleton.mpr ⟨'R', rfl, by decide, by decide⟩⟩
  obtain ⟨c, hc, hmark, hfront⟩ := hends name hname
  obtain ⟨front, hsplit⟩ := List.getLast?_eq_some_iff.mp hc
  have hbehind : 'G' ∉ numbers values ++ stop := by
    refine List.not_mem_append (not_mem_numbers hvalues (by decide) (by decide)) ?_
    rcases hstop with rfl | rfl <;> decide
  rw [hsplit, List.dropLast_concat] at hfront
  rw [hsplit, List.append_assoc, ← List.append_assoc]
  exact hfront.separated (.of_not_mem hbehind) hmark

theorem after?_append (pattern rest : List Char) :
    after? pattern (pattern ++ rest) = some rest := by
  induction pattern with
  | nil => rfl
  | cons c pattern ih => rw [List.cons_append, after?, if_pos rfl, ih]

/-- A character that no mark starts with is passed over. -/
theorem markersOf_cons {c : Char} (hc : c ≠ 'G') (l : List Char) :
    (markersOf (c :: l) : List (Marker R)) = markersOf l := by
  have hnone : after? "GCAM:".toList (c :: l) = none := if_neg (Ne.symm hc)
  rw [markersOf, hnone]
  rfl

/-- At a mark a marker is read, if there is one. -/
theorem markersOf_mark {text : List Char} {m : Marker R} (hm : markerAt? text = some m)
    (hrest : Unmarked ("CAM:".toList ++ text)) : markersOf (markOf ++ text) = [m] := by
  have hfound : (after? "GCAM:".toList ('G' :: ("CAM:".toList ++ text))).bind markerAt? =
      some m :=
    (congrArg (Option.bind · markerAt?) (after?_append markOf text)).trans hm
  show markersOf ('G' :: ("CAM:".toList ++ text)) = [m]
  rw [markersOf, hfound]
  exact congrArg (m :: ·) (markersOf_unmarked hrest)

/-- **A marker is read**, and nothing else from its line. -/
theorem read_marker (style : RemarkStyle) {name v : String} {values : List String} {x : R}
    {xs : List R} {m : Marker R} (hname : name ∈ names)
    (hvalues : ∀ u ∈ v :: values, Decimal.WrittenOut u.toList)
    (hx : Numeral.read? v.toList = some x)
    (hxs : (values.map fun u => Numeral.read? u.toList) = xs.map some)
    (hm : Marker.ofNumbers? name (x :: xs) = some m) :
    read (style.line (Statement.markerText name (v :: values)).toList) = ⟨[], [m]⟩ := by
  have hprinted : ∀ u ∈ v :: values, Decimal.Printed u := fun u hu => .inl (hvalues u hu)
  have hstop : style.closing = [] ∨ style.closing = [')'] := by
    cases style <;> simp [RemarkStyle.closing]
  have hwords := words_remark (R := R) style
    (List.prefix_refl (style.line (Statement.markerText name (v :: values)).toList))
  have hmark := markersOf_mark ((markerAt?_numbers hname hvalues hx hxs hstop).trans hm)
    (unmarked_rest hname hprinted hstop)
  have hmarkers : markersOf (style.line (Statement.markerText name (v :: values)).toList) =
      [m] := by
    rw [Statement.line_markerText style hname hprinted, List.append_assoc, List.append_assoc,
      ← hmark]
    cases style with
    | parentheses => exact markersOf_cons (by decide) _
    | semicolon => exact (markersOf_cons (by decide) _).trans (markersOf_cons (by decide) _)
  exact congrArg₂ ProgramLine.mk hwords hmarkers

end ProgramLine

end Toolpath
