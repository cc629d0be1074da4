import Toolpath.Proofs.Synthesis.Programs

/-!
# How the lines of programs end

Ending lines with carriage returns is told by the line feeds of a text: each of them ends a line,
and a line that does not end with a carriage return gets one. What stands behind the last line feed
is no ended line and stays as it is.

Only the character before a line feed decides, so a text may be cut wherever a line ends, and its
parts be ended one by one. Every statement is written as whole lines, also where the text it takes
over breaks off, so the fragments of a program are such parts.

## Main definitions

* `Text.ofLines` — a text by the lines that line feeds end
* `LineEnding.returned` — a line that ends with a carriage return
* `LineEnding.Returns` — what ending lines with carriage returns does to a text
* `Document.EndsLines` — the lines of a program are ended, and may be ended fragment by fragment

## Main results

* `LineEnding.apply_ofLines` — lines are ended with carriage returns one by one
* `LineEnding.returns_apply` — nothing else happens to a text
* `Document.endsLines_generate` — the lines of every program are ended
-/

namespace Toolpath

namespace Text

/-- The text of lines that are each ended by a line feed, with `rest` behind the last of them. -/
def ofLines (ended : List (List Char)) (rest : List Char) : List Char :=
  (ended.flatMap fun line => line ++ ['\n']) ++ rest

theorem ofLines_cons (line : List Char) (ended : List (List Char)) (rest : List Char) :
    ofLines (line :: ended) rest = line ++ '\n' :: ofLines ended rest := by
  simp [ofLines]

/-- Every text is one of lines, as its line feeds say. -/
theorem exists_ofLines (text : List Char) : ∃ ended rest, text = ofLines ended rest ∧
    (∀ line ∈ ended, '\n' ∉ line) ∧ '\n' ∉ rest := by
  induction text with
  | nil => exact ⟨[], [], rfl, List.forall_mem_nil _, List.not_mem_nil⟩
  | cons c text ih =>
    obtain ⟨ended, rest, rfl, hended, hrest⟩ := ih
    by_cases hc : c = '\n'
    · subst hc
      refine ⟨[] :: ended, rest, (ofLines_cons [] ended rest).symm, ?_, hrest⟩
      exact List.forall_mem_cons.mpr ⟨List.not_mem_nil, hended⟩
    have hcons {line : List Char} (h : '\n' ∉ line) : '\n' ∉ c :: line := by
      rw [List.mem_cons, not_or]
      exact ⟨Ne.symm hc, h⟩
    cases ended with
    | nil => exact ⟨[], c :: rest, rfl, List.forall_mem_nil _, hcons hrest⟩
    | cons line ended =>
      obtain ⟨hline, hended⟩ := List.forall_mem_cons.mp hended
      refine ⟨(c :: line) :: ended, rest, ?_, List.forall_mem_cons.mpr ⟨hcons hline, hended⟩, hrest⟩
      rw [ofLines_cons, ofLines_cons, List.cons_append]

/-- Before a line feed of a text stands the line that it ends. -/
theorem exists_of_ofLines_eq {ended : List (List Char)} {rest front back : List Char}
    (hended : ∀ line ∈ ended, '\n' ∉ line) (hrest : '\n' ∉ rest)
    (h : ofLines ended rest = front ++ '\n' :: back) : ∃ line ∈ ended, line <:+ front := by
  induction ended generalizing front with
  | nil =>
    have hmem : '\n' ∈ ofLines [] rest := by
      rw [h]
      exact List.mem_append_right front List.mem_cons_self
    exact absurd hmem hrest
  | cons line ended ih =>
    obtain ⟨hline, hended⟩ := List.forall_mem_cons.mp hended
    rw [ofLines_cons] at h
    rcases exists_of_append_eq_append_cons h with ⟨later, rfl⟩ | ⟨between, rfl, hbetween⟩
    · exact absurd (by simp) hline
    · cases between with
      | nil => exact ⟨line, List.mem_cons_self, by simp⟩
      | cons c between =>
        obtain ⟨rfl, hbehind⟩ := List.cons.inj hbetween
        obtain ⟨other, hother, hsuffix⟩ := ih hended hbehind
        exact ⟨other, List.mem_cons_of_mem line hother, hsuffix.trans ⟨line ++ ['\n'], by simp⟩⟩

end Text

namespace LineEnding

open Text

/-! ### Lines with carriage returns -/

/-- A line that ends with a carriage return: one is put behind it unless it is there. -/
def returned (line : List Char) : List Char :=
  if line.getLast? = some '\r' then line else line ++ ['\r']

theorem getLast?_returned (line : List Char) : (returned line).getLast? = some '\r' := by
  rw [returned]
  split
  · assumption
  · exact List.getLast?_concat

theorem returned_returned (line : List Char) : returned (returned line) = returned line :=
  if_pos (getLast?_returned line)

theorem not_mem_returned {line : List Char} (h : '\n' ∉ line) : '\n' ∉ returned line := by
  rw [returned]
  split
  · exact h
  · simpa using h

/-- Without line feeds nothing is put in. -/
theorem returns_of_not_mem {line : List Char} (h : '\n' ∉ line) (before : Char)
    (rest : List Char) :
    returns before (line ++ rest) = line ++ returns (line.getLast?.getD before) rest := by
  induction line generalizing before with
  | nil => rfl
  | cons c line ih =>
    obtain ⟨hc, hline⟩ := not_or.mp (mt List.mem_cons.mpr h)
    have hlast : (c :: line).getLast?.getD before = line.getLast?.getD c := by
      cases line <;> simp [List.getLast?_cons]
    rw [List.cons_append, returns_cons, expand, if_neg fun hend => hc hend.1.symm, ih hline, hlast]
    rfl

/-- A line that is ended. -/
theorem returns_line {line : List Char} (h : '\n' ∉ line) {before : Char} (hbefore : before ≠ '\r')
    (rest : List Char) :
    returns before (line ++ '\n' :: rest) = returned line ++ '\n' :: returns '\n' rest := by
  have hlast : line.getLast?.getD before = '\r' ↔ line.getLast? = some '\r' := by
    cases line.getLast? <;> simp [hbefore]
  rw [returns_of_not_mem h, returns_cons, expand, returned]
  by_cases hreturn : line.getLast? = some '\r'
  · rw [if_pos hreturn, if_neg fun hend => hend.2 (hlast.mpr hreturn)]
    rfl
  · rw [if_neg hreturn, if_pos ⟨rfl, mt hlast.mp hreturn⟩, List.append_assoc]
    rfl

/-- **Lines are ended with carriage returns one by one.** -/
theorem returns_ofLines {ended : List (List Char)} {rest : List Char}
    (hended : ∀ line ∈ ended, '\n' ∉ line) (hrest : '\n' ∉ rest) {before : Char}
    (hbefore : before ≠ '\r') :
    returns before (ofLines ended rest) = ofLines (ended.map returned) rest := by
  induction ended generalizing before with
  | nil => simpa [ofLines, returns] using returns_of_not_mem hrest before []
  | cons line ended ih =>
    obtain ⟨hline, hended⟩ := List.forall_mem_cons.mp hended
    rw [ofLines_cons, returns_line hline hbefore, ih hended (by decide), List.map_cons,
      ofLines_cons]

/-- What ending its lines with carriage returns makes of a text. -/
structure Returns (text result : String) : Prop where
  /-- The lines that line feeds end get a carriage return where they lack one, and nothing else is
  changed. -/
  inserted : ∃ ended rest, (∀ line ∈ ended, '\n' ∉ line) ∧ '\n' ∉ rest ∧
    text.toList = ofLines ended rest ∧ result.toList = ofLines (ended.map returned) rest
  /-- Every line feed stands behind a carriage return. -/
  preceded : ∀ front rest, result.toList = front ++ '\n' :: rest → front.getLast? = some '\r'
  /-- The lines are the same. -/
  lines : Text.lines result.toList = Text.lines text.toList
  /-- Doing it once more changes nothing. -/
  fixed : crlf.apply result = result

/-- **Ending lines with carriage returns** does nothing else to a text. -/
theorem returns_apply (text : String) : Returns text (crlf.apply text) := by
  obtain ⟨ended, rest, htext, hended, hrest⟩ := exists_ofLines text.toList
  have hmap : ∀ line ∈ ended.map returned, '\n' ∉ line :=
    List.forall_mem_map.mpr fun line hline => not_mem_returned (hended line hline)
  have hresult : (crlf.apply text).toList = ofLines (ended.map returned) rest := by
    rw [apply, String.toList_ofList, htext]
    exact returns_ofLines hended hrest (by decide)
  exact
    { inserted := ⟨ended, rest, hended, hrest, htext, hresult⟩
      preceded := by
        intro front back hsplit
        obtain ⟨line, hline, hsuffix⟩ :=
          exists_of_ofLines_eq hmap hrest (hresult.symm.trans hsplit)
        obtain ⟨plain, -, rfl⟩ := List.mem_map.mp hline
        obtain ⟨head, rfl⟩ := hsuffix
        rw [List.getLast?_append, getLast?_returned]
        rfl
      lines := crlf.lines_apply text
      fixed := by
        refine String.toList_inj.mp ?_
        rw [apply, String.toList_ofList, hresult]
        refine (returns_ofLines hmap hrest (by decide)).trans ?_
        rw [List.map_map]
        exact congrArg (ofLines · rest) (List.map_congr_left fun line _ => returned_returned line) }

-- A carriage return is not doubled, and the one that nothing follows ends no line.
example : crlf.apply "M08\nG04 P1\r\n\n\r" = "M08\r\nG04 P1\r\n\r\n\r" := by decide +kernel

end LineEnding

namespace Document

variable {R S : Type} [Analytic R] [Storage R S] [Numeral R]

/-- The lines of the program of a document are ended, and it is the same to end them in its
fragments or in the whole. -/
structure EndsLines (d : Document R S) (decimals : Option Nat) : Prop where
  /-- The text that is left on a block of the top level ends with a line feed, if it is not empty;
  with carriage returns the lines of this text are ended with them. -/
  fragments : ∀ id ∈ d.tree.members d.root, ∃ text : String, Text.Whole text.toList ∧
    ((d.generate .lf decimals).2.get? id).map (·.code) = some text ∧
    ((d.generate .crlf decimals).2.get? id).map (·.code) = some (LineEnding.crlf.apply text)
  /-- The program ends with a line feed, if it is not empty. -/
  program : Text.Whole (d.generate .lf decimals).1.toList
  /-- With carriage returns, the lines of this program are ended with them. -/
  rewritten : (d.generate .crlf decimals).1 = LineEnding.crlf.apply (d.generate .lf decimals).1

/-- **The lines of every program are ended**, its fragments are texts of whole lines, and so its
lines may be ended fragment by fragment, each as in any text. -/
theorem endsLines_generate (d : Document R S) (decimals : Option Nat) :
    d.EndsLines decimals ∧
      ∀ text : String, LineEnding.Returns text (LineEnding.crlf.apply text) := by
  have hcode (ending : LineEnding) {id : NodeId} (hid : id ∈ d.tree.members d.root) :
      ((d.generate ending decimals).2.get? id).map (·.code) =
        some (ending.apply (d.written (d.format decimals) id)) := by
    rw [generate_snd]
    exact code_synthesized hid
  refine ⟨⟨fun id hid => ?_, ?_, ?_⟩, LineEnding.returns_apply⟩
  · exact ⟨d.written (d.format decimals) id, Statement.whole_program _ _, hcode .lf hid,
      hcode .crlf hid⟩
  · rw [generate_eq]
    exact Statement.whole_program _ _
  · rw [generate_eq, generate_eq]
    rfl

end Document

end Toolpath
