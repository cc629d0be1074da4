import Toolpath.Proofs.Synthesis.Clearance

/-!
# Programs traverse at the clearance height

What holds of the commands of blocks is read off the text of a program. A line traverses rapidly if
it begins with `G00 X`, it changes the tool if it begins with a `T` and ends with `M06`, and it
moves the tool in Z if it has a `Z` outside of remarks. In a program without text that is taken
over, every line of the first two kinds finds the tool raised: the last line before it that has a
`Z` is the rapid move up to the clearance height.

## Main definitions

* `ProgramLine.isTraverse`, `ProgramLine.isToolChange`, `ProgramLine.commandsZ` — lines by their
  text
* `Document.liftLine` — the line that raises the tool
* `Document.TraversesRaised` — the program of a document traverses at the clearance height only

## Main results

* `Document.traverses_raised` — every program does, and its patterns begin and end raised
-/

namespace Toolpath

namespace ProgramLine

/-- A rapid traverse in the plane, `G00 X.. Y..`. -/
def isTraverse (line : List Char) : Bool := ['G', '0', '0', ' ', 'X'].isPrefixOf line

/-- A tool change, `T.. M06`. -/
def isToolChange (line : List Char) : Bool :=
  line.head? == some 'T' && [' ', 'M', '0', '6'].isSuffixOf line

/-- Whether a line moves the tool in Z. -/
def commandsZ (line : List Char) : Bool := (outside false line).contains 'Z'

/-- Whether a line moves the tool. -/
def commandsAxis (line : List Char) : Bool :=
  (outside false line).any fun c => ['X', 'Y', 'Z'].contains c

/-- Whether a line asks for a raised tool. -/
def asks (line : List Char) : Bool := isTraverse line || isToolChange line

/-! ### Lines that find the tool raised -/

/-- Whether the tool is raised after a line, if it was `raised` before: `lift` is the line that
raises it. -/
def RaisedBy (lift line : List Char) (raised : Prop) : Prop :=
  if commandsZ line then line = lift else raised

/-- Every line that asks for a raised tool finds it so, if it is `raised` in the beginning. -/
abbrev ClearLines (lift : List Char) (raised : Prop) (lines : List (List Char)) : Prop :=
  Granted asks (RaisedBy lift) raised lines

theorem forgiving_raisedBy (lift : List Char) : Forgiving (RaisedBy lift) := by
  intro line raised raised' h hline
  rw [RaisedBy] at hline ⊢
  split at hline
  · rwa [if_pos ‹_›]
  · rw [if_neg ‹_›]
    exact h hline

/-- **In lines that are clear** the last move in Z before a line that asks for it is the lift. -/
theorem last_of_asks {lift line : List Char} {before after : List (List Char)}
    {raised : Prop} {last : Option (List Char)}
    (h : ClearLines lift raised (before ++ line :: after)) (hlast : raised → last = some lift)
    (hasks : asks line = true) : (before.reverse.find? commandsZ).or last = some lift := by
  induction before generalizing raised last with
  | nil => exact hlast (h.1 hasks)
  | cons l before ih =>
    have hnext : RaisedBy lift l raised → (if commandsZ l then some l else last) = some lift := by
      rw [RaisedBy]
      split
      · exact congrArg some
      · exact hlast
    have hfound := ih h.2 hnext
    rw [List.reverse_cons, List.find?_append, Option.or_assoc]
    cases hz : commandsZ l with
    | true => simpa [hz] using hfound
    | false => simpa [hz] using hfound

/-- A line that neither asks for a raised tool nor moves it in Z. -/
structure Harmless (line : List Char) : Prop where
  /-- It asks for nothing. -/
  asks : asks line = false
  /-- It does not move the tool in Z. -/
  level : commandsZ line = false

theorem clearLines_append {lift : List Char} {raised : Prop} {ls rest : List (List Char)}
    (hls : ∀ l ∈ ls, Harmless l) (hrest : ClearLines lift raised rest) :
    ClearLines lift raised (ls ++ rest) := by
  induction ls with
  | nil => exact hrest
  | cons l ls ih =>
    obtain ⟨hl, hls⟩ := List.forall_mem_cons.mp hls
    refine ⟨fun ha => absurd ha (Bool.eq_false_iff.mp hl.asks), ?_⟩
    rw [RaisedBy, if_neg (Bool.eq_false_iff.mp hl.level)]
    exact ih hls

/-! ### Lines of remarks and of words -/

/-- A remark is harmless, whatever it says. -/
theorem harmless_remark (style : RemarkStyle) {text l : List Char} (hl : l <+: style.line text) :
    Harmless l := by
  have hhead : ∀ c ∈ l.head?, c = '(' ∨ c = ';' := by
    cases style with
    | semicolon =>
      rcases List.prefix_cons_iff.mp hl with rfl | ⟨rest, rfl, -⟩
      · exact nofun
      · exact fun c hc => .inr (Option.some.inj hc).symm
    | parentheses =>
      rcases List.prefix_cons_iff.mp hl with rfl | ⟨rest, rfl, -⟩
      · exact nofun
      · exact fun c hc => .inl (Option.some.inj hc).symm
  refine ⟨?_, by rw [commandsZ, outside_remark style hl]; rfl⟩
  cases l with
  | nil => rfl
  | cons c rest => rcases hhead c rfl with rfl | rfl <;> rfl

/-- A letter that is in no number is in a line of words if it is that of a word. -/
theorem mem_row_iff {ws : List Word} (hws : ∀ w ∈ ws, w.Proper) {c : Char}
    (hc : Decimal.isForeign c = true) (hspace : c ≠ ' ') :
    c ∈ Word.row ws ↔ ∃ w ∈ ws, w.letter = c := by
  have hchars : ∀ w ∈ ws, (c ∈ w.chars ↔ w.letter = c) := by
    intro w hw
    rw [Word.chars, List.mem_cons, or_iff_left ((hws w hw).number.not_mem hc)]
    exact eq_comm
  cases ws with
  | nil => simp [Word.row]
  | cons w ws =>
    obtain ⟨hw, hrest⟩ := List.forall_mem_cons.mp hchars
    rw [Word.row_cons, List.mem_append, hw, List.mem_flatMap, List.exists_mem_cons_iff]
    refine or_congr_right (exists_congr fun v => and_congr_right fun hv => ?_)
    rw [List.mem_cons, or_iff_right hspace, hrest v hv]

theorem commandsZ_row {ws : List Word} (hws : ∀ w ∈ ws, w.Proper) :
    commandsZ (Word.row ws) = true ↔ ∃ w ∈ ws, w.letter = 'Z' := by
  rw [commandsZ, outside_row hws, List.contains_iff_mem]
  exact mem_row_iff hws (by decide) (by decide)

/-- What is before the first space on a line of words, and what is behind. -/
theorem span_row {w : Word} (ws : List Word) (hw : w.Proper) :
    (Word.row (w :: ws)).takeWhile (· != ' ') = w.chars ∧
      (Word.row (w :: ws)).dropWhile (· != ' ') = ws.flatMap fun v => ' ' :: v.chars := by
  have hchars : ∀ c ∈ w.chars, (c != ' ') = true := by
    intro c hc
    rw [bne_iff_ne]
    rintro rfl
    rcases List.mem_cons.mp hc with hletter | hnumber
    · have hupper := hw.letter
      rw [← hletter] at hupper
      exact absurd hupper (by decide)
    · exact hw.number.not_mem (by decide) hnumber
  have hhead : ∀ c ∈ (ws.flatMap fun v => ' ' :: v.chars).head?, (c != ' ') = false := by
    intro c hc
    rw [Word.eq_space_of_head? ws c hc]
    rfl
  rw [Word.row_cons]
  exact Decimal.takeWhile_append_of_head hchars hhead

/-- A line of words that traverses begins with `G00` and a word in X. -/
theorem words_of_isTraverse {ws : List Word} (hws : ∀ w ∈ ws, w.Proper)
    (h : isTraverse (Word.row ws) = true) :
    ws.head?.map Word.chars = some ['G', '0', '0'] ∧ ws.tail.head?.map Word.letter = some 'X' := by
  obtain ⟨tail, htail⟩ := List.isPrefixOf_iff_prefix.mp h
  cases ws with
  | nil => cases htail
  | cons w ws =>
    obtain ⟨htake, hdrop⟩ := span_row ws (hws w List.mem_cons_self)
    rw [← htail] at htake hdrop
    cases ws with
    | nil => cases hdrop
    | cons v rest =>
      rw [List.flatMap_cons] at hdrop
      obtain ⟨-, hletter⟩ := List.cons.inj hdrop
      exact ⟨congrArg some htake.symm, congrArg some (List.cons.inj hletter).1.symm⟩

/-- A line of words that changes the tool begins with a word in T. -/
theorem words_of_isToolChange {ws : List Word} (h : isToolChange (Word.row ws) = true) :
    ws.head?.map Word.letter = some 'T' := by
  obtain ⟨hhead, -⟩ := Bool.and_eq_true_iff.mp h
  cases ws with
  | nil => cases hhead
  | cons w rest =>
    rw [Word.row_cons] at hhead
    exact eq_of_beq hhead

theorem asks_row {ws : List Word} (hws : ∀ w ∈ ws, w.Proper) (h : asks (Word.row ws) = true) :
    (ws.head?.map Word.chars = some ['G', '0', '0'] ∧ ws.tail.head?.map Word.letter = some 'X') ∨
      ws.head?.map Word.letter = some 'T' :=
  (Bool.or_eq_true_iff.mp h).imp (words_of_isTraverse hws) words_of_isToolChange

/-- Words that neither move nor choose a tool are harmless. -/
theorem harmless_row {ws : List Word} (hws : ∀ w ∈ ws, w.Proper)
    (h : ∀ w ∈ ws, w.letter ∈ ['G', 'M', 'S', 'H', 'O']) : Harmless (Word.row ws) := by
  have hletters : ∀ w ∈ ws, w.letter ≠ 'T' ∧ w.letter ≠ 'X' ∧ w.letter ≠ 'Z' := fun w hw =>
    (by simp : ∀ l ∈ ['G', 'M', 'S', 'H', 'O'], l ≠ 'T' ∧ l ≠ 'X' ∧ l ≠ 'Z') w.letter (h w hw)
  refine ⟨Bool.eq_false_iff.mpr fun h => ?_, Bool.eq_false_iff.mpr fun h => ?_⟩
  · rcases asks_row hws h with ⟨-, h⟩ | h
    · obtain ⟨v, hv, hletter⟩ := Option.map_eq_some_iff.mp h
      exact (hletters v (List.mem_of_mem_tail (List.mem_of_mem_head? hv))).2.1 hletter
    · obtain ⟨w, hw, hletter⟩ := Option.map_eq_some_iff.mp h
      exact (hletters w (List.mem_of_mem_head? hw)).1 hletter
  · obtain ⟨w, hw, hletter⟩ := (commandsZ_row hws).mp h
    exact (hletters w hw).2.2 hletter

end ProgramLine

/-! ### Lines of commands -/

namespace Statement

/-- The lines of some statements. -/
def linesOf (d : Dialect) (ss : List Statement) : List (List Char) :=
  Text.lines (program d ss).toList

variable (d : Dialect)

theorem linesOf_eq (ss : List Statement) :
    linesOf d ss = ss.flatMap fun s => Text.lines (s.text d).toList := by
  have hfound := found_program (φ := fun l => [l]) d ss
  simp only [found, List.flatMap_singleton'] at hfound
  exact hfound

theorem linesOf_append (as bs : List Statement) :
    linesOf d (as ++ bs) = linesOf d as ++ linesOf d bs := by
  rw [linesOf_eq, linesOf_eq, linesOf_eq, List.flatMap_append]

theorem linesOf_words {ws : List Word} (h : ∀ w ∈ ws, w.Proper) :
    linesOf d [.words ws] = [Word.row ws] := by
  rw [linesOf_eq, List.flatMap_singleton, lines_words d h]

end Statement

namespace Dialect

open ProgramLine Statement

variable (d : Dialect)

theorem harmless_frame : ∀ l ∈ linesOf d [.frame], Harmless l := by
  rw [linesOf_eq, List.flatMap_singleton, lines_frame]
  exact List.forall_mem_singleton.mpr ⟨rfl, rfl⟩

/-- A line with one word that neither moves nor chooses a tool. -/
theorem harmless_word {w : Word} (hw : w.Proper) (h : w.letter ∈ ['G', 'M', 'S', 'H', 'O']) :
    ∀ l ∈ linesOf d [.words [w]], Harmless l := by
  have hproper : ∀ v ∈ [w], v.Proper := List.forall_mem_singleton.mpr hw
  rw [linesOf_words d hproper]
  exact List.forall_mem_singleton.mpr (harmless_row hproper (List.forall_mem_singleton.mpr h))

theorem harmless_opening (n : Nat) : ∀ l ∈ linesOf d (d.opening n), Harmless l := by
  rw [opening]
  split
  · rw [← List.singleton_append, linesOf_append]
    refine List.forall_mem_append.mpr ⟨d.harmless_frame, d.harmless_word ?_ ?_⟩
    · exact Word.proper_ofNat rfl 5 _
    · simp [Word.ofNat]
  · exact List.forall_mem_nil _

theorem harmless_closing : ∀ l ∈ linesOf d d.closing, Harmless l := by
  rw [closing, ← List.singleton_append, linesOf_append]
  refine List.forall_mem_append.mpr ⟨d.harmless_word (Word.proper_ofNat rfl 2 30) (by decide), ?_⟩
  split
  · exact d.harmless_frame
  · exact List.forall_mem_nil _

/-- A tool change asks for a raised tool, and moves nothing. -/
theorem clearLines_toolChange {lift : List Char} {raised : Prop} (h : raised) (slot : Nat)
    {rest : List (List Char)} (hrest : ClearLines lift raised rest) :
    ClearLines lift raised (linesOf d (d.toolChange slot) ++ rest) := by
  let change : List Word := [Word.ofNat 'T' 1 slot, Word.m 6]
  let offset : List Word := [Word.g 43, Word.ofNat 'H' 2 slot]
  have hchange : ∀ w ∈ change, w.Proper :=
    List.forall_mem_cons.mpr ⟨Word.proper_ofNat rfl 1 slot,
      List.forall_mem_singleton.mpr (Word.proper_ofNat rfl 2 6)⟩
  have hoffset : ∀ w ∈ offset, w.Proper :=
    List.forall_mem_cons.mpr ⟨Word.proper_ofNat rfl 2 43,
      List.forall_mem_singleton.mpr (Word.proper_ofNat rfl 2 slot)⟩
  have hlevel : ¬ commandsZ (Word.row change) = true := by
    rw [commandsZ_row hchange]
    simp [change, Word.ofNat, Word.m]
  have hharmless : ∀ l ∈ linesOf d (if d.lengthOffset then [.words offset] else []),
      Harmless l := by
    split
    · rw [linesOf_words d hoffset]
      refine List.forall_mem_singleton.mpr (harmless_row hoffset ?_)
      simp [offset, Word.ofNat, Word.g]
    · exact List.forall_mem_nil _
  have hsplit : d.toolChange slot =
      [.words change] ++ (if d.lengthOffset then [.words offset] else []) := rfl
  rw [hsplit, linesOf_append, linesOf_words d hchange, List.append_assoc, List.singleton_append]
  refine ⟨fun _ => h, ?_⟩
  rw [RaisedBy, if_neg hlevel]
  exact clearLines_append hharmless hrest

end Dialect

namespace Command

open ProgramLine Statement

variable (d : Dialect) (decimals : Nat)

/-- The words of a motion, with the feed that it states. -/
def wordsOf (stated : Option Double) (c : Command Double) : List Word :=
  c.motionCodes ++ c.numbers.map (fun n => Word.ofScalar decimals n.1 n.2)
    ++ (stated.map (Word.ofScalar decimals 'F')).toList

theorem proper_wordsOf (stated : Option Double) (c : Command Double) :
    ∀ w ∈ c.wordsOf decimals stated, w.Proper := fun w hw => (written_of_motion w hw).proper

/-- The letters of a motion are those of its numbers, besides those of functions and feeds. -/
theorem letter_of_mem_wordsOf {stated : Option Double} {c : Command Double} {w : Word}
    (hw : w ∈ c.wordsOf decimals stated) :
    w.letter = 'G' ∨ w.letter = 'F' ∨ ∃ entry ∈ c.numbers, entry.1 = w.letter := by
  rw [wordsOf, List.mem_append, List.mem_append, List.mem_map] at hw
  rcases hw with (hw | ⟨entry, hentry, rfl⟩) | hw
  · obtain ⟨n, -, rfl⟩ := exists_of_mem_motionCodes hw
    exact .inl rfl
  · exact .inr (.inr ⟨entry, hentry, rfl⟩)
  · cases stated with
    | none => cases hw
    | some f =>
      obtain rfl := List.mem_singleton.mp hw
      exact .inr (.inl rfl)

/-- A motion moves the tool in Z if it has a number for that. -/
theorem commandsZ_wordsOf (stated : Option Double) (c : Command Double) :
    commandsZ (Word.row (c.wordsOf decimals stated)) = true ↔ 'Z' ∈ c.numbers.map Prod.fst := by
  rw [commandsZ_row (proper_wordsOf decimals stated c), List.mem_map]
  constructor
  · rintro ⟨w, hw, hletter⟩
    rcases letter_of_mem_wordsOf decimals hw with h | h | ⟨entry, hentry, h⟩
    · rw [hletter] at h
      exact absurd h (by decide)
    · rw [hletter] at h
      exact absurd h (by decide)
    · exact ⟨entry, hentry, h.trans hletter⟩
  · rintro ⟨entry, hentry, hletter⟩
    refine ⟨Word.ofScalar decimals entry.1 entry.2, ?_, hletter⟩
    rw [wordsOf, List.mem_append, List.mem_append]
    exact .inl (.inr (List.mem_map_of_mem hentry))

/-- The only motion that asks for a raised tool is a rapid traverse. -/
theorem traverses_of_asks {stated : Option Double} {c : Command Double} (hc : c.numbers ≠ [])
    (h : asks (Word.row (c.wordsOf decimals stated)) = true) : c.traverses = true := by
  rcases asks_row (proper_wordsOf decimals stated c) h with ⟨hfirst, hsecond⟩ | hhead
  · have hfunction (n : Nat) (hn : (Word.g n).chars ≠ ['G', '0', '0'])
        (hw : some (Word.g n).chars = some ['G', '0', '0']) : c.traverses = true :=
      absurd (Option.some.inj hw) hn
    cases c with
    | rapid p => rfl
    | rapidZ z => exact absurd (Option.some.inj hsecond : 'Z' = 'X') (by decide)
    | feedZ z f => exact hfunction 1 (by decide) hfirst
    | feed p f => exact hfunction 1 (by decide) hfirst
    | feedTo p z f => exact hfunction 1 (by decide) hfirst
    | arc clockwise e i f =>
      cases clockwise with
      | true => exact hfunction 2 (by decide) hfirst
      | false => exact hfunction 3 (by decide) hfirst
    | peck p z r q f => exact hfunction 83 (by decide) hfirst
    | feedRate f =>
      have hletter : 'F' = 'G' := (List.cons.inj (Option.some.inj hfirst)).1
      exact absurd hletter (by decide)
    | hole p =>
      have hletter : 'X' = 'G' := (List.cons.inj (Option.some.inj hfirst)).1
      exact absurd hletter (by decide)
    | _ => exact absurd rfl hc
  · obtain ⟨w, hw, hletter⟩ := Option.map_eq_some_iff.mp hhead
    have hletters : ∀ l ∈ 'G' :: 'F' :: letters, l ≠ 'T' := by simp [letters]
    refine absurd hletter (hletters _ ?_)
    rcases letter_of_mem_wordsOf decimals (List.mem_of_mem_head? hw) with h | h | ⟨entry, hentry, h⟩
    · rw [h]
      exact List.mem_cons_self
    · rw [h]
      decide
    · rw [← h]
      exact List.mem_cons_of_mem _ (List.mem_cons_of_mem _ (letter_of_mem_numbers hentry))

/-- A motion is written as one line of words. -/
theorem linesOf_motion {c : Command Double} (hc : c.numbers ≠ []) (modal : Option Double) :
    linesOf d (c.statements d decimals modal) =
      [Word.row (c.wordsOf decimals (c.statedFeed? modal))] := by
  rw [← linesOf_words d (proper_wordsOf decimals _ c)]
  cases c <;> first | exact absurd rfl hc | rfl

/-- The line that raises the tool to a height. -/
def liftLine (z : Double) : List Char :=
  ['G', '0', '0', ' ', 'Z'] ++ (Decimal.coordinate decimals z).toList

theorem row_rapidZ (z : Double) (modal : Option Double) :
    Word.row ((rapidZ z : Command Double).wordsOf decimals ((rapidZ z).statedFeed? modal)) =
      liftLine decimals z := by
  have hstated : (rapidZ z : Command Double).statedFeed? modal = none := by
    cases modal <;> rfl
  have hzero : (Word.g 0).chars = ['G', '0', '0'] := by decide
  rw [hstated]
  show Word.row [Word.g 0, Word.ofScalar decimals 'Z' z] = liftLine decimals z
  rw [Word.row_cons, List.flatMap_singleton, hzero]
  rfl

/-- Commands without numbers are harmless, unless they change the tool. -/
theorem harmless_statements {c : Command Double} (htidy : c.Tidy) (hc : c.numbers = [])
    (hchange : c.traverses = false) (modal : Option Double) :
    ∀ l ∈ linesOf d (c.statements d decimals modal), Harmless l := by
  cases c with
  | verbatim t => exact htidy.elim
  | remark t =>
    intro l hl
    rw [statements, linesOf_eq, List.flatMap_singleton] at hl
    obtain ⟨part, -, hpart⟩ := exists_of_mem_lines_remark d hl
    exact harmless_remark d.remarks hpart
  | marker name values =>
    obtain ⟨hname, -, hvalues⟩ :=
      tidy_statements htidy d decimals modal _ (List.mem_singleton.mpr rfl)
    rw [statements, linesOf_eq, List.flatMap_singleton, lines_marker d hname hvalues]
    exact List.forall_mem_singleton.mpr (harmless_remark d.remarks (List.prefix_refl _))
  | codes ws =>
    have hproper : ∀ w ∈ ws, w.Proper := fun w hw => (htidy w hw).written.proper
    rw [statements, linesOf_words d hproper]
    refine List.forall_mem_singleton.mpr (harmless_row hproper fun w hw => ?_)
    exact List.mem_append_left ['H', 'O'] (htidy w hw).letter
  | programStart n => exact d.harmless_opening n
  | programEnd => exact d.harmless_closing
  | toolChange slot => cases hchange
  | _ => cases hc

theorem raised_of_raisedAfter {z : Double} {raised : Prop} {c : Command Double}
    (hnumbers : c.numbers = []) (h : c.RaisedAfter z raised) : raised := by
  cases c <;> first | exact h | exact h.elim | cases hnumbers

/-- The line of a motion raises the tool where the motion does. -/
theorem raisedBy_motion {z : Double} {raised raised' : Prop} {c : Command Double}
    (h : raised → raised') (hraised : c.RaisedAfter z raised) (modal : Option Double) :
    RaisedBy (liftLine decimals z) (Word.row (c.wordsOf decimals (c.statedFeed? modal)))
      raised' := by
  rw [RaisedBy]
  split
  · rename_i hlevel
    have hz := (commandsZ_wordsOf decimals _ c).mp hlevel
    cases c with
    | rapidZ w =>
      obtain rfl := hraised
      exact row_rapidZ decimals w modal
    | feedZ w f => exact hraised.elim
    | feedTo p w f => exact hraised.elim
    | peck p w r q f => exact hraised.elim
    | _ => simp [numbers] at hz
  · rename_i hlevel
    have hz := mt (commandsZ_wordsOf decimals _ c).mpr hlevel
    cases c with
    | rapidZ w => simp [numbers] at hz
    | feedZ w f => exact hraised.elim
    | feedTo p w f => exact hraised.elim
    | peck p w r q f => exact hraised.elim
    | verbatim t => exact hraised.elim
    | _ => exact h hraised

/-- **Clear commands are written as clear lines.** -/
theorem clearLines_writeFrom {z : Double} {raised raised' : Prop} {cs : List (Command Double)}
    (htidy : ∀ c ∈ cs, c.Tidy) (hclear : Clear z raised cs) (h : raised → raised')
    (modal : Option Double) :
    ClearLines (liftLine decimals z) raised' (linesOf d (writeFrom d decimals modal cs)) := by
  induction cs generalizing raised raised' modal with
  | nil => trivial
  | cons c cs ih =>
    obtain ⟨hc, hcs⟩ := List.forall_mem_cons.mp htidy
    obtain ⟨hfound, hclear⟩ := hclear
    rw [writeFrom, linesOf_append]
    by_cases hnumbers : c.numbers = []
    · have hrest := ih hcs hclear (fun hraised => h (raised_of_raisedAfter hnumbers hraised))
        (c.feedAfter modal)
      cases htraverses : c.traverses with
      | false =>
        exact clearLines_append (harmless_statements d decimals hc hnumbers htraverses modal) hrest
      | true =>
        cases c with
        | toolChange slot => exact d.clearLines_toolChange (h (hfound rfl)) slot hrest
        | rapid p => cases hnumbers
        | _ => cases htraverses
    · rw [linesOf_motion d decimals hnumbers]
      exact ⟨fun hasks => h (hfound (traverses_of_asks decimals hnumbers hasks)),
        ih hcs hclear (fun hraised => raisedBy_motion decimals h hraised modal) _⟩

end Command

/-! ### Lines of patterns -/

namespace ProgramLine

/-- A remark moves nothing. -/
theorem commandsAxis_remark (style : RemarkStyle) {text l : List Char}
    (hl : l <+: style.line text) : commandsAxis l = false := by
  rw [commandsAxis, outside_remark style hl]
  rfl

end ProgramLine

namespace Command

open ProgramLine Statement

variable (d : Dialect) (decimals : Nat)

/-- What is written behind commands starts with the feed that they leave in effect. -/
theorem writeFrom_append (modal : Option Double) (as bs : List (Command Double)) :
    writeFrom d decimals modal (as ++ bs) =
      writeFrom d decimals modal as ++ writeFrom d decimals (as.foldl feedAfter modal) bs := by
  induction as generalizing modal with
  | nil => rfl
  | cons a as ih => rw [List.cons_append, writeFrom, ih, writeFrom, List.append_assoc]; rfl

theorem linesOf_rapidZ (z : Double) (modal : Option Double) :
    linesOf d ((rapidZ z : Command Double).statements d decimals modal) =
      [liftLine decimals z] := by
  have hnumbers : (rapidZ z : Command Double).numbers ≠ [] := List.cons_ne_nil _ _
  rw [linesOf_motion d decimals hnumbers, row_rapidZ]

theorem commandsAxis_liftLine (z : Double) : commandsAxis (liftLine decimals z) = true := by
  have hproper := proper_wordsOf decimals ((rapidZ z).statedFeed? none) (rapidZ z)
  rw [commandsAxis, ← row_rapidZ decimals z none, outside_row hproper, row_rapidZ]
  rfl

/-- Behind a remark, the lines of capped commands begin and end with raising the tool. -/
theorem capped_linesOf {z : Double} {cs : List (Command Double)} (h : Capped z cs) (t : String)
    (modal : Option Double) :
    let lines := linesOf d (writeFrom d decimals modal (.remark t :: cs))
    lines.find? commandsAxis = some (liftLine decimals z) ∧
      lines.getLast? = some (liftLine decimals z) := by
  obtain ⟨hhead, hlast⟩ := h
  constructor
  · obtain ⟨rest, rfl⟩ : ∃ rest, cs = .rapidZ z :: rest := by
      cases cs with
      | nil => cases hhead
      | cons c rest => exact ⟨rest, by rw [Option.some.inj hhead]⟩
    have hremark : ∀ l ∈ linesOf d [.remark t], ¬ commandsAxis l = true := by
      intro l hl
      rw [linesOf_eq, List.flatMap_singleton] at hl
      obtain ⟨part, -, hpart⟩ := exists_of_mem_lines_remark d hl
      rw [commandsAxis_remark d.remarks hpart]
      exact Bool.false_ne_true
    rw [writeFrom, writeFrom, linesOf_append, linesOf_append, linesOf_rapidZ, List.find?_append,
      statements, List.find?_eq_none.mpr hremark, Option.none_or, List.singleton_append,
      List.find?_cons_of_pos (commandsAxis_liftLine decimals z)]
  · obtain ⟨front, rfl⟩ := List.getLast?_eq_some_iff.mp hlast
    have hsingle (between : Option Double) : writeFrom d decimals between [.rapidZ z] =
        (rapidZ z : Command Double).statements d decimals between := by
      rw [writeFrom, writeFrom, List.append_nil]
    rw [← List.cons_append, writeFrom_append, linesOf_append, hsingle, linesOf_rapidZ,
      List.getLast?_concat]

end Command

/-! ### Lines of programs -/

namespace Document

open ProgramLine Statement

variable {d : Project} {f : ProgramFormat} {p : NodeId × StoredBlock}

variable (d f) in
/-- The line that raises the tool to the clearance height. -/
def liftLine : List Char := Command.liftLine f.decimals d.material.clearance

/-- The lines of a block are clear, whatever stands before them. -/
theorem clearLines_ownLines (hcode : p.2.kind ≠ .code) :
    ClearLines (d.liftLine f) False (d.ownLines f p) := by
  cases hc : d.commands f.decimals p.1 p.2 with
  | error e =>
    rw [d.ownLines_of_error f hc]
    trivial
  | ok cs =>
    rw [ownLines, d.own_of_commands f hc]
    exact Command.clearLines_writeFrom f.dialect f.decimals (tidy_of_commands hc hcode)
      (clear_of_commands hc) id none

/-- The lines of a pattern begin and end with raising the tool. -/
theorem capped_ownLines (hkind : p.2.kind ∈ patternKinds) (hne : d.ownLines f p ≠ []) :
    (d.ownLines f p).find? commandsAxis = some (d.liftLine f) ∧
      (d.ownLines f p).getLast? = some (d.liftLine f) := by
  have hown : d.own f p ≠ [] := by
    intro hnil
    rw [ownLines, hnil] at hne
    exact hne rfl
  obtain ⟨cs, hcs⟩ := d.exists_commands_of_own f hown
  obtain ⟨rest, rfl, -, hcapped⟩ := pattern_of_commands hcs hkind
  rw [ownLines, d.own_of_commands f hcs]
  exact Command.capped_linesOf f.dialect f.decimals hcapped _ none

variable (d) in
/-- The program of a document traverses and changes tools at the clearance height only. -/
structure TraversesRaised (ending : LineEnding) (decimals : Option Nat) : Prop where
  /-- Before a line that asks for a raised tool, the last line that moves it in Z raises it. -/
  raised : ∀ before line after,
    Text.lines (d.generate ending decimals).1.toList = before ++ line :: after →
    (isTraverse line || isToolChange line) = true →
    before.reverse.find? commandsZ = some (d.liftLine (d.format decimals))
  /-- The program is made of the lines of the blocks that are reached. -/
  fragments : Text.lines (d.generate ending decimals).1.toList =
    d.reached.flatMap (d.ownLines (d.format decimals))
  /-- In the lines of a pattern, as far as it has any, the first motion and the last line raise the
  tool. -/
  patterns : ∀ p ∈ d.reached, p.2.kind ∈ patternKinds →
    d.ownLines (d.format decimals) p ≠ [] →
    (d.ownLines (d.format decimals) p).find? commandsAxis =
        some (d.liftLine (d.format decimals)) ∧
      (d.ownLines (d.format decimals) p).getLast? = some (d.liftLine (d.format decimals))

/-- **Every program traverses at the clearance height**, in any dialect, with any line ending and
any number of decimals, as long as no text is taken over. -/
theorem traverses_raised (d : Project) (ending : LineEnding) (decimals : Option Nat)
    (hcode : ∀ p ∈ d.reached, p.2.kind ≠ .code) : d.TraversesRaised ending decimals := by
  have hlines := d.lines_generate ending decimals
  have hclear : ClearLines (d.liftLine (d.format decimals)) False
      (Text.lines (d.generate ending decimals).1.toList) := by
    rw [hlines]
    exact granted_flatMap (forgiving_raisedBy _) fun p hp => clearLines_ownLines (hcode p hp)
  exact
    { raised := by
        intro before line after hsplit hasks
        rw [hsplit] at hclear
        have hnone : False → (none : Option (List Char)) = some (d.liftLine (d.format decimals)) :=
          False.elim
        rw [← last_of_asks hclear hnone hasks, Option.or_none]
      fragments := hlines
      patterns := fun p _ hkind hne => capped_ownLines hkind hne }

/-- A program that opens, changes the tool, drills two holes and closes. -/
def drilled : Project :=
  let opened : Project :=
    (((Document.new "drilled").add { payload := Payload.standard .header }).2.add
      { payload := Payload.standard .tool }).2
  let (pattern, d) := opened.add { payload := Payload.standard .drillHoles }
  let points := (d.children? pattern).getD d.root
  let d := (d.push points { payload := .point ⟨-1, 0⟩ }).2
  ((d.push points { payload := Payload.standard .point }).2.add
    { payload := Payload.standard .footer }).2

theorem traverses_raised_drilled :
    (∀ p ∈ drilled.reached, p.2.kind ≠ .code) ∧ drilled.TraversesRaised .crlf (some 4) := by
  have hcode : ∀ p ∈ drilled.reached, p.2.kind ≠ .code := by decide +kernel
  exact ⟨hcode, traverses_raised drilled .crlf (some 4) hcode⟩

end Document

end Toolpath
