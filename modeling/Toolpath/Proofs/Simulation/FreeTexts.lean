import Toolpath.Project.Record
import Toolpath.Proofs.Decimal.Texts
import Toolpath.Proofs.Synthesis.Programs
import Toolpath.Simulation.Simulator

/-!
# Free texts do not cut

The texts that a document carries for people are written into its program as remarks. However they
look, with line feeds, parentheses, semicolons or codes in them, no word of the program comes from
them; and as long as none of them has a mark, a simulation does not even see them. So two documents
that differ in free texts only have programs with the same words, line by line, and a machine does
the same with both.

## Main definitions

* `ProgramLine.rowsOf` — the words of a program, line by line
* `Document.Plain` — no free text has a mark
* `Document.Unheard` — nothing is found in what is remarked

## Main results

* `Document.found_generate_of_mute_eq` — two programs compared by the statements they share
* `Document.rowsOf_generate` — the words of a program do not depend on free texts
* `Document.run_generate` — nor does a simulation, where no free text has a mark
-/

namespace Toolpath

/-! ### What a program says -/

namespace ProgramLine

variable {R : Type} [Numeral R]

/-- The words of a program line by line, lines without words left out. -/
def rowsOf (program : String) : List (List (Address R)) :=
  ((Text.lines program.toList).map fun l => (read l).words).filter fun ws => !ws.isEmpty

/-- The words of one line, if it has any. -/
def row (line : List Char) : List (List (Address R)) :=
  [(read line).words].filter fun ws => !ws.isEmpty

/-- The line as read, if it says anything. -/
def saying (line : List Char) : List (ProgramLine R) :=
  [read line].filter fun l => !l.isEmpty

theorem rowsOf_eq_found (program : String) :
    (rowsOf program : List (List (Address R))) = Statement.found row program := by
  rw [rowsOf, Statement.found]
  induction Text.lines program.toList with
  | nil => rfl
  | cons l ls ih =>
    rw [List.map_cons, ← List.singleton_append, List.filter_append, ih, List.flatMap_cons]
    rfl

end ProgramLine

namespace Simulator

open ProgramLine

variable {R : Type} [Analytic R]

/-- **A line that says nothing changes nothing.** -/
theorem execute_of_isEmpty (s : Simulator R) {l : ProgramLine R} (h : l.isEmpty = true) :
    s.execute l = s := by
  obtain ⟨words, markers⟩ := l
  obtain ⟨hwords, hmarkers⟩ := Bool.and_eq_true_iff.mp h
  obtain rfl := List.isEmpty_iff.mp hwords
  obtain rfl := List.isEmpty_iff.mp hmarkers
  obtain ⟨stock, head, step, steps, distance, removed⟩ := s
  have hmotion : head.motion step ⟨[], []⟩ = (head.position, []) := by
    unfold Head.motion
    dsimp only
    cases head.cycle.filter fun _ => _ with
    | none => rfl
    | some cycle => rfl
  have hobey : head.obey step ⟨[], []⟩ = (head, []) := by
    show ({ head with position := (head.motion step ⟨[], []⟩).1 },
      (head.motion step ⟨[], []⟩).2) = _
    rw [hmotion]
  rw [execute, hobey]
  rfl

variable [Numeral R]

/-- A program is run by running what its lines say. -/
theorem run_eq_found (s : Simulator R) (program : String) :
    s.run program = (Statement.found saying program).foldl execute s := by
  rw [run, Statement.found]
  induction Text.lines program.toList generalizing s with
  | nil => rfl
  | cons l ls ih =>
    rw [List.foldl_cons, List.flatMap_cons, List.foldl_append, ih]
    cases he : (read l : ProgramLine R).isEmpty with
    | true =>
      rw [s.execute_of_isEmpty he, saying, List.filter_cons_of_neg (by simp [he])]
      rfl
    | false =>
      rw [saying, List.filter_cons_of_pos (by simp [he])]
      rfl

end Simulator

/-! ### Numbers -/

namespace Decimal

/-- A natural number has no capital letter that a mark starts with. -/
theorem unmarked_toString (n : Nat) : 'G' ∉ (toString n).toList := fun h =>
  absurd (allDigits_digits n 'G' (by simpa [Nat.repr, digits] using h)) (by decide)

/-- A coordinate has none either. -/
theorem unmarked_coordinate (places : Nat) (x : Double) : 'G' ∉ (coordinate places x).toList :=
  (printed_coordinate places x).not_mem (by decide)

end Decimal

namespace Document

variable {d e : Project}

/-- None of the free texts that are written into the program has a mark. The notes are not
written. -/
structure Plain (d : Project) : Prop where
  /-- The name. -/
  name : Unmarked d.name.toList
  /-- The comments. -/
  comment {id : NodeId} {b : StoredBlock} (h : d.get? id = some b) : Unmarked b.comment.toList
  /-- The labels of tools. -/
  label {id : NodeId} {b : StoredBlock} {t : Tool Double} (h : d.get? id = some b)
    (ht : b.tool? = some t) : Unmarked t.label.toList

/-- A block has keys below that of the next block, so there are finitely many texts to look at. -/
theorem plain_iff (d : Project) : d.Plain ↔ Unmarked d.name.toList ∧
    ∀ k < d.tree.links.nodes.nextKey, ∀ b ∈ d.get? ⟨k⟩,
      Unmarked b.comment.toList ∧ ∀ t ∈ b.tool?, Unmarked t.label.toList := by
  constructor
  · intro h
    exact ⟨h.name, fun k _ b hb => ⟨h.comment hb, fun t ht => h.label hb ht⟩⟩
  · rintro ⟨hname, hblock⟩
    have hkey {id : NodeId} {b : StoredBlock} (h : d.get? id = some b) :
        id.key < d.tree.links.nodes.nextKey := by
      obtain ⟨n, hn, -⟩ := Option.map_eq_some_iff.mp h
      exact Arena.lt_nextKey_of_get? hn
    exact
      { name := hname
        comment := fun {id b} h => (hblock id.key (hkey h) b h).1
        label := fun {id b t} h ht => (hblock id.key (hkey h) b h).2 t ht }

instance (d : Project) : Decidable d.Plain := decidable_of_iff _ (d.plain_iff).symm

/-! ### What is remarked has no mark -/

/-- What is said of a tool has marks only in its label: what is written around that ends in a space
or begins with one. -/
theorem unmarked_toolRemark {decimals : Nat} {t : Tool Double} (h : Unmarked t.label.toList) :
    Unmarked (toolRemark decimals t).toList := by
  have hsplit : (toolRemark decimals t).toList =
      ('T' :: (toString t.number.toNat).toList ++ [':']) ++ ' ' :: (t.label.toList ++
        ' ' :: 'D' :: (Decimal.coordinate decimals t.diameter).toList) := by
    simp [toolRemark, Numeral.coordinate]
  have hbefore : 'G' ∉ 'T' :: (toString t.number.toNat).toList ++ [':'] :=
    List.not_mem_append (List.not_mem_cons_of_ne_of_not_mem (by decide)
      (Decimal.unmarked_toString _)) (by decide)
  have hbehind : 'G' ∉ 'D' :: (Decimal.coordinate decimals t.diameter).toList :=
    List.not_mem_cons_of_ne_of_not_mem (by decide) (Decimal.unmarked_coordinate decimals t.diameter)
  rw [hsplit]
  exact (Unmarked.of_not_mem hbefore).separated
    (h.separated (.of_not_mem hbehind) (by decide)) (by decide)

theorem unmarked_of_remarks {decimals : Nat} {id : NodeId} {b : StoredBlock} {t : String}
    (hd : d.Plain) (hb : d.get? id = some b) (h : d.Remarks decimals b t) :
    Unmarked t.toList := by
  cases h with
  | name => exact hd.name
  | comment => exact hd.comment hb
  | tool ht => exact unmarked_toolRemark (hd.label hb ht)
  | load ht =>
    rw [String.toList_append]
    exact .of_not_mem (List.not_mem_append (by decide) (Decimal.unmarked_toString _))

/-! ### Free texts do not cut -/

/-- Nothing is found in what the program of a document remarks. -/
def Unheard {γ : Type} (φ : List Char → List γ) (d : Project) (f : ProgramFormat) : Prop :=
  ∀ t, .remark t ∈ d.statements f → ∀ line ∈ Text.lines t.toList, ∀ style l,
    l <+: RemarkStyle.line style line → φ l = []

variable {γ : Type} {φ : List Char → List γ} {decimals : Option Nat}

/-- Where nothing is found in remarks, the mute document tells what is found. -/
theorem Unheard.found_generate (hd : Unheard φ d (d.format decimals)) (ending : LineEnding) :
    Statement.found φ (d.generate ending decimals).1 =
      Statement.found φ (Statement.program (d.format decimals).dialect
        (Statement.spoken (d.mute.statements (d.format decimals)))) := by
  rw [Document.found_generate, spoken_statements_mute]
  exact (Statement.found_spoken _ fun t ht line hline l hl => hd t ht line hline _ l hl).symm

/-- **What is found in a program does not depend on free texts** in which nothing is found. -/
theorem found_generate_of_mute_eq (h : d.mute = e.mute) (hd : Unheard φ d (d.format decimals))
    (he : Unheard φ e (e.format decimals)) (ending : LineEnding) :
    Statement.found φ (d.generate ending decimals).1 =
      Statement.found φ (e.generate ending decimals).1 := by
  have hformat : d.format decimals = e.format decimals :=
    show d.mute.format decimals = e.mute.format decimals by rw [h]
  rw [hd.found_generate, he.found_generate, h, hformat]

/-- No word is heard, whatever is remarked. -/
theorem unheard_row (d : Project) (f : ProgramFormat) :
    Unheard (ProgramLine.row (R := Double)) d f := by
  intro t _ line _ style l hl
  rw [ProgramLine.row, ProgramLine.words_remark style hl]
  rfl

/-- A simulation hears nothing of what a plain document remarks. -/
theorem Plain.unheard_saying (hd : d.Plain) (f : ProgramFormat) :
    Unheard (ProgramLine.saying (R := Double)) d f := by
  intro t ht line hline style l hl
  obtain ⟨id, b, hb, hremarks⟩ := remark_of_statements ht
  have hunmarked : Unmarked line :=
    (unmarked_of_remarks hd hb hremarks).of_part (Text.infix_of_mem_lines hline)
  have hempty : (ProgramLine.read l : ProgramLine Double).isEmpty = true := by
    rw [ProgramLine.isEmpty, ProgramLine.words_remark style hl,
      ProgramLine.markers_remark style hunmarked hl]
    rfl
  rw [ProgramLine.saying, List.filter_cons_of_neg (by simp [hempty])]
  rfl

/-- **The words of a program do not depend on free texts**, whatever these are. -/
theorem rowsOf_generate (h : d.mute = e.mute) (ending : LineEnding) (decimals : Option Nat) :
    (ProgramLine.rowsOf (d.generate ending decimals).1 : List (List (Address Double))) =
      ProgramLine.rowsOf (e.generate ending decimals).1 := by
  rw [ProgramLine.rowsOf_eq_found, ProgramLine.rowsOf_eq_found]
  exact found_generate_of_mute_eq h (unheard_row d _) (unheard_row e _) ending

/-- **A simulation does not depend on free texts** that have no mark. -/
theorem run_generate (h : d.mute = e.mute) (hd : d.Plain) (he : e.Plain) (ending : LineEnding)
    (decimals : Option Nat) (s : Simulator Double) :
    s.run (d.generate ending decimals).1 = s.run (e.generate ending decimals).1 := by
  rw [s.run_eq_found, s.run_eq_found]
  exact congrArg (List.foldl Simulator.execute s)
    (found_generate_of_mute_eq h (hd.unheard_saying _) (he.unheard_saying _) ending)

/-- **Free texts do not cut.** Let two documents be the same but for their names and notes, comments
and labels, whatever characters these have. Then their programs have the same words, line by line,
in any dialect, with any line ending and any number of decimals; and a simulation leaves any machine
the same after both, unless one of the texts has a mark. -/
theorem cuts_same_of_mute_eq (h : d.mute = e.mute) (ending : LineEnding) (decimals : Option Nat) :
    let p := (d.generate ending decimals).1
    let q := (e.generate ending decimals).1
    (ProgramLine.rowsOf p : List (List (Address Double))) = ProgramLine.rowsOf q ∧
      (d.Plain → e.Plain → ∀ s : Simulator Double, s.run p = s.run q) :=
  ⟨rowsOf_generate h ending decimals, fun hd he s => run_generate h hd he ending decimals s⟩

/-- A program with a tool and a line. -/
def groove : Project :=
  ((((Document.new "groove").add { payload := Payload.standard .header }).2.add
    { payload := Payload.standard .tool }).2.add { payload := Payload.standard .line }).2

/-- Texts that look like the end of a remark, another line and a rapid move into the stock. -/
def hostile : String := "spare) G0 Z-9\nG1 X5 ; (\r\nM3 S9000"

/-- The same with other texts wherever there is one. -/
def scribbled : Project :=
  let titled := (groove.modify ⟨0⟩ (Block.retitle hostile "")).modify ⟨1⟩ (Block.retitle "" hostile)
  { titled.modify ⟨2⟩ (Block.retitle hostile "") with name := hostile, notes := hostile }

theorem cuts_same_of_mute_eq_scribbled :
    groove.mute = scribbled.mute ∧ groove.Plain ∧ scribbled.Plain ∧
      (ProgramLine.rowsOf (groove.generate .crlf (some 4)).1 : List (List (Address Double))) =
        ProgramLine.rowsOf (scribbled.generate .crlf (some 4)).1 ∧
      ∀ s : Simulator Double,
        s.run (groove.generate .crlf (some 4)).1 = s.run (scribbled.generate .crlf (some 4)).1 := by
  have hretitle (d : Project) (id : NodeId) (comment label : String) :
      (d.modify id (Block.retitle comment label)).mute = d.mute :=
    d.mute_modify (Block.mute_retitle comment label) id
  have hmute : groove.mute = scribbled.mute := by
    show groove.mute = (((groove.modify ⟨0⟩ (Block.retitle hostile "")).modify ⟨1⟩
      (Block.retitle "" hostile)).modify ⟨2⟩ (Block.retitle hostile "")).mute
    rw [hretitle, hretitle, hretitle]
  have hgroove : groove.Plain := by decide +kernel
  have hscribbled : scribbled.Plain := by decide +kernel
  obtain ⟨hrows, hrun⟩ := cuts_same_of_mute_eq hmute .crlf (some 4)
  exact ⟨hmute, hgroove, hscribbled, hrows, hrun hgroove hscribbled⟩

end Document

end Toolpath
