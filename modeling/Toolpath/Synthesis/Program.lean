import Toolpath.Synthesis.Blocks

/-!
# Programs

Synthesis turns a document into a program. Every block of the top level yields a fragment: its own
statements, and for a group those of its children in order. Within a block the feed is modal;
every block starts anew, so a fragment does not depend on what stands before it. A suppressed block
yields nothing, and neither does anything below it.

The fragments and the reasons why blocks yield nothing are kept in the document. Only what was
reached gets a new status, and only blocks of the top level get program text. A fragment is kept as
soon as there is one, the reasons when all fragments are there.
-/

namespace Toolpath

/-- The outcome of synthesis for a subtree. -/
structure Emission where
  /-- The statements. -/
  statements : List Statement
  /-- The blocks that were reached, each with the reason why it yields nothing, if it does not. -/
  verdicts : List (NodeId × Option SynthesisError)
deriving DecidableEq, Repr

namespace Emission

/-- No statements and no blocks. -/
def empty : Emission := ⟨[], []⟩

/-- One outcome behind another. -/
def append (a b : Emission) : Emission := ⟨a.statements ++ b.statements, a.verdicts ++ b.verdicts⟩

instance : Append Emission := ⟨append⟩

@[simp] theorem statements_append (a b : Emission) :
    (a ++ b).statements = a.statements ++ b.statements := rfl

@[simp] theorem verdicts_append (a b : Emission) :
    (a ++ b).verdicts = a.verdicts ++ b.verdicts := rfl

end Emission

/-- How a program is written. -/
structure ProgramFormat where
  /-- The dialect. -/
  dialect : Dialect
  /-- The number of decimal places. -/
  decimals : Nat
deriving DecidableEq, Repr, Inhabited

namespace BlockKind

/-- Whether a block of the kind stands for its children in a program. -/
def isGroup : BlockKind → Bool
  | template | svg | gerber | excellon => true
  | _ => false

end BlockKind

namespace Document

variable {R S : Type} [Analytic R] [Storage R S] [Numeral R]

/-- The outcome for a block itself, without its children. -/
def emitBlock (d : Document R S) (f : ProgramFormat) (id : NodeId) (b : Block R S) : Emission :=
  match d.commands f.decimals id b with
  | .ok cs => ⟨Command.write f.dialect f.decimals cs, [(id, none)]⟩
  | .error e => ⟨[], [(id, some e)]⟩

mutual

/-- The outcome for a block and everything below it. -/
def emit (d : Document R S) (f : ProgramFormat) : Branch (NodeId × Block R S) → Emission
  | .node (id, b) lists =>
    if b.flags.suppressed then ⟨[], [(id, none)]⟩
    else if b.kind.isGroup then
      let own := d.emitBlock f id b
      let below := emitLists d f lists
      ⟨own.statements ++ below.statements, below.verdicts ++ own.verdicts⟩
    else d.emitBlock f id b

/-- The outcome for the first of some lists. -/
def emitLists (d : Document R S) (f : ProgramFormat) :
    List (List (Branch (NodeId × Block R S))) → Emission
  | [] => .empty
  | l :: _ => emitForest d f l

/-- The outcome for blocks one after the other. -/
def emitForest (d : Document R S) (f : ProgramFormat) :
    List (Branch (NodeId × Block R S)) → Emission
  | [] => .empty
  | b :: bs => emit d f b ++ emitForest d f bs

end

/-- How programs of the document are written, with a number of decimal places other than its own if
one is given. -/
def format (d : Document R S) (decimals : Option Nat) : ProgramFormat :=
  ⟨Dialect.ofController d.machine.controller,
    decimals.getD d.machine.effectiveDecimals.toNat⟩

/-- The outcome for a block that is named, with everything below it. A block that is gone has
none. -/
def outcome (d : Document R S) (f : ProgramFormat) (id : NodeId) : Emission :=
  match d.tree.branch? id with
  | some b => d.emit f b
  | none => .empty

/-- The program text of one block and everything below it, in a format. -/
def written (d : Document R S) (f : ProgramFormat) (id : NodeId) : String :=
  Statement.program f.dialect (d.outcome f id).statements

/-- The program text of one block and everything below it. -/
def fragment (d : Document R S) (id : NodeId) : String := d.written (d.format none) id

/-- Program text left on a block. -/
def leaveCode (d : Document R S) (c : NodeId × String) : Document R S :=
  d.modify c.1 fun b => { b with code := c.2 }

/-- The status that a verdict leaves on a block. -/
def statusOf (verdict : Option SynthesisError) : String :=
  (verdict.map SynthesisError.message).getD ""

/-- A verdict left on a block. -/
def leaveStatus (d : Document R S) (v : NodeId × Option SynthesisError) : Document R S :=
  d.modify v.1 fun b => { b with status := statusOf v.2 }

/-- A document whose synthesis is under way: program text is left on the blocks that were visited,
and the verdicts so far are kept aside. -/
structure Underway (R S : Type) where
  /-- The document. -/
  document : Document R S
  /-- The verdicts. -/
  verdicts : List (NodeId × Option SynthesisError)

/-- A block of the top level visited. Its program text is left on it at once, so what comes behind
is synthesized in a document that has the text. -/
def Underway.visit (f : ProgramFormat) (ending : LineEnding) (s : Underway R S) (id : NodeId) :
    Underway R S :=
  ⟨s.document.leaveCode (id, ending.apply (s.document.written f id)),
    s.verdicts ++ (s.document.outcome f id).verdicts⟩

/-- The program text on the blocks of the top level. -/
def programText (d : Document R S) : String :=
  String.join ((d.tree.members d.root).filterMap fun id => (d.get? id).map (·.code))

/-- The program of a document, and the document with the fragments and statuses of this synthesis.
-/
def generate (d : Document R S) (ending : LineEnding) (decimals : Option Nat) :
    String × Document R S :=
  let s := (d.tree.members d.root).foldl (Underway.visit (d.format decimals) ending) ⟨d, []⟩
  let d := s.verdicts.foldl leaveStatus s.document
  (d.programText, d)

end Document

end Toolpath
