import Toolpath.Project.Record
import Toolpath.Proofs.Gcode.Words
import Toolpath.Proofs.Synthesis.Fragments

/-!
# The statements of programs

Text that is taken over as it stands can say anything. Where a document has none, the statements of
its program are remarks, frames, markers of two kinds, and lines of words: each word is a capital
letter with the text of a number, and the preparatory functions among them are a few known ones.

## Main definitions

* `Word.preparatory` — the preparatory functions that programs select
* `Word.Written` — the words of programs
* `Statement.Tidy`, `Command.Tidy` — what statements and commands are made of

## Main results

* `Document.tidy_of_commands` — what a block contributes is tidy, unless it is text taken over
* `Document.tidy_of_mem_own`, `Document.tidy_of_mem_statements` — so are the statements of a program
-/

namespace Toolpath

/-! ### Words of programs -/

namespace Word

/-- The preparatory functions that programs select. -/
def preparatory : List Nat :=
  [0, 1, 2, 3, 17, 20, 21, 40, 43, 49, 54, 55, 56, 57, 58, 59, 80, 83, 90]

/-- The words of programs: a preparatory function is one of those that are known. -/
structure Written (w : Word) : Prop where
  /-- A capital letter with the text of a number. -/
  proper : w.Proper
  /-- A known function. -/
  known : w.letter = 'G' → ∃ n ∈ preparatory, w = Word.g n

/-- The words on lines of codes. -/
inductive Code : Word → Prop where
  /-- A preparatory function. -/
  | g {n : Nat} (h : n ∈ preparatory) : Code (Word.g n)
  /-- An auxiliary function. -/
  | m (n : Nat) : Code (Word.m n)
  /-- The speed of the spindle. -/
  | speed (n : Nat) : Code (Word.ofNat 'S' 1 n)

theorem Code.letter {w : Word} (h : w.Code) : w.letter ∈ ['G', 'M', 'S'] := by
  cases h <;> simp [Word.g, Word.m, ofNat]

theorem proper_ofNat {letter : Char} (h : letter.isUpper = true) (width n : Nat) :
    (ofNat letter width n).Proper :=
  ⟨h, Decimal.printed_padZeros width n⟩

theorem written_ofNat {letter : Char} (h : letter.isUpper = true) (hg : letter ≠ 'G')
    (width n : Nat) : (ofNat letter width n).Written :=
  ⟨proper_ofNat h width n, fun heq => absurd heq hg⟩

theorem written_g {n : Nat} (h : n ∈ preparatory) : (g n).Written :=
  ⟨proper_ofNat rfl 2 n, fun _ => ⟨n, h, rfl⟩⟩

theorem written_ofScalar {letter : Char} (h : letter.isUpper = true) (hg : letter ≠ 'G')
    (decimals : Nat) (x : Double) : (ofScalar decimals letter x).Written :=
  ⟨⟨h, Decimal.printed_coordinate decimals x⟩, fun heq => absurd heq hg⟩

theorem Code.written {w : Word} (h : w.Code) : w.Written := by
  cases h with
  | g hn => exact written_g hn
  | m n => exact written_ofNat rfl (by decide) 2 n
  | speed n => exact written_ofNat rfl (by decide) 1 n

end Word

/-! ### What statements are made of -/

/-- A statement of a program in which nothing is taken over. -/
def Statement.Tidy : Statement → Prop
  | words ws => ∀ w ∈ ws, w.Written
  | frame => True
  | remark _ => True
  | marker name values => name ∈ Marker.names ∧ (Marker.ofNumbers? name values).isSome = true ∧
      ∀ v ∈ values, Decimal.Printed v
  | verbatim _ => False

/-- Whether numbers make a marker is only a matter of how many there are. -/
theorem Marker.isSome_ofNumbers?_map {A B : Type} (g : A → B) (name : String) (values : List A) :
    (Marker.ofNumbers? name (values.map g)).isSome = (Marker.ofNumbers? name values).isSome := by
  unfold Marker.ofNumbers?
  split
  · cases values <;> rfl
  · split
    · rcases values with _ | ⟨x, _ | ⟨y, _ | ⟨z, rest⟩⟩⟩ <;> rfl
    · rfl

namespace Dialect

variable (d : Dialect)

theorem tidy_opening (n : Nat) : ∀ s ∈ d.opening n, s.Tidy := by
  unfold opening
  split
  · have hnumber : (Word.ofNat 'O' 5 (n % 100000)).Written := Word.written_ofNat rfl (by decide) _ _
    simpa [Statement.Tidy] using hnumber
  · exact List.forall_mem_nil _

theorem tidy_closing : ∀ s ∈ d.closing, s.Tidy := by
  have hend : (Word.m 30).Written := (Word.Code.m 30).written
  unfold closing
  split <;> simpa [Statement.Tidy] using hend

theorem tidy_toolChange (slot : Nat) : ∀ s ∈ d.toolChange slot, s.Tidy := by
  have hslot : (Word.ofNat 'T' 1 slot).Written := Word.written_ofNat rfl (by decide) _ _
  have hchange : (Word.m 6).Written := (Word.Code.m 6).written
  have hoffset : (Word.g 43).Written := Word.written_g (by decide)
  have hlength : (Word.ofNat 'H' 2 slot).Written := Word.written_ofNat rfl (by decide) _ _
  unfold toolChange
  split
  · simpa [Statement.Tidy] using ⟨⟨hslot, hchange⟩, hoffset, hlength⟩
  · simpa [Statement.Tidy] using ⟨hslot, hchange⟩

end Dialect

namespace Command

/-- A command that is written in tidy statements. -/
def Tidy : Command Double → Prop
  | verbatim _ => False
  | marker name values => name ∈ Marker.names ∧ (Marker.ofNumbers? name values).isSome = true
  | codes ws => ∀ w ∈ ws, w.Code
  | _ => True

section

variable {R : Type}

theorem exists_of_mem_motionCodes {c : Command R} {w : Word} (hw : w ∈ c.motionCodes) :
    ∃ n ∈ Word.preparatory, w = Word.g n := by
  cases c with
  | rapidZ z => exact ⟨0, by decide, List.mem_singleton.mp hw⟩
  | rapid p => exact ⟨0, by decide, List.mem_singleton.mp hw⟩
  | feedZ z f => exact ⟨1, by decide, List.mem_singleton.mp hw⟩
  | feed p f => exact ⟨1, by decide, List.mem_singleton.mp hw⟩
  | feedTo p z f => exact ⟨1, by decide, List.mem_singleton.mp hw⟩
  | arc clockwise e c f =>
    refine ⟨if clockwise then 2 else 3, ?_, List.mem_singleton.mp hw⟩
    cases clockwise <;> decide
  | peck p z r q f => exact ⟨83, by decide, List.mem_singleton.mp hw⟩
  | _ => cases hw

/-- The letters under which motions have numbers. -/
def letters : List Char := ['X', 'Y', 'Z', 'I', 'J', 'R', 'Q', 'F']

theorem letter_of_mem_numbers {c : Command R} {entry : Char × R} (h : entry ∈ c.numbers) :
    entry.1 ∈ letters := by
  cases c <;> simp only [numbers, List.mem_cons, List.not_mem_nil, or_false] at h <;>
    rcases h with rfl | rfl | rfl | rfl | rfl | rfl <;> simp [letters]

/-- The words of a motion are preparatory functions and numbers under a few letters. -/
theorem exists_of_mem_motion [Numeral R] {c : Command R} {decimals : Nat} {stated : Option R}
    {w : Word} (hw : w ∈ c.motionCodes ++ c.numbers.map (fun n => Word.ofScalar decimals n.1 n.2)
      ++ (stated.map (Word.ofScalar decimals 'F')).toList) :
    (∃ n ∈ Word.preparatory, w = Word.g n) ∨
      ∃ letter ∈ letters, ∃ x : R, w = Word.ofScalar decimals letter x := by
  rw [List.mem_append, List.mem_append, List.mem_map] at hw
  rcases hw with (hw | ⟨entry, hentry, rfl⟩) | hw
  · exact Or.inl (exists_of_mem_motionCodes hw)
  · exact Or.inr ⟨entry.1, letter_of_mem_numbers hentry, entry.2, rfl⟩
  · obtain ⟨x, -, rfl⟩ := Option.map_eq_some_iff.mp (Option.mem_toList.mp hw)
    exact Or.inr ⟨'F', by decide, x, rfl⟩

end

/-- A motion is written as words that are known. -/
theorem written_of_motion {c : Command Double} {decimals : Nat} {stated : Option Double} :
    ∀ w ∈ c.motionCodes ++ c.numbers.map (fun n => Word.ofScalar decimals n.1 n.2)
      ++ (stated.map (Word.ofScalar decimals 'F')).toList, w.Written := by
  intro w hw
  rcases exists_of_mem_motion hw with ⟨n, hn, rfl⟩ | ⟨letter, hletter, x, rfl⟩
  · exact Word.written_g hn
  · have hletters : ∀ c ∈ letters, c.isUpper = true ∧ c ≠ 'G' := by simp [letters]
    obtain ⟨hupper, hg⟩ := hletters letter hletter
    exact Word.written_ofScalar hupper hg decimals x

/-- **A tidy command** is written in tidy statements. -/
theorem tidy_statements {c : Command Double} (h : c.Tidy) (d : Dialect) (decimals : Nat)
    (modal : Option Double) : ∀ s ∈ c.statements d decimals modal, s.Tidy := by
  cases c with
  | verbatim t => exact h.elim
  | remark t => exact List.forall_mem_singleton.mpr trivial
  | marker name values =>
    obtain ⟨hname, hvalues⟩ := h
    refine List.forall_mem_singleton.mpr ⟨hname, ?_, ?_⟩
    · rw [Marker.isSome_ofNumbers?_map]
      exact hvalues
    · intro v hv
      obtain ⟨x, -, rfl⟩ := List.mem_map.mp hv
      exact Decimal.printed_coordinate decimals x
  | codes ws => exact List.forall_mem_singleton.mpr fun w hw => (h w hw).written
  | programStart n => exact d.tidy_opening n
  | programEnd => exact d.tidy_closing
  | toolChange slot => exact d.tidy_toolChange slot
  | _ => exact List.forall_mem_singleton.mpr written_of_motion

/-- Moves are tidy. -/
theorem tidy_of_isMove {c : Command Double} (h : c.isMove = true) : c.Tidy := by
  cases c with
  | codes ws =>
    obtain rfl : ws = [Word.g 80] := of_decide_eq_true h
    exact List.forall_mem_singleton.mpr (.g (by decide))
  | verbatim t => cases h
  | marker name values => cases h
  | _ => trivial

end Command

/-! ### What blocks contribute -/

namespace Document

open Command

variable {d : Project} {f : ProgramFormat} {p : NodeId × StoredBlock}

theorem tidy_headerCommands (d : Project) (comment : String) (h : Header) :
    ∀ c ∈ d.headerCommands comment h, c.Tidy := by
  have hmodes : ∀ w ∈ [17, 40, 49, 80, 90].map Word.g, w.Code := by
    intro w hw
    obtain ⟨n, hn, rfl⟩ := List.mem_map.mp hw
    exact .g ((by decide : ∀ n ∈ [17, 40, 49, 80, 90], n ∈ Word.preparatory) n hn)
  have hunit : (unitCode d.material.units).Code := by
    cases d.material.units <;> exact .g (by decide)
  have hsystem : (Word.g (54 + min h.coordinateSystem.toNat 5)).Code := by
    have hsystems : ∀ k < 6, 54 + k ∈ Word.preparatory := by decide
    exact .g (hsystems _ (by omega))
  simp only [headerCommands, List.forall_mem_cons, List.not_mem_nil, IsEmpty.forall_iff,
    implies_true, and_true]
  exact ⟨trivial, trivial, trivial, hmodes, List.forall_mem_singleton.mpr hunit,
    List.forall_mem_singleton.mpr hsystem, ⟨by decide, rfl⟩, trivial⟩

theorem tidy_footerCommands (d : Project) (comment : String) (f : Footer Double) :
    ∀ c ∈ d.footerCommands comment f, c.Tidy := by
  have hretract : ∀ c ∈ (f.retract.map Command.rapid).toList, c.Tidy := by
    cases f.retract with
    | none => exact List.forall_mem_nil _
    | some place => exact List.forall_mem_singleton.mpr trivial
  have hcodes (n : Nat) : (codes [Word.m n] : Command Double).Tidy :=
    List.forall_mem_singleton.mpr (.m n)
  simp only [footerCommands, List.forall_mem_append, List.forall_mem_cons, List.not_mem_nil,
    IsEmpty.forall_iff, implies_true, and_true]
  exact ⟨⟨⟨trivial, trivial⟩, hretract⟩, hcodes 5, hcodes 9, trivial⟩

theorem tidy_toolCommands (d : Project) (decimals : Nat) (comment : String) (t : Tool Double) :
    ∀ c ∈ d.toolCommands decimals comment t, c.Tidy := by
  have hcodes (n : Nat) : (codes [Word.m n] : Command Double).Tidy :=
    List.forall_mem_singleton.mpr (.m n)
  have hprompt : ∀ c ∈ (if t.prompt || d.machine.prompts then promptCommands t else []),
      c.Tidy := by
    split
    · exact List.forall_mem_cons.mpr ⟨trivial, List.forall_mem_singleton.mpr (hcodes 0)⟩
    · exact List.forall_mem_nil _
  have hspindle (n : Nat) : (codes [Word.ofNat 'S' 1 t.spindleSpeed.toNat, Word.m n] :
      Command Double).Tidy :=
    List.forall_mem_cons.mpr ⟨.speed _, List.forall_mem_singleton.mpr (.m n)⟩
  simp only [toolCommands, List.forall_mem_append, List.forall_mem_cons, List.not_mem_nil,
    IsEmpty.forall_iff, implies_true, and_true]
  exact ⟨⟨⟨trivial, ⟨by decide, rfl⟩, trivial, hcodes 5⟩, hprompt⟩, trivial, hspindle _, hcodes _,
    trivial⟩

/-- **What a block contributes is tidy**, unless it is text taken over. -/
theorem tidy_of_commands {decimals : Nat} {cs : List (Command Double)}
    (h : d.commands decimals p.1 p.2 = .ok cs) (hcode : p.2.kind ≠ .code) : ∀ c ∈ cs, c.Tidy := by
  cases composed_of_commands h with
  | header => exact d.tidy_headerCommands _ _
  | footer => exact d.tidy_footerCommands _ _
  | tool => exact d.tidy_toolCommands _ _ _
  | code hb => exact absurd (congrArg Payload.kind hb) hcode
  | cuts hcs =>
    obtain ⟨rest, rfl, hrest⟩ := hcs
    exact List.forall_mem_cons.mpr ⟨trivial, fun c hc => tidy_of_isMove (hrest c hc)⟩
  | nothing => exact List.forall_mem_nil _

/-- **The statements of a block are tidy**, unless it is text taken over. -/
theorem tidy_of_mem_own (hcode : p.2.kind ≠ .code) : ∀ s ∈ d.own f p, s.Tidy := by
  intro s hs
  obtain ⟨cs, hcs⟩ := d.exists_commands_of_own f (List.ne_nil_of_mem hs)
  rw [d.own_of_commands f hcs] at hs
  obtain ⟨c, hc, modal, hs⟩ := exists_of_mem_writeFrom hs
  exact tidy_statements (tidy_of_commands hcs hcode c hc) f.dialect f.decimals modal s hs

/-- **The statements of a program are tidy** where nothing is taken over. -/
theorem tidy_of_mem_statements (hcode : ∀ p ∈ d.reached, p.2.kind ≠ .code) :
    ∀ s ∈ d.statements f, s.Tidy := by
  intro s hs
  rw [statements_eq] at hs
  obtain ⟨p, hp, hs⟩ := List.mem_flatMap.mp hs
  exact tidy_of_mem_own (hcode p hp) s hs

end Document

end Toolpath
