import Toolpath.Proofs.Synthesis.Traverses

/-!
# The feed that a fragment remembers

A controller cuts at the feed that it was told last, whoever told it. A fragment leaves out a feed
that it takes to be in effect, so what it remembers must be what the last `F` of the program says.
The invariant relates the memory to the lines printed so far: if a feed is remembered, the last `F`
on them is its text. A fragment starts without a memory, so the invariant holds whatever was printed
before; and every command keeps it, unless it tells a feed in passing that is not remembered.

Lines are told by their texts. What they say is found in the statements that they are written for:
the feeds of a statement are the numbers of its words with an `F`, and only a statement of words can
be a cutting move.

## Main definitions

* `ProgramLine.lastFeed?` — the last `F` on some lines
* `ProgramLine.isCut` — a line begins with `G01`, `G02` or `G03`
* `Command.tellsAside` — a command tells a feed that is not remembered
* `Command.InEffect` — the feed remembered is the one told last

## Main results

* `Command.exists_of_isCut` — a cutting move is that of one command
* `Command.InEffect.step`, `Command.InEffect.run` — the memory stays right
-/

namespace Toolpath

namespace ProgramLine

/-! ### Feeds on lines -/

/-- What stands behind each `F` of a text, up to the next blank. -/
def feedsIn : List Char → List (List Char)
  | [] => []
  | c :: rest => if c = 'F' then rest.takeWhile (· != ' ') :: feedsIn rest else feedsIn rest

/-- The feeds that a line tells. -/
def feedsOn (line : List Char) : List (List Char) := feedsIn (outside false line)

/-- The feed that is told last on some lines. -/
def lastFeed? (lines : List (List Char)) : Option (List Char) := (lines.flatMap feedsOn).getLast?

/-- Whether a line is a cutting move. -/
def isCut (line : List Char) : Bool :=
  ["G01", "G02", "G03"].any fun code => line.takeWhile (· != ' ') == code.toList

theorem lastFeed?_append (lines more : List (List Char)) :
    lastFeed? (lines ++ more) = (lastFeed? more).or (lastFeed? lines) := by
  rw [lastFeed?, List.flatMap_append, List.getLast?_append]
  rfl

theorem feedsIn_append_of_not_mem {text : List Char} (h : 'F' ∉ text) (rest : List Char) :
    feedsIn (text ++ rest) = feedsIn rest := by
  induction text with
  | nil => rfl
  | cons c text ih =>
    obtain ⟨hc, htext⟩ := not_or.mp (mt List.mem_cons.mpr h)
    rw [List.cons_append, feedsIn, if_neg (Ne.symm hc), ih htext]

/-- A word tells a feed if its letter says so. -/
theorem feedsIn_chars {w : Word} (hw : w.Proper) {rest : List Char}
    (hrest : ∀ c ∈ rest.head?, (c != ' ') = false) :
    feedsIn (w.chars ++ rest) =
      (if w.letter = 'F' then [w.number.toList] else []) ++ feedsIn rest := by
  have hblank : ∀ c ∈ w.number.toList, (c != ' ') = true := by
    intro c hc
    rw [bne_iff_ne]
    rintro rfl
    exact hw.number.not_mem (by decide) hc
  rw [Word.chars, List.cons_append, feedsIn,
    feedsIn_append_of_not_mem (hw.number.not_mem (by decide)),
    (Decimal.takeWhile_append_of_head hblank hrest).1]
  split <;> rfl

/-- **The feeds on a line of words** are the numbers of its words with an `F`. -/
theorem feedsOn_row {ws : List Word} (hws : ∀ w ∈ ws, w.Proper) :
    feedsOn (Word.row ws) = (ws.filter fun w => w.letter = 'F').map (·.number.toList) := by
  have hspaced : feedsIn (Word.row ws) = feedsIn (ws.flatMap fun w => ' ' :: w.chars) := by
    cases ws with
    | nil => rfl
    | cons w ws =>
      rw [Word.row_cons]
      rfl
  rw [feedsOn, outside_row hws, hspaced]
  clear hspaced
  induction ws with
  | nil => rfl
  | cons w ws ih =>
    obtain ⟨hw, hws⟩ := List.forall_mem_cons.mp hws
    have hhead : ∀ c ∈ (ws.flatMap fun v => ' ' :: v.chars).head?, (c != ' ') = false := by
      intro c hc
      rw [Word.eq_space_of_head? ws c hc]
      rfl
    rw [List.flatMap_cons, List.cons_append, feedsIn, if_neg (by decide),
      feedsIn_chars hw hhead, ih hws]
    by_cases hletter : w.letter = 'F' <;> simp [hletter]

/-! ### Cutting moves -/

theorem head?_of_isCut {line : List Char} (h : isCut line = true) : line.head? = some 'G' := by
  obtain ⟨code, hcode, htake⟩ := List.any_eq_true.mp h
  have hhead : ∀ code ∈ ["G01", "G02", "G03"], code.toList.head? = some 'G' := by decide
  have hsome := hhead code hcode
  rw [← eq_of_beq htake] at hsome
  cases line with
  | nil => cases hsome
  | cons c rest =>
    rw [List.takeWhile_cons] at hsome
    split at hsome
    · exact hsome
    · cases hsome

/-- A line that does not begin with a function makes no move. -/
theorem isCut_of_head? {line : List Char} (h : line.head? ≠ some 'G') : isCut line = false :=
  Bool.eq_false_iff.mpr fun hcut => h (head?_of_isCut hcut)

/-- The first word of a line says whether it is a cutting move. -/
theorem isCut_row {w : Word} (ws : List Word) (hw : w.Proper) :
    isCut (Word.row (w :: ws)) = ["G01", "G02", "G03"].any fun code => w.chars == code.toList := by
  rw [isCut, (span_row ws hw).1]

end ProgramLine

/-! ### Statements -/

namespace Statement

open ProgramLine

/-- The feeds that a statement tells. -/
def feeds : Statement → List (List Char)
  | words ws => (ws.filter fun w => w.letter = 'F').map (·.number.toList)
  | _ => []

/-- Whether a statement is a cutting move. -/
def isCutting : Statement → Bool
  | words ws => isCut (Word.row ws)
  | _ => false

/-- Inside of a remark nothing is told, and nothing is moved. -/
theorem silent_of_outside {line : List Char} (h : outside false line = []) :
    feedsOn line = [] ∧ isCut line = false := by
  refine ⟨by rw [feedsOn, h]; rfl, isCut_of_head? fun hhead => ?_⟩
  obtain ⟨rest, rfl⟩ := List.head?_eq_some_iff.mp hhead
  cases h

variable (d : Dialect)

/-- The lines of a tidy statement are a row of words, or nothing is told on them. -/
theorem Tidy.lines {s : Statement} (hs : s.Tidy) :
    (∃ ws, s = .words ws ∧ (∀ w ∈ ws, w.Proper) ∧ linesOf d [s] = [Word.row ws]) ∨
      s.feeds = [] ∧ ∀ l ∈ linesOf d [s], feedsOn l = [] ∧ isCut l = false := by
  cases s with
  | words ws =>
    have hproper : ∀ w ∈ ws, w.Proper := fun w hw => (hs w hw).proper
    exact .inl ⟨ws, rfl, hproper, linesOf_words d hproper⟩
  | frame =>
    refine .inr ⟨rfl, ?_⟩
    rw [linesOf_eq, List.flatMap_singleton, lines_frame]
    exact List.forall_mem_singleton.mpr ⟨rfl, rfl⟩
  | remark t =>
    refine .inr ⟨rfl, fun l hl => ?_⟩
    rw [linesOf_eq, List.flatMap_singleton] at hl
    obtain ⟨part, -, hpart⟩ := exists_of_mem_lines_remark d hl
    exact silent_of_outside (outside_remark d.remarks hpart)
  | marker name values =>
    obtain ⟨hname, -, hvalues⟩ := hs
    refine .inr ⟨rfl, ?_⟩
    rw [linesOf_eq, List.flatMap_singleton, lines_marker d hname hvalues]
    exact List.forall_mem_singleton.mpr
      (silent_of_outside (outside_remark d.remarks (List.prefix_refl _)))
  | verbatim t => exact hs.elim

/-- **The feeds on the lines of tidy statements** are those of the statements. -/
theorem feedsOn_linesOf {ss : List Statement} (hss : ∀ s ∈ ss, s.Tidy) :
    (linesOf d ss).flatMap feedsOn = ss.flatMap feeds := by
  induction ss with
  | nil => rfl
  | cons s ss ih =>
    obtain ⟨hs, hss⟩ := List.forall_mem_cons.mp hss
    rw [← List.singleton_append, linesOf_append, List.flatMap_append, ih hss,
      List.singleton_append, List.flatMap_cons]
    congr 1
    rcases hs.lines d with ⟨ws, rfl, hproper, hlines⟩ | ⟨hfeeds, hsilent⟩
    · rw [hlines, List.flatMap_singleton, feedsOn_row hproper]
      rfl
    · rw [hfeeds, List.flatMap_eq_nil_iff]
      exact fun l hl => (hsilent l hl).1

/-- A cutting move on the lines of tidy statements is one of the statements. -/
theorem words_of_isCut {ss : List Statement} (hss : ∀ s ∈ ss, s.Tidy) {l : List Char}
    (hl : l ∈ linesOf d ss) (hcut : isCut l = true) : ∃ ws, .words ws ∈ ss ∧ l = Word.row ws := by
  rw [linesOf_eq, List.mem_flatMap] at hl
  obtain ⟨s, hs, hl⟩ := hl
  rw [← List.flatMap_singleton (fun s : Statement => Text.lines (s.text d).toList) s,
    ← linesOf_eq] at hl
  rcases (hss s hs).lines d with ⟨ws, rfl, -, hlines⟩ | ⟨-, hsilent⟩
  · rw [hlines] at hl
    exact ⟨ws, hs, List.mem_singleton.mp hl⟩
  · rw [(hsilent l hl).2] at hcut
    cases hcut

end Statement

namespace Dialect

open ProgramLine Statement

variable (d : Dialect)

theorem silent_opening (n : Nat) :
    ∀ s ∈ d.opening n, s.feeds = [] ∧ s.isCutting = false := by
  have hnumber : isCut (Word.row [Word.ofNat 'O' 5 (n % 100000)]) = false :=
    isCut_of_head? (by simp [Word.row_cons, Word.chars, Word.ofNat])
  unfold opening
  split
  · exact List.forall_mem_cons.mpr ⟨⟨rfl, rfl⟩, List.forall_mem_singleton.mpr ⟨rfl, hnumber⟩⟩
  · exact List.forall_mem_nil _

theorem silent_closing : ∀ s ∈ d.closing, s.feeds = [] ∧ s.isCutting = false := by
  have hend : isCut (Word.row [Word.m 30]) = false := by decide
  refine List.forall_mem_cons.mpr ⟨⟨rfl, hend⟩, ?_⟩
  split
  · exact List.forall_mem_singleton.mpr ⟨rfl, rfl⟩
  · exact List.forall_mem_nil _

theorem silent_toolChange (slot : Nat) :
    ∀ s ∈ d.toolChange slot, s.feeds = [] ∧ s.isCutting = false := by
  have hchange : isCut (Word.row [Word.ofNat 'T' 1 slot, Word.m 6]) = false :=
    isCut_of_head? (by simp [Word.row_cons, Word.chars, Word.ofNat])
  have hoffset : isCut (Word.row [Word.g 43, Word.ofNat 'H' 2 slot]) = false := by
    have hproper : (Word.g 43).Proper := Word.proper_ofNat rfl 2 43
    rw [isCut_row _ hproper]
    decide
  refine List.forall_mem_cons.mpr ⟨⟨rfl, hchange⟩, ?_⟩
  split
  · exact List.forall_mem_singleton.mpr ⟨rfl, hoffset⟩
  · exact List.forall_mem_nil _

end Dialect

/-! ### Commands -/

namespace Command

open ProgramLine Statement

section

variable {R : Type}

/-- Whether a command is written as a cutting move. -/
def isCutting : Command R → Bool
  | feedZ _ _ | feed _ _ | feedTo _ _ _ | arc _ _ _ _ => true
  | codes ws => isCut (Word.row ws)
  | _ => false

/-- Whether a command tells a feed in passing, that does not count as the one in effect. -/
def tellsAside : Command R → Bool
  | feedRate _ | peck _ _ _ _ _ => true
  | _ => false

variable [Scalar R]

/-- The feed in effect after a command is the one that it states, or the one before. -/
theorem feedAfter_eq (modal : Option R) (c : Command R) :
    c.feedAfter modal = (c.statedFeed? modal).or modal := by
  unfold feedAfter statedFeed?
  cases c.feed? with
  | none => cases modal <;> rfl
  | some asked =>
    cases modal with
    | none => rfl
    | some m =>
      by_cases hnear : Scalar.abs (m - asked) < Scalar.precision <;>
        simp [Option.filter_some, hnear]

/-- **The feed in effect after a command that asks for one** is near to it. -/
theorem exists_feedAfter {c : Command R} {asked : R} (hc : c.feed? = some asked)
    (modal : Option R) : ∃ told, c.feedAfter modal = some told ∧
      (told = asked ∨ Scalar.abs (told - asked) < Scalar.precision) := by
  unfold feedAfter
  rw [hc]
  cases modal with
  | none => exact ⟨asked, rfl, .inl rfl⟩
  | some m =>
    by_cases hnear : Scalar.abs (m - asked) < Scalar.precision
    · exact ⟨m, if_pos hnear, .inr hnear⟩
    · exact ⟨asked, if_neg hnear, .inl rfl⟩

end

variable (d : Dialect) (decimals : Nat)

/-- A motion is a cutting move only if it is one of those that ask for a feed. -/
theorem isCutting_of_isCut {stated : Option Double} {c : Command Double} (hc : c.numbers ≠ [])
    (h : isCut (Word.row (c.wordsOf decimals stated)) = true) : c.isCutting = true := by
  have hfunction (n : Nat) {ws : List Word} (hws : c.wordsOf decimals stated = Word.g n :: ws)
      (hn : (["G01", "G02", "G03"].any fun code => (Word.g n).chars == code.toList) = false) :
      c.isCutting = true := by
    have hproper : (Word.g n).Proper := Word.proper_ofNat rfl 2 n
    rw [hws, isCut_row ws hproper, hn] at h
    cases h
  have hother {w : Word} {ws : List Word} (hws : c.wordsOf decimals stated = w :: ws)
      (hw : w.letter ≠ 'G') : c.isCutting = true := by
    have hhead := head?_of_isCut h
    rw [hws, Word.row_cons] at hhead
    exact absurd (Option.some.inj hhead) hw
  cases c with
  | feedZ z f => rfl
  | feed p f => rfl
  | feedTo p z f => rfl
  | arc clockwise e i f => rfl
  | rapidZ z => exact hfunction 0 rfl (by decide)
  | rapid p => exact hfunction 0 rfl (by decide)
  | peck p z r q f => exact hfunction 83 rfl (by decide)
  | feedRate f => exact hother rfl (by decide : 'F' ≠ 'G')
  | hole p => exact hother rfl (by decide : 'X' ≠ 'G')
  | _ => exact absurd rfl hc

/-- The only feed of a motion is the one that it states, unless it tells one in passing. -/
theorem feeds_wordsOf {stated : Option Double} {c : Command Double}
    (haside : c.tellsAside = false) : (Statement.words (c.wordsOf decimals stated)).feeds =
      (stated.map fun told => (Decimal.coordinate decimals told).toList).toList := by
  have hcodes : c.motionCodes.filter (fun w => w.letter = 'F') = [] := by
    refine List.filter_eq_nil_iff.mpr fun w hw => ?_
    obtain ⟨n, -, rfl⟩ := exists_of_mem_motionCodes hw
    exact Bool.false_ne_true
  have hnumbers : ∀ entry ∈ c.numbers, entry.1 ≠ 'F' := by
    cases c with
    | feedRate f => cases haside
    | peck p z r q f => cases haside
    | _ => simp [numbers]
  have hwords : (c.numbers.map fun n => Word.ofScalar decimals n.1 n.2).filter
      (fun w => w.letter = 'F') = [] := by
    refine List.filter_eq_nil_iff.mpr fun w hw => ?_
    obtain ⟨entry, hentry, rfl⟩ := List.mem_map.mp hw
    exact mt of_decide_eq_true (hnumbers entry hentry)
  rw [Statement.feeds, wordsOf, List.filter_append, List.filter_append, hcodes, hwords]
  cases stated <;> rfl

/-- **The feeds of a command** that tells none in passing: the one that it states. -/
theorem feeds_statements {c : Command Double} (htidy : c.Tidy) (haside : c.tellsAside = false)
    (modal : Option Double) : (c.statements d decimals modal).flatMap Statement.feeds =
      ((c.statedFeed? modal).map fun told => (Decimal.coordinate decimals told).toList).toList := by
  have hstated (hfeed : c.feed? = none) : c.statedFeed? modal = none := by
    cases modal <;> simp [statedFeed?, hfeed]
  have hsilent (hfeed : c.feed? = none)
      (h : ∀ s ∈ c.statements d decimals modal, s.feeds = []) :
      (c.statements d decimals modal).flatMap Statement.feeds =
        ((c.statedFeed? modal).map fun told =>
          (Decimal.coordinate decimals told).toList).toList := by
    rw [List.flatMap_eq_nil_iff.mpr h, hstated hfeed]
    rfl
  cases c with
  | verbatim t => exact htidy.elim
  | remark t => exact hsilent rfl (List.forall_mem_singleton.mpr rfl)
  | marker name values => exact hsilent rfl (List.forall_mem_singleton.mpr rfl)
  | codes ws =>
    refine hsilent rfl (List.forall_mem_singleton.mpr ?_)
    rw [Statement.feeds, List.map_eq_nil_iff, List.filter_eq_nil_iff]
    intro w hw hletter
    have hletters : ∀ l ∈ ['G', 'M', 'S'], l ≠ 'F' := by simp
    exact hletters _ (htidy w hw).letter (of_decide_eq_true hletter)
  | programStart n => exact hsilent rfl fun s hs => (d.silent_opening n s hs).1
  | programEnd => exact hsilent rfl fun s hs => (d.silent_closing s hs).1
  | toolChange slot => exact hsilent rfl fun s hs => (d.silent_toolChange slot s hs).1
  | _ => exact (List.flatMap_singleton _ _).trans (feeds_wordsOf decimals haside)

/-- A cutting move stands alone among the lines of its command. -/
theorem eq_singleton_of_isCut {c : Command Double} (htidy : c.Tidy) {modal : Option Double}
    {line : List Char} (hline : line ∈ linesOf d (c.statements d decimals modal))
    (hcut : isCut line = true) :
    linesOf d (c.statements d decimals modal) = [line] ∧ c.isCutting = true := by
  obtain ⟨ws, hws, rfl⟩ := words_of_isCut d (tidy_statements htidy d decimals modal) hline hcut
  have hnever (h : ∀ s ∈ c.statements d decimals modal, s.isCutting = false) :
      linesOf d (c.statements d decimals modal) = [Word.row ws] ∧ c.isCutting = true :=
    absurd hcut (Bool.eq_false_iff.mp (h _ hws))
  have hmotion (hnumbers : c.numbers ≠ []) :
      linesOf d (c.statements d decimals modal) = [Word.row ws] ∧ c.isCutting = true := by
    rw [linesOf_motion d decimals hnumbers] at hline ⊢
    rw [List.mem_singleton.mp hline] at hcut ⊢
    exact ⟨rfl, isCutting_of_isCut decimals hnumbers hcut⟩
  cases c with
  | verbatim t => exact htidy.elim
  | remark t => cases List.mem_singleton.mp hws
  | marker name values => cases List.mem_singleton.mp hws
  | codes us =>
    obtain ⟨⟩ := List.mem_singleton.mp hws
    exact ⟨linesOf_words d fun w hw => (htidy w hw).written.proper, hcut⟩
  | programStart n => exact hnever fun s hs => (d.silent_opening n s hs).2
  | programEnd => exact hnever fun s hs => (d.silent_closing s hs).2
  | toolChange slot => exact hnever fun s hs => (d.silent_toolChange slot s hs).2
  | _ => exact hmotion (List.cons_ne_nil _ _)

/-- **A cutting move is that of one command**: what stands before it is written for those before. -/
theorem exists_of_isCut {cs : List (Command Double)} (htidy : ∀ c ∈ cs, c.Tidy)
    {modal : Option Double} {before after : List (List Char)} {line : List Char}
    (h : linesOf d (writeFrom d decimals modal cs) = before ++ line :: after)
    (hcut : isCut line = true) : ∃ front c back, cs = front ++ c :: back ∧
      before = linesOf d (writeFrom d decimals modal front) ∧
      linesOf d (c.statements d decimals (front.foldl feedAfter modal)) = [line] ∧
      c.isCutting = true := by
  induction cs generalizing modal before with
  | nil => exact absurd h.symm (List.append_ne_nil_of_right_ne_nil _ (List.cons_ne_nil _ _))
  | cons c cs ih =>
    obtain ⟨hc, hcs⟩ := List.forall_mem_cons.mp htidy
    rw [writeFrom, linesOf_append] at h
    rcases exists_of_append_eq_append_cons h with ⟨rest, hhere⟩ | ⟨between, rfl, hrest⟩
    · have hmem : line ∈ linesOf d (c.statements d decimals modal) := by
        rw [hhere]
        exact List.mem_append_right before List.mem_cons_self
      obtain ⟨hline, hcutting⟩ := eq_singleton_of_isCut d decimals hc hmem hcut
      have hbefore : before = [] := by
        have hlength := congrArg List.length (hhere.symm.trans hline)
        rw [List.length_append, List.length_cons, List.length_singleton] at hlength
        exact List.length_eq_zero_iff.mp (by omega)
      exact ⟨[], c, cs, rfl, hbefore, hline, hcutting⟩
    · obtain ⟨front, c', back, rfl, rfl, hline, hcutting⟩ := ih hcs hrest
      refine ⟨c :: front, c', back, rfl, ?_, hline, hcutting⟩
      rw [writeFrom, linesOf_append]

/-! ### The memory of a fragment -/

/-- **The feed remembered is the one told last** on the lines printed so far. -/
def InEffect (printed : List (List Char)) (modal : Option Double) : Prop :=
  ∀ told ∈ modal, lastFeed? printed = some (Decimal.coordinate decimals told).toList

/-- Where a fragment starts nothing is remembered, so what was told before does not matter. -/
theorem inEffect_none (printed : List (List Char)) : InEffect decimals printed none := nofun

variable {decimals} in
/-- A command that tells no feed in passing keeps the memory right. -/
theorem InEffect.step {printed : List (List Char)} {modal : Option Double} {c : Command Double}
    (h : InEffect decimals printed modal) (htidy : c.Tidy) (haside : c.tellsAside = false) :
    InEffect decimals (printed ++ linesOf d (c.statements d decimals modal))
      (c.feedAfter modal) := by
  intro told htold
  have hlast : lastFeed? (linesOf d (c.statements d decimals modal)) =
      (c.statedFeed? modal).map fun told => (Decimal.coordinate decimals told).toList := by
    rw [lastFeed?, feedsOn_linesOf d (tidy_statements htidy d decimals modal),
      feeds_statements d decimals htidy haside]
    cases c.statedFeed? modal <;> rfl
  rw [feedAfter_eq] at htold
  rw [lastFeed?_append, hlast]
  cases hstated : c.statedFeed? modal with
  | none =>
    rw [hstated, Option.none_or] at htold
    exact h told htold
  | some stated =>
    rw [hstated] at htold
    obtain rfl := Option.some.inj htold
    rfl

variable {decimals} in
theorem InEffect.run {printed : List (List Char)} {modal : Option Double}
    {cs : List (Command Double)} (h : InEffect decimals printed modal)
    (hcs : ∀ c ∈ cs, c.Tidy ∧ c.tellsAside = false) :
    InEffect decimals (printed ++ linesOf d (writeFrom d decimals modal cs))
      (cs.foldl feedAfter modal) := by
  induction cs generalizing printed modal with
  | nil =>
    have hnil : linesOf d (writeFrom d decimals modal []) = [] := rfl
    rw [hnil, List.append_nil]
    exact h
  | cons c cs ih =>
    obtain ⟨⟨htidy, haside⟩, hcs⟩ := List.forall_mem_cons.mp hcs
    have hrest := ih (h.step d htidy haside) hcs
    rw [List.append_assoc, ← linesOf_append] at hrest
    exact hrest

-- A move at the feed in effect does not state it again.
example : linesOf ⟨.parentheses, false, false⟩ (write ⟨.parentheses, false, false⟩ 0
    [.feedZ (-1) (5 : Double), .feed ⟨1, 0⟩ (some 8), .feed ⟨2, 0⟩ (some 8)]) =
    ["G01 Z-1 F5".toList, "G01 X1 Y0 F8".toList, "G01 X2 Y0".toList] := by
  decide +kernel

end Command

end Toolpath
