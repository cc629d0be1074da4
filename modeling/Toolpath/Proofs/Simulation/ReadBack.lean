import Toolpath.Proofs.Gcode.Rows
import Toolpath.Proofs.Synthesis.Statements
import Toolpath.Simulation.Head

/-!
# A program is read as it was written

Writing and reading share nothing but the text. Still a simulation reads every word that synthesis
wrote, in order and with the value of its printed number, and every marker, as long as no number is
infinite or undefined and no text is taken over as it stands. The preparatory functions that it
meets are those that it obeys, and some that do not concern the stock.

## Main definitions

* `Head.implemented`, `Head.inert` — the preparatory functions that are obeyed and passed over
* `Statement.readings` — what is read from the lines of a statement
* `Statement.ReadsAs` — what a statement is to be read as

## Main results

* `Statement.readsAs_of_tidy` — a tidy statement is read as what it says
* `Document.reads_back` — a program is read as it was written
-/

namespace Toolpath

/-! ### Functions that are obeyed -/

namespace Head

/-- The preparatory functions that change how a head moves. -/
def implemented : List Nat := [0, 1, 2, 3, 80, 81, 82, 83, 90, 91]

/-- Preparatory functions for a dwell, a plane, a unit, compensations and coordinate systems: the
stock does not see them. -/
def inert : List Nat := [4, 17, 20, 21, 40, 43, 49, 54, 55, 56, 57, 58, 59]

end Head

/-! ### What a statement is read as -/

theorem exists_map_some {α β : Type} {f : α → Option β} {xs : List α}
    (h : ∀ x ∈ xs, (f x).isSome = true) : ∃ ys : List β, xs.map f = ys.map some := by
  induction xs with
  | nil => exact ⟨[], rfl⟩
  | cons x xs ih =>
    obtain ⟨hx, hxs⟩ := List.forall_mem_cons.mp h
    obtain ⟨y, hy⟩ := Option.isSome_iff_exists.mp hx
    obtain ⟨ys, hys⟩ := ih hxs
    exact ⟨y :: ys, by rw [List.map_cons, List.map_cons, hy, hys]⟩

namespace Statement

/-- Whether no number of a statement is infinite or undefined. -/
def isFinite : Statement → Bool
  | words ws => ws.all fun w => !Decimal.names.contains w.number
  | marker _ values => values.all fun v => !Decimal.names.contains v
  | _ => true

/-- Whether a statement is a marker. -/
def isMarker : Statement → Bool
  | marker _ _ => true
  | _ => false

/-- What is read from the lines of a statement. -/
def readings (d : Dialect) (s : Statement) : List (ProgramLine Double) :=
  (Text.lines (s.text d).toList).map ProgramLine.read

/-- What the lines of a statement are to be read as: a line of words word by word, each with the
value of the text of its number, and a marker with the values of its texts. A remark has no words;
markers may be read from it, since it is free text. -/
def ReadsAs : Statement → List (ProgramLine Double) → Prop
  | words ws, rows => ∃ as, ws.map Word.address? = as.map some ∧ rows = [⟨as, []⟩]
  | frame, rows => rows = [⟨[], []⟩]
  | remark _, rows => ∀ l ∈ rows, l.words = []
  | marker name values, rows =>
    ∃ xs m, (values.map fun v => Decimal.read? v.toList) = xs.map some ∧
      Marker.ofNumbers? name xs = some m ∧ rows = [⟨[], [m]⟩]
  | verbatim _, _ => False

theorem readings_frame (d : Dialect) : frame.readings d = [⟨[], []⟩] := by
  rw [readings, lines_frame]
  rfl

theorem readsAs_words (d : Dialect) {ws : List Word} (hws : ∀ w ∈ ws, w.Proper)
    (hfinite : ∀ w ∈ ws, w.number ∉ Decimal.names) :
    (words ws).ReadsAs ((words ws).readings d) := by
  have hread : ∀ w ∈ ws, (w.address? : Option (Address Double)).isSome = true := by
    intro w hw
    rw [Word.address?, Option.isSome_map]
    exact ((hws w hw).number.writtenOut (hfinite w hw)).read?_isSome
  obtain ⟨as, has⟩ := exists_map_some hread
  have hall : ws.filterMap Word.address? = as := by
    calc ws.filterMap Word.address? = (ws.map Word.address?).filterMap id := by
          rw [List.filterMap_map]
          rfl
      _ = as := by rw [has, List.filterMap_map, Function.id_comp, List.filterMap_some]
  refine ⟨as, has, ?_⟩
  rw [readings, lines_words d hws, List.map_singleton, ProgramLine.read_row hws, hall]

theorem readsAs_remark (d : Dialect) (t : String) : (remark t).ReadsAs ((remark t).readings d) := by
  intro l hl
  obtain ⟨line, hline, rfl⟩ := List.mem_map.mp hl
  obtain ⟨part, -, hpart⟩ := exists_of_mem_lines_remark d hline
  exact ProgramLine.words_remark d.remarks hpart

theorem readsAs_marker (d : Dialect) {name : String} {values : List String}
    (hname : name ∈ Marker.names) (hsome : (Marker.ofNumbers? name values).isSome = true)
    (hvalues : ∀ v ∈ values, Decimal.WrittenOut v.toList) :
    (marker name values).ReadsAs ((marker name values).readings d) := by
  obtain ⟨xs, hxs⟩ := exists_map_some fun v hv => (hvalues v hv).read?_isSome
  have hmarker : (Marker.ofNumbers? name xs).isSome = true := by
    rw [← Marker.isSome_ofNumbers?_map some, ← hxs, Marker.isSome_ofNumbers?_map]
    exact hsome
  obtain ⟨m, hm⟩ := Option.isSome_iff_exists.mp hmarker
  refine ⟨xs, m, hxs, hm, ?_⟩
  cases values with
  | nil =>
    have hnone : ∀ name ∈ Marker.names, Marker.ofNumbers? name ([] : List String) = none := by
      decide
    rw [hnone name hname] at hsome
    cases hsome
  | cons v values =>
    cases xs with
    | nil => cases hxs
    | cons x xs =>
      obtain ⟨hx, hrest⟩ := List.cons.inj hxs
      rw [readings, lines_marker d hname fun u hu => .inl (hvalues u hu), List.map_singleton,
        ProgramLine.read_marker d.remarks hname hvalues hx hrest hm]

/-- **A tidy statement is read as what it says**, as long as its numbers are finite. -/
theorem readsAs_of_tidy (d : Dialect) {s : Statement} (h : s.Tidy) (hfinite : s.isFinite = true) :
    s.ReadsAs (s.readings d) := by
  cases s with
  | words ws =>
    refine readsAs_words d (fun w hw => (h w hw).proper) fun w hw => ?_
    simpa using List.all_eq_true.mp hfinite w hw
  | frame => exact readings_frame d
  | remark t => exact readsAs_remark d t
  | marker name values =>
    obtain ⟨hname, hsome, hprinted⟩ := h
    refine readsAs_marker d hname hsome fun v hv => (hprinted v hv).writtenOut ?_
    simpa using List.all_eq_true.mp hfinite v hv
  | verbatim t => exact h.elim

end Statement

/-! ### Markers of a block -/

namespace Command

/-- The markers that a command is written as. -/
def markersOf (decimals : Nat) : Command Double → List Statement
  | marker name values => [.marker name (values.map (Decimal.coordinate decimals))]
  | _ => []

theorem markers_statements (d : Dialect) (decimals : Nat) (modal : Option Double)
    (c : Command Double) :
    (c.statements d decimals modal).filter Statement.isMarker = c.markersOf decimals := by
  cases c with
  | programStart n =>
    show (d.opening n).filter _ = []
    rw [Dialect.opening]
    split <;> rfl
  | programEnd =>
    show d.closing.filter _ = []
    rw [Dialect.closing]
    split <;> rfl
  | toolChange slot =>
    show (d.toolChange slot).filter _ = []
    rw [Dialect.toolChange]
    split <;> rfl
  | _ => rfl

/-- **Markers are written as markers, and nothing else is.** -/
theorem markers_writeFrom (d : Dialect) (decimals : Nat) (modal : Option Double)
    (cs : List (Command Double)) :
    (writeFrom d decimals modal cs).filter Statement.isMarker =
      cs.flatMap (markersOf decimals) := by
  induction cs generalizing modal with
  | nil => rfl
  | cons c cs ih =>
    rw [writeFrom, List.filter_append, ih, markers_statements, List.flatMap_cons]

end Command

namespace Document

variable {d : Project} {f : ProgramFormat} {p : NodeId × StoredBlock}

/-- The only marker of a header is the place of program zero. -/
theorem markers_header {h : Header} (hp : p.2.payload = .header h) :
    (d.own f p).filter Statement.isMarker = [.marker Marker.originName
      (d.material.origin.toList.map (Decimal.coordinate f.decimals))] := by
  have hcommands : d.commands f.decimals p.1 p.2 = .ok (d.headerCommands p.2.comment h) := by
    rw [commands, hp]
  rw [d.own_of_commands f hcommands, Command.write, Command.markers_writeFrom]
  rfl

/-- The only marker of a tool change is the diameter of the tool. -/
theorem markers_tool {t : Tool Double} (hp : p.2.payload = .tool t) :
    (d.own f p).filter Statement.isMarker =
      [.marker Marker.toolDiameterName [Decimal.coordinate f.decimals t.diameter]] := by
  have hcommands : d.commands f.decimals p.1 p.2 =
      .ok (d.toolCommands f.decimals p.2.comment t) := by
    rw [commands, hp]
  have hprompt : (if t.prompt || d.machine.prompts then promptCommands t else []).flatMap
      (Command.markersOf f.decimals) = [] := by
    split <;> rfl
  rw [d.own_of_commands f hcommands, Command.write, Command.markers_writeFrom, toolCommands,
    List.flatMap_append, List.flatMap_append, hprompt]
  rfl

/-! ### Programs are read as they were written -/

theorem mem_own_of_filter {s : Statement} (hs : (d.own f p).filter Statement.isMarker = [s]) :
    s ∈ d.own f p :=
  (List.mem_filter.mp (by rw [hs]; exact List.mem_cons_self)).1

theorem own_subset (hp : p ∈ d.reached) : d.own f p ⊆ d.statements f := by
  intro s hs
  rw [statements_eq]
  exact List.mem_flatMap.mpr ⟨p, hp, hs⟩

/-- The preparatory functions of a tidy statement are obeyed or passed over. -/
theorem function_of_readsAs {s : Statement} {rows : List (ProgramLine Double)} (htidy : s.Tidy)
    (hs : s.ReadsAs rows) {l : ProgramLine Double} (hl : l ∈ rows) {v : Double}
    (hv : v ∈ l.values 'G') : ∃ n ∈ Head.implemented ++ Head.inert, v = Scalar.ofNat n := by
  have hread : ∀ n ∈ Word.preparatory,
      (Word.g n).address? = some (⟨'G', Scalar.ofNat n⟩ : Address Double) := by
    decide +kernel
  have hknown : ∀ n ∈ Word.preparatory, n ∈ Head.implemented ++ Head.inert := by decide
  obtain ⟨a, ha, rfl⟩ := List.mem_map.mp hv
  obtain ⟨ha, hletter⟩ := List.mem_filter.mp ha
  cases s with
  | words ws =>
    obtain ⟨as, has, rfl⟩ := hs
    obtain rfl := List.mem_singleton.mp hl
    have hword : some a ∈ ws.map Word.address? := by
      rw [has]
      exact List.mem_map_of_mem ha
    obtain ⟨w, hw, hwa⟩ := List.mem_map.mp hword
    obtain ⟨x, hx, rfl⟩ := Option.map_eq_some_iff.mp hwa
    obtain ⟨n, hn, rfl⟩ := (htidy w hw).known (eq_of_beq hletter)
    rw [hread n hn] at hwa
    exact ⟨n, hknown n hn, congrArg Address.value (Option.some.inj hwa).symm⟩
  | frame =>
    obtain rfl := hs
    obtain rfl := List.mem_singleton.mp hl
    cases ha
  | remark t =>
    rw [hs l hl] at ha
    cases ha
  | marker name values =>
    obtain ⟨xs, m, -, -, rfl⟩ := hs
    obtain rfl := List.mem_singleton.mp hl
    cases ha
  | verbatim t => exact hs.elim

variable (d) in
/-- The program of a document is read as it was written. -/
structure ReadBack (ending : LineEnding) (decimals : Option Nat) : Prop where
  /-- The lines of the program are those of its statements, in order. -/
  rows : (Text.lines (d.generate ending decimals).1.toList).map ProgramLine.read =
    (d.statements (d.format decimals)).flatMap (Statement.readings (d.format decimals).dialect)
  /-- Each statement is read as what it says. -/
  statements : ∀ s ∈ d.statements (d.format decimals),
    s.ReadsAs (s.readings (d.format decimals).dialect)
  /-- A header has one marker, and it is read as the place that it prints. -/
  origin : ∀ p ∈ d.reached, ∀ h, p.2.payload = .header h → ∃ s place,
    (d.own (d.format decimals) p).filter Statement.isMarker = [s] ∧
    s.readings (d.format decimals).dialect = [⟨[], [.origin place]⟩] ∧
    place.toList.map some = d.material.origin.toList.map fun x =>
      Decimal.read? (Decimal.coordinate (d.format decimals).decimals x).toList
  /-- A tool change has one marker, and it is read as the diameter that it prints. -/
  diameter : ∀ p ∈ d.reached, ∀ t, p.2.payload = .tool t → ∃ s x,
    (d.own (d.format decimals) p).filter Statement.isMarker = [s] ∧
    s.readings (d.format decimals).dialect = [⟨[], [.toolDiameter x]⟩] ∧
    some x =
      Decimal.read? (Decimal.coordinate (d.format decimals).decimals t.diameter).toList
  /-- Every preparatory function is one that a head obeys or passes over. -/
  functions : ∀ l ∈ Text.lines (d.generate ending decimals).1.toList,
    ∀ v ∈ (ProgramLine.read l).values 'G', ∃ n ∈ Head.implemented ++ Head.inert,
      v = (Scalar.ofNat n : Double)

/-- **A program is read as it was written**, in any dialect, with any line ending and any number of
decimals, as long as no text is taken over and no number is infinite or undefined. -/
theorem reads_back (d : Project) (ending : LineEnding) (decimals : Option Nat)
    (hcode : ∀ p ∈ d.reached, p.2.kind ≠ .code)
    (hfinite : ∀ s ∈ d.statements (d.format decimals), s.isFinite = true) :
    d.ReadBack ending decimals := by
  have htidy := tidy_of_mem_statements (f := d.format decimals) hcode
  have hreads : ∀ s ∈ d.statements (d.format decimals),
      s.ReadsAs (s.readings (d.format decimals).dialect) :=
    fun s hs => s.readsAs_of_tidy _ (htidy s hs) (hfinite s hs)
  have hrows : (Text.lines (d.generate ending decimals).1.toList).map ProgramLine.read =
      (d.statements (d.format decimals)).flatMap
        (Statement.readings (d.format decimals).dialect) := by
    have hfound := d.found_generate (fun l => [ProgramLine.read (R := Double) l]) ending decimals
    rw [Statement.found_program, Statement.found, ← List.map_eq_flatMap] at hfound
    refine hfound.trans (List.flatMap_congr fun s _ => ?_)
    rw [Statement.found, ← List.map_eq_flatMap]
    rfl
  exact
    { rows := hrows
      statements := hreads
      origin := by
        intro p hp h hh
        have hmarkers := markers_header (f := d.format decimals) (d := d) hh
        obtain ⟨xs, m, hxs, hm, hrow⟩ := hreads _ (own_subset hp (mem_own_of_filter hmarkers))
        have hlength : xs.length = 3 := by
          simpa [Vec3.toList] using (congrArg List.length hxs).symm
        obtain ⟨x, y, z, rfl⟩ := List.length_eq_three.mp hlength
        obtain rfl := Option.some.inj hm
        exact ⟨_, ⟨x, y, z⟩, hmarkers, hrow, hxs.symm.trans List.map_map⟩
      diameter := by
        intro p hp t ht
        have hmarkers := markers_tool (f := d.format decimals) (d := d) ht
        obtain ⟨xs, m, hxs, hm, hrow⟩ := hreads _ (own_subset hp (mem_own_of_filter hmarkers))
        have hlength : xs.length = 1 := by simpa using (congrArg List.length hxs).symm
        obtain ⟨x, rfl⟩ := List.length_eq_one_iff.mp hlength
        obtain rfl := Option.some.inj hm
        exact ⟨_, x, hmarkers, hrow, (List.cons.inj hxs).1.symm⟩
      functions := by
        intro l hl v hv
        have hmem := List.mem_map_of_mem (f := ProgramLine.read (R := Double)) hl
        rw [hrows] at hmem
        obtain ⟨s, hs, hmem⟩ := List.mem_flatMap.mp hmem
        exact function_of_readsAs (htidy s hs) (hreads s hs) hmem hv }

/-- A program that opens, changes the tool, and parks off the stock before it closes. -/
def parked : Project :=
  let opened : Project :=
    (((Document.new "parked").add { payload := Payload.standard .header }).2.add
      { payload := Payload.standard .tool }).2
  (opened.add { payload := .footer ⟨some ⟨-1, 1 / 2⟩⟩ }).2

theorem reads_back_parked : (∀ p ∈ parked.reached, p.2.kind ≠ .code) ∧
    (∀ s ∈ parked.statements (parked.format (some 4)), s.isFinite = true) ∧
    parked.ReadBack .crlf (some 4) := by
  have hcode : ∀ p ∈ parked.reached, p.2.kind ≠ .code := by decide +kernel
  have hfinite : ∀ s ∈ parked.statements (parked.format (some 4)), s.isFinite = true := by
    decide +kernel
  exact ⟨hcode, hfinite, reads_back parked .crlf (some 4) hcode hfinite⟩

end Document

end Toolpath
