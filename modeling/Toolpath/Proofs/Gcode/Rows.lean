import Toolpath.Proofs.Gcode.Words

/-!
# What a line of words says

A word whose number is infinite or undefined is written like any other, and it is no word for who
reads it: there is no number behind its letter, and none behind the letters of the name that stands
for the number. So a line of words is read as the words on it that have a number, and what the line
says under a letter is what the word with this letter says.

## Main results

* `ProgramLine.read_row` — a line of words is read as those that have a number
* `ProgramLine.value?_row` — under a letter the line says what its word says
* `ProgramLine.values_row`, `ProgramLine.hasAny_row_iff` — all numbers under a letter, and letters
  that are there
-/

namespace Toolpath

namespace ProgramLine

/-! ### Words without a number -/

/-- The further words of a line, each behind a space. -/
def further (ws : List Word) : List Char := ws.flatMap fun v => ' ' :: v.chars

/-- A letter without a number behind it is passed over, and the spaces behind it. -/
theorem wordsWithin_letter {c : Char} {rest body : List Char} (fuel : Nat)
    (hc : c.isAlpha = true) (hbody : rest.dropWhile (· == ' ') = body)
    (hhead : ∀ c ∈ body.head?, isNumberChar c = false) :
    (wordsWithin (fuel + 1) (c :: rest) : List (Address Double)) = wordsWithin fuel body := by
  have hnumber : ∀ c ∈ ([] : List Char), isNumberChar c = true := List.forall_mem_nil _
  obtain ⟨htake, hdrop⟩ := Decimal.takeWhile_append_of_head hnumber hhead
  have hnone : (Numeral.read? [] : Option Double) = none := rfl
  rw [List.nil_append] at htake hdrop
  rw [wordsWithin, if_pos hc, hbody]
  simp only [htake, hdrop, hnone]

/-- A letter directly before another one is passed over. -/
theorem wordsWithin_letters {c d : Char} (fuel : Nat) (rest : List Char) (hc : c.isAlpha = true)
    (hspace : (d == ' ') = false) (hd : isNumberChar d = false) :
    (wordsWithin (fuel + 1) (c :: d :: rest) : List (Address Double)) =
      wordsWithin fuel (d :: rest) := by
  have hbody : (d :: rest).dropWhile (· == ' ') = d :: rest := by
    rw [List.dropWhile_cons, hspace]
    rfl
  refine wordsWithin_letter fuel hc hbody ?_
  rintro c ⟨⟩
  exact hd

/-- A letter with nothing but a minus behind it is passed over. -/
theorem wordsWithin_minus {c : Char} {rest : List Char} (fuel : Nat) (hc : c.isAlpha = true)
    (hhead : ∀ c ∈ rest.head?, isNumberChar c = false) :
    (wordsWithin (fuel + 1) (c :: '-' :: rest) : List (Address Double)) =
      wordsWithin fuel rest := by
  have hnumber : ∀ c ∈ ['-'], isNumberChar c = true := List.forall_mem_singleton.mpr rfl
  obtain ⟨htake, hdrop⟩ := Decimal.takeWhile_append_of_head hnumber hhead
  have hnone : (Numeral.read? ['-'] : Option Double) = none := rfl
  have hbody : ('-' :: rest).dropWhile (· == ' ') = '-' :: rest := rfl
  rw [List.singleton_append] at htake hdrop
  rw [wordsWithin, if_pos hc, hbody]
  simp only [htake, hdrop, hnone]

/-- **A word without a number** is passed over, and the spaces behind it. -/
theorem wordsWithin_name {w : Word} {rest body : List Char} (fuel : Nat)
    (hletter : w.letter.isUpper = true) (hnumber : w.number ∈ Decimal.names)
    (hbody : rest.dropWhile (· == ' ') = body)
    (hhead : ∀ c ∈ body.head?, isNumberChar c = false) :
    (wordsWithin (fuel + 4) (w.chars ++ rest) : List (Address Double)) = wordsWithin fuel body := by
  have halpha : w.letter.isAlpha = true := Bool.or_eq_true_iff.mpr (Or.inl hletter)
  have hlast (c : Char) (hc : c.isAlpha = true) :
      (wordsWithin (fuel + 1) (c :: rest) : List (Address Double)) = wordsWithin fuel body :=
    wordsWithin_letter fuel hc hbody hhead
  rw [Word.chars, List.cons_append]
  simp only [Decimal.names, List.mem_cons, List.not_mem_nil, or_false] at hnumber
  rcases hnumber with h | h | h
  · have hchars : w.number.toList ++ rest = 'N' :: 'a' :: 'N' :: rest := by rw [h]; rfl
    rw [hchars, wordsWithin_letters (fuel + 3) _ halpha rfl rfl,
      wordsWithin_letters (fuel + 2) _ rfl rfl rfl, wordsWithin_letters (fuel + 1) _ rfl rfl rfl,
      hlast 'N' rfl]
  · have hchars : w.number.toList ++ rest = 'i' :: 'n' :: 'f' :: rest := by rw [h]; rfl
    rw [hchars, wordsWithin_letters (fuel + 3) _ halpha rfl rfl,
      wordsWithin_letters (fuel + 2) _ rfl rfl rfl, wordsWithin_letters (fuel + 1) _ rfl rfl rfl,
      hlast 'f' rfl]
  · have hchars : w.number.toList ++ rest = '-' :: 'i' :: 'n' :: 'f' :: rest := by rw [h]; rfl
    rw [hchars, wordsWithin_minus (fuel + 3) halpha (by rintro c ⟨⟩; rfl),
      wordsWithin_letters (fuel + 2) _ rfl rfl rfl, wordsWithin_letters (fuel + 1) _ rfl rfl rfl,
      hlast 'f' rfl]

/-! ### Lines of words -/

theorem isNumberChar_of_isUpper {c : Char} (h : c.isUpper = true) : isNumberChar c = false := by
  have hupper : c.val ≥ 'A'.val ∧ c.val ≤ 'Z'.val := of_decide_eq_true h
  have hdigit : c.isDigit = false := by
    refine Bool.eq_false_iff.mpr fun hdigit => ?_
    have hbelow : c.val ≤ '9'.val := (Bool.and_eq_true_iff.mp hdigit).2 |> of_decide_eq_true
    exact absurd (UInt32.le_trans hupper.1 hbelow) (by decide)
  have hne (d : Char) (hd : d.isUpper = false) : (c == d) = false := by
    refine beq_false_of_ne fun heq => ?_
    rw [heq, hd] at h
    cases h
  rw [isNumberChar, hdigit, hne '.' rfl, hne '-' rfl, hne '+' rfl]
  rfl

/-- Behind the space before them, the further words are a line. -/
theorem dropWhile_further {ws : List Word} (hws : ∀ w ∈ ws, w.Proper) :
    (further ws).dropWhile (· == ' ') = Word.row ws := by
  cases ws with
  | nil => rfl
  | cons w ws =>
    have hletter : (w.letter == ' ') = false := by
      refine beq_false_of_ne fun heq => ?_
      have hupper := (hws w List.mem_cons_self).letter
      rw [heq] at hupper
      exact absurd hupper (by decide)
    rw [Word.row_cons, further, List.flatMap_cons, List.cons_append, List.dropWhile_cons_of_pos rfl,
      Word.chars, List.cons_append, List.dropWhile_cons, hletter]
    rfl

theorem length_row_le {ws : List Word} (hws : ∀ w ∈ ws, w.Proper) :
    (Word.row ws).length ≤ (further ws).length :=
  dropWhile_further hws ▸ List.length_dropWhile_le _ _

theorem head?_row {ws : List Word} (hws : ∀ w ∈ ws, w.Proper) :
    ∀ c ∈ (Word.row ws).head?, isNumberChar c = false := by
  cases ws with
  | nil => exact nofun
  | cons w ws =>
    rw [Word.row_cons]
    rintro c ⟨⟩
    exact isNumberChar_of_isUpper (hws w List.mem_cons_self).letter

/-- Reading goes on with the next word. -/
theorem wordsWithin_further {ws : List Word} (hws : ∀ w ∈ ws, w.Proper) {fuel : Nat}
    (hfuel : (further ws).length ≤ fuel) : ∃ rest, (Word.row ws).length ≤ rest ∧
      (wordsWithin fuel (further ws) : List (Address Double)) =
        wordsWithin rest (Word.row ws) := by
  cases ws with
  | nil => exact ⟨fuel, Nat.zero_le _, rfl⟩
  | cons w ws =>
    have hsplit : further (w :: ws) = ' ' :: Word.row (w :: ws) := by
      rw [Word.row_cons, further, List.flatMap_cons]
      rfl
    rw [hsplit, List.length_cons] at hfuel
    obtain ⟨rest, rfl⟩ : ∃ rest, fuel = rest + 1 := ⟨fuel - 1, by omega⟩
    exact ⟨rest, Nat.le_of_succ_le_succ hfuel, by rw [hsplit, wordsWithin_space]⟩

/-- The words of a line are read one by one, as far as they have a number. -/
theorem wordsWithin_row {ws : List Word} (hws : ∀ w ∈ ws, w.Proper) {fuel : Nat}
    (hfuel : (Word.row ws).length ≤ fuel) :
    (wordsWithin fuel (Word.row ws) : List (Address Double)) = ws.filterMap Word.address? := by
  induction ws generalizing fuel with
  | nil => exact wordsWithin_nil fuel
  | cons w ws ih =>
    obtain ⟨hw, hrest⟩ := List.forall_mem_cons.mp hws
    have hline : Word.row (w :: ws) = w.chars ++ further ws := Word.row_cons w ws
    rw [hline, List.length_append, Word.chars, List.length_cons] at hfuel
    rw [hline, List.filterMap_cons]
    rcases hw.number with hnumber | hname
    · obtain ⟨x, hx⟩ := Option.isSome_iff_exists.mp hnumber.read?_isSome
      have hread : Numeral.read? w.number.toList = some x := hx
      obtain ⟨n, rfl⟩ : ∃ n, fuel = n + 1 := ⟨fuel - 1, by omega⟩
      obtain ⟨n', hn', hfurther⟩ := wordsWithin_further hrest (by omega : _ ≤ n)
      have hword : wordsWithin (n + 1) (w.chars ++ further ws) =
          ⟨w.letter, x⟩ :: wordsWithin n (further ws) :=
        wordsWithin_chars n hw.letter hnumber hread (head?_flatMap_chars ws)
      rw [hword, hfurther, ih hrest hn', Word.address?, hread]
      rfl
    · have hlengths : ∀ name ∈ Decimal.names, 3 ≤ name.toList.length := by decide
      have hnone : ∀ name ∈ Decimal.names, (Numeral.read? name.toList : Option Double) = none := by
        decide +kernel
      have hlength := hlengths _ hname
      obtain ⟨n, rfl⟩ : ∃ n, fuel = n + 4 := ⟨fuel - 4, by omega⟩
      have hshort := length_row_le hrest
      rw [wordsWithin_name n hw.letter hname (dropWhile_further hrest) (head?_row hrest),
        Word.address?, hnone _ hname, ih hrest (by omega)]
      rfl

/-- **A line of words is read as those that have a number**, and nothing else is read from it. -/
theorem read_row {ws : List Word} (hws : ∀ w ∈ ws, w.Proper) :
    (read (Word.row ws) : ProgramLine Double) = ⟨ws.filterMap Word.address?, []⟩ := by
  have hmarkers : (markersOf (Word.row ws) : List (Marker Double)) = [] :=
    markersOf_unmarked (Unmarked.of_missing (c := ':') (by decide)
      (Word.not_mem_row hws (by decide)))
  have hwords : wordsOf (Word.row ws) = ws.filterMap (Word.address? (R := Double)) :=
    wordsWithin_row hws le_rfl
  rw [read, outside_row hws, hwords, hmarkers]

/-! ### What is under a letter -/

section

variable {R : Type} [Numeral R] (ws : List Word) (ms : List (Marker R))

/-- The numbers under a letter are those of the words with this letter. -/
theorem values_row (c : Char) : (⟨ws.filterMap Word.address?, ms⟩ : ProgramLine R).values c =
    (ws.filter (·.letter == c)).filterMap fun w => Numeral.read? w.number.toList := by
  rw [values, List.filter_filterMap, List.map_filterMap, List.filterMap_filter]
  refine List.filterMap_congr fun w _ => ?_
  rw [Word.address?]
  cases (Numeral.read? w.number.toList : Option R) with
  | none => rw [ite_self]; rfl
  | some x => by_cases hc : w.letter = c <;> simp [hc]

omit [Numeral R] in
theorem value?_eq_getLast? (l : ProgramLine R) (c : Char) : l.value? c = (l.values c).getLast? := by
  rw [value?, values, List.getLast?_map, ← List.head?_reverse, ← List.filter_reverse,
    List.head?_filter]

/-- The only word with its letter. -/
theorem filter_letter {ws : List Word} {w : Word} (hw : w ∈ ws)
    (hletters : (ws.map Word.letter).Nodup) : ws.filter (·.letter == w.letter) = [w] := by
  induction ws with
  | nil => cases hw
  | cons v ws ih =>
    rw [List.map_cons, List.nodup_cons] at hletters
    rcases List.mem_cons.mp hw with rfl | hw
    · have hnone : ws.filter (·.letter == w.letter) = [] :=
        List.filter_eq_nil_iff.mpr fun u hu heq =>
          hletters.1 (eq_of_beq heq ▸ List.mem_map_of_mem hu)
      rw [List.filter_cons, if_pos (beq_self_eq_true _), hnone]
    · have hne : v.letter ≠ w.letter := fun heq =>
        hletters.1 (heq ▸ List.mem_map_of_mem hw)
      rw [List.filter_cons, if_neg (mt eq_of_beq hne), ih hw hletters.2]

/-- Under a letter that one word has, the line says what the word says. -/
theorem value?_row {w : Word} (hw : w ∈ ws) (hletters : (ws.map Word.letter).Nodup) :
    (⟨ws.filterMap Word.address?, ms⟩ : ProgramLine R).value? w.letter =
      Numeral.read? w.number.toList := by
  rw [value?_eq_getLast?, values_row, filter_letter hw hletters, List.filterMap_cons,
    List.filterMap_nil]
  cases (Numeral.read? w.number.toList : Option R) <;> rfl

/-- A letter is on the line if a word with this letter has a number. -/
theorem hasAny_row_iff (letters : List Char) :
    (⟨ws.filterMap Word.address?, ms⟩ : ProgramLine R).hasAny letters = true ↔
      ∃ w ∈ ws, w.letter ∈ letters ∧ (Numeral.read? w.number.toList : Option R).isSome = true := by
  rw [hasAny, List.any_eq_true]
  constructor
  · rintro ⟨a, ha, hletter⟩
    obtain ⟨w, hw, hwa⟩ := List.mem_filterMap.mp ha
    obtain ⟨x, hx, rfl⟩ := Option.map_eq_some_iff.mp hwa
    exact ⟨w, hw, List.contains_iff_mem.mp hletter, Option.isSome_iff_exists.mpr ⟨x, hx⟩⟩
  · rintro ⟨w, hw, hletter, hsome⟩
    obtain ⟨x, hx⟩ := Option.isSome_iff_exists.mp hsome
    exact ⟨⟨w.letter, x⟩, List.mem_filterMap.mpr ⟨w, hw, by rw [Word.address?, hx]; rfl⟩,
      List.contains_iff_mem.mpr hletter⟩

end

end ProgramLine

end Toolpath
