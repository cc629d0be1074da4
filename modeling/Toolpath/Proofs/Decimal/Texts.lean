import Mathlib.Data.List.TakeWhile
import Toolpath.Decimal.Read

/-!
# The texts of numbers

A finite number is written out with a minus or without, with digits and, if it has decimal places,
with a point and further digits. Nothing else is ever printed for it, so whoever reads decimals
reads a number again. What is no finite number is printed as one of three names, and these are no
decimals.

## Main definitions

* `Decimal.WrittenOut` — the texts of finite numbers
* `Decimal.names` — the texts of what is no finite number
* `Decimal.Printed` — the texts of numbers, finite or not
* `Decimal.reread?` — the number that is read where one was printed

## Main results

* `Decimal.printed_coordinate` — a coordinate is written out or a name
* `Decimal.coordinate_mem_names_iff` — the names stand for what is no finite number
* `Decimal.WrittenOut.read?_isSome` — a number that is written out can be read
* `Decimal.reread?_isSome` — a number of finite size is read where it was printed
-/

namespace Toolpath

namespace Decimal

/-! ### Digits -/

/-- Nothing but digits. -/
def AllDigits (text : List Char) : Prop := ∀ c ∈ text, c.isDigit = true

theorem allDigits_digits (n : Nat) : AllDigits (digits n) :=
  fun _ hc => Nat.isDigit_of_mem_toDigits (by decide) (by decide) hc

theorem digits_ne_nil (n : Nat) : digits n ≠ [] := by
  simp [digits]

theorem AllDigits.padZeros {text : List Char} (h : AllDigits text) (width : Nat) :
    AllDigits (padZeros width text) := by
  intro c hc
  rw [Decimal.padZeros, List.mem_append, List.mem_replicate] at hc
  rcases hc with ⟨-, rfl⟩ | hc
  · decide
  · exact h c hc

theorem length_padZeros (width : Nat) (text : List Char) :
    (padZeros width text).length = max width text.length := by
  rw [padZeros, List.length_append, List.length_replicate]
  omega

theorem padZeros_ne_nil (width n : Nat) : padZeros width (digits n) ≠ [] :=
  List.append_ne_nil_of_right_ne_nil _ (digits_ne_nil n)

/-! ### Numbers written out -/

/-- Digits, and a point with digits behind it or none. -/
inductive Unsigned : List Char → Prop where
  /-- A whole number. -/
  | whole {ds : List Char} (hne : ds ≠ []) (hds : AllDigits ds) : Unsigned ds
  /-- A number with decimal places. -/
  | point {ds es : List Char} (hne : ds ≠ []) (hds : AllDigits ds) (hes : AllDigits es) :
    Unsigned (ds ++ '.' :: es)

/-- The texts of finite numbers. -/
inductive WrittenOut : List Char → Prop where
  /-- Without a sign. -/
  | plain {text : List Char} (h : Unsigned text) : WrittenOut text
  /-- With a minus. -/
  | minus {text : List Char} (h : Unsigned text) : WrittenOut ('-' :: text)

/-- The texts of what is no finite number. -/
def names : List String := ["NaN", "inf", "-inf"]

theorem unsigned_placed (places units : Nat) : Unsigned (placed places units) := by
  have hall := (allDigits_digits units).padZeros (places + 1)
  have hlength := length_padZeros (places + 1) (digits units)
  have hwhole : (padZeros (places + 1) (digits units)).take
      ((padZeros (places + 1) (digits units)).length - places) ≠ [] := by
    intro hnil
    have hzero := congrArg List.length hnil
    rw [List.length_take, List.length_nil] at hzero
    omega
  unfold placed
  dsimp only
  split
  · exact .whole hwhole fun c hc => hall c (List.mem_of_mem_take hc)
  · exact .point hwhole (fun c hc => hall c (List.mem_of_mem_take hc))
      fun c hc => hall c (List.mem_of_mem_drop hc)

theorem writtenOut_fixed (places : Nat) (b : Binary) : WrittenOut (fixed places b) := by
  unfold fixed
  dsimp only
  split
  · exact .minus (unsigned_placed places _)
  · exact .plain (unsigned_placed places _)

theorem writtenOut_padZeros (width n : Nat) : WrittenOut (padZeros width (digits n)) :=
  .plain (.whole (padZeros_ne_nil width n) ((allDigits_digits n).padZeros width))

theorem nonfinite_mem_names (x : Double) : nonfinite x ∈ names := by
  unfold nonfinite
  split
  · decide
  · split <;> decide

/-- The text of a number, finite or not. -/
def Printed (text : String) : Prop := WrittenOut text.toList ∨ text ∈ names

/-- **A coordinate** of a finite number is written out, any other is a name. -/
theorem printed_coordinate (places : Nat) (x : Double) : Printed (coordinate places x) := by
  unfold coordinate
  split
  · rename_i b _
    left
    rw [String.toList_ofList]
    exact writtenOut_fixed places b
  · exact .inr (nonfinite_mem_names x)

theorem printed_padZeros (width n : Nat) : Printed (String.ofList (padZeros width (digits n))) := by
  left
  rw [String.toList_ofList]
  exact writtenOut_padZeros width n

/-! ### The characters of numbers -/

theorem Unsigned.char {text : List Char} (h : Unsigned text) {c : Char} (hc : c ∈ text) :
    c.isDigit = true ∨ c = '.' := by
  cases h with
  | whole _ hds => exact .inl (hds c hc)
  | point _ hds hes =>
    rcases List.mem_append.mp hc with hc | hc
    · exact .inl (hds c hc)
    · rcases List.mem_cons.mp hc with rfl | hc
      · exact .inr rfl
      · exact .inl (hes c hc)

theorem WrittenOut.char {text : List Char} (h : WrittenOut text) {c : Char} (hc : c ∈ text) :
    c.isDigit = true ∨ c = '.' ∨ c = '-' := by
  cases h with
  | plain h => exact (h.char hc).imp_right .inl
  | minus h =>
    rcases List.mem_cons.mp hc with rfl | hc
    · exact .inr (.inr rfl)
    · exact (h.char hc).imp_right .inl

theorem Unsigned.ne_nil {text : List Char} (h : Unsigned text) : text ≠ [] := by
  cases h with
  | whole hne _ => exact hne
  | point hne _ _ => exact List.append_ne_nil_of_left_ne_nil hne _

theorem WrittenOut.ne_nil {text : List Char} (h : WrittenOut text) : text ≠ [] := by
  cases h with
  | plain h => exact h.ne_nil
  | minus h => exact List.cons_ne_nil _ _

/-- Whether a character is neither in the text of a finite number nor in a name. -/
def isForeign (c : Char) : Bool :=
  !c.isDigit && c != '.' && c != '-' && names.all fun name => !name.toList.contains c

theorem Printed.not_mem {text : String} (h : Printed text) {c : Char} (hc : isForeign c = true) :
    c ∉ text.toList := by
  simp only [isForeign, Bool.and_eq_true, Bool.not_eq_true', bne_iff_ne, List.all_eq_true,
    List.contains_eq_mem, decide_eq_false_iff_not] at hc
  obtain ⟨⟨⟨hdigit, hpoint⟩, hminus⟩, hnames⟩ := hc
  intro hmem
  rcases h with h | h
  · rcases h.char hmem with h | h | h
    · rw [hdigit] at h
      cases h
    · exact hpoint h
    · exact hminus h
  · exact hnames text h hmem

theorem Printed.writtenOut {text : String} (h : Printed text) (hfinite : text ∉ names) :
    WrittenOut text.toList := h.resolve_right hfinite

/-- Every name has a letter that no number has. -/
theorem WrittenOut.not_mem_names {text : String} (h : WrittenOut text.toList) : text ∉ names := by
  have hletters : ∀ name ∈ names, ∃ c ∈ name.toList, ¬ (c.isDigit = true ∨ c = '.' ∨ c = '-') := by
    simp [names]
  intro hmem
  obtain ⟨c, hc, hnot⟩ := hletters text hmem
  exact hnot (h.char hc)

/-- **A coordinate is a name** exactly if it stands for what is no finite number. -/
theorem coordinate_mem_names_iff (places : Nat) (x : Double) :
    coordinate places x ∈ names ↔ Binary.ofDouble? x = none := by
  rw [coordinate]
  cases Binary.ofDouble? x with
  | none => exact iff_of_true (nonfinite_mem_names x) rfl
  | some b =>
    have hwritten : WrittenOut (String.ofList (fixed places b)).toList := by
      rw [String.toList_ofList]
      exact writtenOut_fixed places b
    exact iff_of_false hwritten.not_mem_names nofun

/-! ### Reading numbers -/

theorem takeWhile_append_of_head {p : Char → Bool} {ds rest : List Char}
    (hds : ∀ c ∈ ds, p c = true) (hrest : ∀ c ∈ rest.head?, p c = false) :
    (ds ++ rest).takeWhile p = ds ∧ (ds ++ rest).dropWhile p = rest := by
  have hstop : rest.takeWhile p = [] ∧ rest.dropWhile p = rest := by
    cases rest with
    | nil => exact ⟨rfl, rfl⟩
    | cons c rest =>
      have hc : ¬ p c = true := by simpa using hrest c rfl
      exact ⟨List.takeWhile_cons_of_neg hc, List.dropWhile_cons_of_neg hc⟩
  exact ⟨by rw [List.takeWhile_append_of_pos hds, hstop.1, List.append_nil],
    by rw [List.dropWhile_append_of_pos hds, hstop.2]⟩

theorem Unsigned.takeSign {text : List Char} (h : Unsigned text) :
    takeSign text = (false, text) := by
  obtain ⟨c, rest, rfl⟩ := List.exists_cons_of_ne_nil h.ne_nil
  have hminus : c ≠ '-' := by
    rintro rfl
    rcases h.char List.mem_cons_self with h | h <;> cases h
  have hplus : c ≠ '+' := by
    rintro rfl
    rcases h.char List.mem_cons_self with h | h <;> cases h
  unfold Decimal.takeSign
  split
  · rename_i heq
    exact absurd (List.cons.inj heq).1 hminus
  · rename_i heq
    exact absurd (List.cons.inj heq).1 hplus
  · rfl

/-- Behind a sign, digits with their point are a decimal. -/
theorem Unsigned.parse?_isSome {signed text : List Char} {negative : Bool} (h : Unsigned text)
    (hsign : Decimal.takeSign signed = (negative, text)) : (parse? signed).isSome = true := by
  cases h with
  | whole hne hds =>
    have htake : text.takeWhile Char.isDigit = text := List.takeWhile_eq_self_iff.mpr hds
    have hdrop : text.dropWhile Char.isDigit = [] := List.dropWhile_eq_nil_iff.mpr hds
    simp [parse?, hsign, htake, hdrop, hne, readExponent?]
  | @point ds es hne hds hes =>
    have hpoint : ∀ c ∈ ('.' :: es).head?, c.isDigit = false := by
      rintro c ⟨⟩
      rfl
    obtain ⟨htake, hdrop⟩ := takeWhile_append_of_head hds hpoint
    have htake' : es.takeWhile Char.isDigit = es := List.takeWhile_eq_self_iff.mpr hes
    have hdrop' : es.dropWhile Char.isDigit = [] := List.dropWhile_eq_nil_iff.mpr hes
    simp [parse?, hsign, htake, hdrop, htake', hdrop', hne, readExponent?]

/-- **A number that is written out** can be read. -/
theorem WrittenOut.read?_isSome {text : List Char} (h : WrittenOut text) :
    (read? text).isSome = true := by
  rw [read?, Option.isSome_map]
  cases h with
  | plain h => exact h.parse?_isSome h.takeSign
  | minus h => exact h.parse?_isSome rfl

/-- The number that is read where a number was printed with a count of decimal places. -/
def reread? (places : Nat) (x : Double) : Option Double := read? (coordinate places x).toList

/-- A number of finite size has an exact value. -/
theorem ofDouble?_ne_none {x : Double} (h : x.isFinite = true) : Binary.ofDouble? x ≠ none := by
  have hbits : (x.bits &&& Double.magnitudeMask).toNat < Double.exponentMask.toNat :=
    UInt64.lt_iff_toNat_lt.mp (of_decide_eq_true h)
  have hmask : Double.magnitudeMask.toNat = 2 ^ 63 - 1 := rfl
  have hexponent : Double.exponentMask.toNat = Binary.nonfiniteExponent * Binary.hiddenBit := rfl
  rw [UInt64.toNat_and, hmask, Nat.and_two_pow_sub_one_eq_mod, hexponent] at hbits
  intro hnone
  have hbiased : x.bits.toNat / Binary.hiddenBit % 0x800 = Binary.nonfiniteExponent := by
    unfold Binary.ofDouble? at hnone
    dsimp only at hnone
    split at hnone
    · assumption
    · split at hnone <;> cases hnone
  simp only [Binary.nonfiniteExponent, Binary.hiddenBit] at hbits hbiased
  omega

/-- **A number of finite size is read** where it was printed. -/
theorem reread?_isSome (places : Nat) {x : Double} (h : x.isFinite = true) :
    (reread? places x).isSome = true := by
  have hname : coordinate places x ∉ names :=
    mt (coordinate_mem_names_iff places x).mp (ofDouble?_ne_none h)
  exact ((printed_coordinate places x).writtenOut hname).read?_isSome

end Decimal

end Toolpath
