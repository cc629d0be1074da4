import Toolpath.Decimal.Read
import Toolpath.Toml.Value

/-!
# Texts and numbers of a settings file

Readers for values that contain no other values. A reader takes its value off the front of the
text and returns the rest. Numbers, truth values and dates end where a character follows that can
stand in none of them, so they are first cut off as a whole and then recognized.
-/

namespace Toolpath

namespace Toml

/-- A reader: a value and what is left, or a refusal. -/
abbrev Reader (α : Type) := List Char → Option (α × List Char)

/-! ### Characters -/

/-- Whether a character separates words within a line. -/
def isSpace (c : Char) : Bool := c == ' ' || c == '\t'

/-- Whether a character can be written as it is: a tab, or anything that is no control character. -/
def isPlain (c : Char) : Bool := c == '\t' || (' ' ≤ c && c != '\x7F')

/-- Whether a character can stand in a key without quotes. -/
def isBareKey (c : Char) : Bool := c.isAlphanum || c == '_' || c == '-'

/-- Whether a character can stand in a number, a truth value or a date. -/
def isToken (c : Char) : Bool :=
  c.isAlphanum || c == '_' || c == '-' || c == '+' || c == '.' || c == ':'

/-- The text behind blanks and a remark that end a line. -/
def endOfLine? (text : List Char) : Option (List Char) :=
  let rest := match text.dropWhile isSpace with
    | '#' :: remark => remark.dropWhile isPlain
    | rest => rest
  match rest with
  | [] => some []
  | '\n' :: rest => some rest
  | '\r' :: '\n' :: rest => some rest
  | _ => none

/-- The text behind blanks, line ends and remarks. The first argument says whether a remark has
started. -/
def skipLines? : Bool → List Char → Option (List Char)
  | _, [] => some []
  | _, '\r' :: '\n' :: rest => skipLines? false rest
  | _, '\n' :: rest => skipLines? false rest
  | true, c :: rest => if isPlain c then skipLines? true rest else none
  | false, c :: rest =>
    if c = '#' then skipLines? true rest
    else if isSpace c then skipLines? false rest
    else some (c :: rest)

/-! ### Texts -/

/-- The value of a hexadecimal digit. -/
def hexDigit? (c : Char) : Option Nat :=
  if c.isDigit then some (c.toNat - '0'.toNat)
  else if 'a' ≤ c ∧ c ≤ 'f' then some (c.toNat - 'a'.toNat + 10)
  else if 'A' ≤ c ∧ c ≤ 'F' then some (c.toNat - 'A'.toNat + 10)
  else none

/-- The character whose code point is given by hexadecimal digits. -/
def codePoint? (digits : List Char) : Option Char :=
  match digits.mapM hexDigit? with
  | none => none
  | some ds =>
    let n := ds.foldl (fun n d => 16 * n + d) 0
    if n.isValidChar then some (Char.ofNat n) else none

/-- The character that a letter behind a backslash stands for. -/
def escaped? (c : Char) : Option Char :=
  if c = 'b' then some '\x08'
  else if c = 't' then some '\t'
  else if c = 'n' then some '\n'
  else if c = 'f' then some '\x0C'
  else if c = 'r' then some '\r'
  else if c = '"' then some '"'
  else if c = '\\' then some '\\'
  else none

/-- The text up to a quotation mark, with escapes resolved, behind characters given backwards. -/
def basicFrom : List Char → Reader String
  | done, '"' :: rest => some (String.ofList done.reverse, rest)
  | done, '\\' :: 'u' :: a :: b :: c :: d :: rest =>
    match codePoint? [a, b, c, d] with
    | some x => basicFrom (x :: done) rest
    | none => none
  | done, '\\' :: 'U' :: a :: b :: c :: d :: e :: f :: g :: h :: rest =>
    match codePoint? [a, b, c, d, e, f, g, h] with
    | some x => basicFrom (x :: done) rest
    | none => none
  | done, '\\' :: c :: rest =>
    match escaped? c with
    | some x => basicFrom (x :: done) rest
    | none => none
  | done, c :: rest => if isPlain c then basicFrom (c :: done) rest else none
  | _, [] => none

/-- The text up to an apostrophe, behind characters given backwards. -/
def literalFrom : List Char → Reader String
  | _, [] => none
  | done, c :: rest =>
    if c = '\x27' then some (String.ofList done.reverse, rest)
    else if isPlain c then literalFrom (c :: done) rest
    else none

/-- Whether only blanks stand before the next line end. -/
def lineEndsHere (text : List Char) : Bool :=
  match text.dropWhile isSpace with
  | '\n' :: _ => true
  | '\r' :: '\n' :: _ => true
  | _ => false

/-- The text up to three marks, which may stand behind up to two more that belong to it. With
`escapes` a backslash starts an escape, and one at the end of a line joins it with the next text.
`skipping` says whether blanks are passed over for that reason. -/
def longFrom (mark : Char) (escapes : Bool) : Bool → List Char → Reader String
  | _, _, [] => none
  | true, done, '\r' :: '\n' :: rest => longFrom mark escapes true done rest
  | false, done, '\r' :: '\n' :: rest => longFrom mark escapes false ('\n' :: done) rest
  | skipping, done, c :: rest =>
    if skipping && (isSpace c || c == '\n') then longFrom mark escapes true done rest
    else if c = mark then
      let more := (rest.takeWhile (· == mark)).length
      if more < 2 then longFrom mark escapes false (mark :: done) rest
      else
        let own := min (more - 2) 2
        some (String.ofList (done.reverse ++ List.replicate own mark), rest.drop (own + 2))
    else if escapes ∧ c = '\\' then
      match rest with
      | 'u' :: a :: b :: c :: d :: rest =>
        match codePoint? [a, b, c, d] with
        | some x => longFrom mark escapes false (x :: done) rest
        | none => none
      | 'U' :: a :: b :: c :: d :: e :: f :: g :: h :: rest =>
        match codePoint? [a, b, c, d, e, f, g, h] with
        | some x => longFrom mark escapes false (x :: done) rest
        | none => none
      | d :: rest =>
        match escaped? d with
        | some x => longFrom mark escapes false (x :: done) rest
        | none =>
          if lineEndsHere (d :: rest) then longFrom mark escapes true done (d :: rest) else none
      | [] => none
    else if c = '\n' ∨ isPlain c then longFrom mark escapes false (c :: done) rest
    else none

/-- A text without a line end at its start. -/
def dropLineEnd : List Char → List Char
  | '\n' :: rest => rest
  | '\r' :: '\n' :: rest => rest
  | rest => rest

/-- A text in one of the four kinds of quotes. -/
def string : Reader String
  | '"' :: '"' :: '"' :: rest => longFrom '"' true false [] (dropLineEnd rest)
  | '\x27' :: '\x27' :: '\x27' :: rest => longFrom '\x27' false false [] (dropLineEnd rest)
  | '"' :: rest => basicFrom [] rest
  | '\x27' :: rest => literalFrom [] rest
  | _ => none

/-! ### Numbers -/

/-- Digits without the underscores that may stand between them. -/
def digits? (isDigit : Char → Bool) : List Char → Option (List Char)
  | [] => none
  | [c] => if isDigit c then some [c] else none
  | c :: d :: rest =>
    if !isDigit c then none
    else if d = '_' then (digits? isDigit rest).map (c :: ·)
    else (digits? isDigit (d :: rest)).map (c :: ·)

/-- The digits of a whole number, which has no zero in front. -/
def wholeDigits? (text : List Char) : Option (List Char) :=
  (digits? Char.isDigit text).filter fun ds => ds.head? != some '0' || ds.length == 1

/-- A whole number in the range of 64 bits. -/
def inRange? (n : Int) : Option Int :=
  if -0x8000000000000000 ≤ n ∧ n < 0x8000000000000000 then some n else none

/-- The value of digits in a base. -/
def inBase? (base : Nat) (text : List Char) : Option Int :=
  let isDigit (c : Char) : Bool := ((hexDigit? c).map fun d => decide (d < base)).getD false
  match digits? isDigit text with
  | none => none
  | some ds =>
    inRange? (Int.ofNat (ds.foldl (fun n c => base * n + (hexDigit? c).getD 0) 0))

/-- A whole number. -/
def integer? : List Char → Option Int
  | '0' :: 'x' :: ds => inBase? 16 ds
  | '0' :: 'o' :: ds => inBase? 8 ds
  | '0' :: 'b' :: ds => inBase? 2 ds
  | text =>
    let (negative, body) := Decimal.takeSign text
    match wholeDigits? body with
    | none => none
    | some ds =>
      let n := Int.ofNat (Decimal.valueFrom 0 ds)
      inRange? (if negative then -n else n)

/-- An exponent without underscores. -/
def exponent? : List Char → Option (List Char)
  | [] => some []
  | e :: rest =>
    if e = 'e' ∨ e = 'E' then
      let (negative, body) := Decimal.takeSign rest
      (digits? Char.isDigit body).map fun ds => 'e' :: (if negative then '-' :: ds else ds)
    else none

/-- A number with a fraction or an exponent, without underscores. -/
def fraction? (text : List Char) : Option (List Char) :=
  let isPart (c : Char) : Bool := c.isDigit || c == '_'
  match wholeDigits? (text.takeWhile isPart), text.dropWhile isPart with
  | some whole, '.' :: rest =>
    match digits? Char.isDigit (rest.takeWhile isPart), exponent? (rest.dropWhile isPart) with
    | some part, some e => some (whole ++ '.' :: (part ++ e))
    | _, _ => none
  | some whole, e :: rest => (exponent? (e :: rest)).map (whole ++ ·)
  | _, _ => none

/-- A number that is not whole. One too great is refused, unless it is negative. -/
def float? (text : List Char) : Option Double :=
  let (negative, body) := Decimal.takeSign text
  let signed (x : Double) : Double := if negative then -x else x
  if body = "inf".toList then some (signed Double.infinity)
  else if body = "nan".toList then some (signed Double.nan)
  else
    match (fraction? body).bind Decimal.read? with
    | none => none
    | some x => if x.isInfinite && !negative then none else some (signed x)

/-! ### Dates -/

/-- A number of a fixed count of digits, within bounds. -/
def field? (width lo hi : Nat) (text : List Char) : Option (Nat × List Char) :=
  let ds := text.take width
  if ds.length = width ∧ ds.all Char.isDigit then
    let n := Decimal.valueFrom 0 ds
    if lo ≤ n ∧ n ≤ hi then some (n, text.drop width) else none
  else none

/-- The number of days in a month. -/
def daysIn (year month : Nat) : Nat :=
  if month = 2 then if year % 4 = 0 ∧ (year % 100 ≠ 0 ∨ year % 400 = 0) then 29 else 28
  else if month = 4 ∨ month = 6 ∨ month = 9 ∨ month = 11 then 30
  else 31

/-- What follows a character at the start of a text. -/
def past? (c : Char) : List Char → Option (List Char)
  | d :: rest => if d = c then some rest else none
  | [] => none

/-- What follows a date. -/
def date? (text : List Char) : Option (List Char) := do
  let (year, rest) ← field? 4 0 9999 text
  let (month, rest) ← field? 2 1 12 (← past? '-' rest)
  let (_, rest) ← field? 2 1 (daysIn year month) (← past? '-' rest)
  return rest

/-- What follows the fraction of a second, if there is one. -/
def secondFraction? : List Char → Option (List Char)
  | '.' :: rest =>
    if (rest.takeWhile Char.isDigit).isEmpty then none else some (rest.dropWhile Char.isDigit)
  | rest => some rest

/-- What follows a time of day. -/
def time? (text : List Char) : Option (List Char) := do
  let (_, rest) ← field? 2 0 23 text
  let (_, rest) ← field? 2 0 59 (← past? ':' rest)
  let (_, rest) ← field? 2 0 60 (← past? ':' rest)
  secondFraction? rest

/-- Whether a text is the offset of a time zone, or empty. -/
def isOffset (text : List Char) : Bool :=
  match text with
  | [] => true
  | c :: rest =>
    if c = 'Z' ∨ c = 'z' then rest.isEmpty
    else if c = '+' ∨ c = '-' then
      let after := do
        let (_, rest) ← field? 2 0 23 rest
        let (_, rest) ← field? 2 0 59 (← past? ':' rest)
        return rest
      after == some []
    else false

/-- Whether a text is a time of day with or without an offset. -/
def isTimed (text : List Char) : Bool := ((time? text).map isOffset).getD false

/-- What follows a date or a time that starts with `token`; a time may stand behind a date and a
blank. -/
def moment? (token rest : List Char) : Option (List Char) :=
  match date? token with
  | none => if time? token = some [] then some rest else none
  | some [] =>
    match rest with
    | ' ' :: more =>
      if isTimed (more.takeWhile isToken) then some (more.dropWhile isToken) else some rest
    | _ => some rest
  | some (t :: time) => if (t = 'T' ∨ t = 't') ∧ isTimed time then some rest else none

/-- A number, a truth value or a date. -/
def token : Reader Value := fun text =>
  let word := text.takeWhile isToken
  let rest := text.dropWhile isToken
  if word = "true".toList then some (.boolean true, rest)
  else if word = "false".toList then some (.boolean false, rest)
  else
    match integer? word, float? word, moment? word rest with
    | some n, _, _ => some (.integer n, rest)
    | none, some x, _ => some (.float x, rest)
    | none, none, some rest => some (.moment, rest)
    | none, none, none => none

end Toml

end Toolpath
