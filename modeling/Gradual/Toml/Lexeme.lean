import Gradual.Text.Hex

/-!
The lexemes of TOML: keys, strings, numbers and times. Each reader takes one lexeme off the front of a
text and returns what is left.
-/
namespace Gradual.Toml

/-- A reader of one thing. -/
abbrev Reader (α : Type) := List Char → Option (α × List Char)

def isSpace (c : Char) : Bool := c = ' ' || c = '\t'

def isBreak (c : Char) : Bool := c = '\n' || c = '\r'

def skipSpace (cs : List Char) : List Char := cs.dropWhile isSpace

def isHexDigit (c : Char) : Bool := (Text.hexDigitValue? c).isSome

/-- A text may hold no control characters but tab and line breaks, and a carriage return only before
a line feed. -/
def isClean : List Char → Bool
  | [] => true
  | '\r' :: rest => rest.head? = some '\n' && isClean rest
  | c :: rest =>
    (c = '\t' || c = '\n' || (32 ≤ c.toNat && c.toNat ≠ 127)) && isClean rest

/-- The character of `n` hexadecimal digits. -/
def takeCode (n : Nat) : Reader Char := fun cs => do
  let digits := cs.take n
  if digits.length < n then none
  let code ← Text.hexValue? digits
  if 0x10ffff < code ∨ (0xd800 ≤ code ∧ code ≤ 0xdfff) then none
  return (Char.ofNat code, cs.drop n)

/-- The character after a backslash. -/
def takeEscape : Reader Char
  | 'b' :: cs => some (Char.ofNat 8, cs)
  | 't' :: cs => some ('\t', cs)
  | 'n' :: cs => some ('\n', cs)
  | 'f' :: cs => some (Char.ofNat 12, cs)
  | 'r' :: cs => some ('\r', cs)
  | 'e' :: cs => some (Char.ofNat 27, cs)
  | '"' :: cs => some ('"', cs)
  | '\\' :: cs => some ('\\', cs)
  | 'x' :: cs => takeCode 2 cs
  | 'u' :: cs => takeCode 4 cs
  | 'U' :: cs => takeCode 8 cs
  | _ => none

/-- A string on one line, after its opening quote; collected backwards. -/
def takeBasic : Nat → List Char → Reader String
  | 0, _, _ => none
  | _, _, [] => none
  | fuel + 1, text, c :: cs =>
    if c = '"' then some (String.ofList text.reverse, cs)
    else if isBreak c then none
    else if c = '\\' then do
      let (escaped, cs) ← takeEscape cs
      takeBasic fuel (escaped :: text) cs
    else takeBasic fuel (c :: text) cs

/-- A string without escapes on one line, after its opening quote. -/
def takeLiteral (cs : List Char) : Option (String × List Char) :=
  let text := cs.takeWhile fun c => c ≠ '\'' && !isBreak c
  match cs.drop text.length with
  | '\'' :: rest => some (String.ofList text, rest)
  | _ => none

/-- A line break right after the opening quotes does not count. -/
def skipFirstBreak : List Char → List Char
  | '\n' :: cs => cs
  | '\r' :: '\n' :: cs => cs
  | cs => cs

/-- How a run of quotes ends a string of several lines: three quotes do, up to two before them belong
to the string. -/
def closing (run : Nat) : Option Nat := if 3 ≤ run ∧ run ≤ 5 then some (run - 3) else none

/-- A string of several lines, after its opening quotes; collected backwards. A backslash at the end
of a line takes away all blanks and breaks that follow it. -/
def takeLong : Nat → List Char → Reader String
  | 0, _, _ => none
  | _, _, [] => none
  | fuel + 1, text, c :: cs =>
    if c = '"' then
      let run := (cs.takeWhile (· = '"')).length + 1
      let rest := cs.drop (run - 1)
      if run < 3 then takeLong fuel (List.replicate run '"' ++ text) rest
      else do
        let kept ← closing run
        return (String.ofList (List.replicate kept '"' ++ text).reverse, rest)
    else if c = '\\' then
      let blanks := cs.takeWhile fun c => isSpace c || isBreak c
      if blanks.isEmpty then do
        let (escaped, cs) ← takeEscape cs
        takeLong fuel (escaped :: text) cs
      else if blanks.contains '\n' then takeLong fuel text (cs.drop blanks.length)
      else none
    else takeLong fuel (c :: text) cs

/-- A string of several lines without escapes, after its opening quotes; collected backwards. -/
def takeLongLiteral : Nat → List Char → Reader String
  | 0, _, _ => none
  | _, _, [] => none
  | fuel + 1, text, c :: cs =>
    if c = '\'' then
      let run := (cs.takeWhile (· = '\'')).length + 1
      let rest := cs.drop (run - 1)
      if run < 3 then takeLongLiteral fuel (List.replicate run '\'' ++ text) rest
      else do
        let kept ← closing run
        return (String.ofList (List.replicate kept '\'' ++ text).reverse, rest)
    else takeLongLiteral fuel (c :: text) cs

/-- A string value, by its opening quotes. -/
def takeString (cs : List Char) : Option (String × List Char) :=
  let fuel := cs.length + 1
  match cs with
  | '"' :: '"' :: '"' :: rest => takeLong fuel [] (skipFirstBreak rest)
  | '"' :: rest => takeBasic fuel [] rest
  | '\'' :: '\'' :: '\'' :: rest => takeLongLiteral fuel [] (skipFirstBreak rest)
  | '\'' :: rest => takeLiteral rest
  | _ => none

def isBareChar (c : Char) : Bool := c.isAlphanum || c = '_' || c = '-'

/-- One part of a key. -/
def takeKeyPart (cs : List Char) : Option (String × List Char) :=
  match cs with
  | '"' :: rest => takeBasic (cs.length + 1) [] rest
  | '\'' :: rest => takeLiteral rest
  | _ =>
    let name := cs.takeWhile isBareChar
    if name.isEmpty then none else some (String.ofList name, cs.drop name.length)

/-- The parts of a key, divided by points, up to a mark that ends it. -/
def takeKey (mark : Char) : Nat → Reader (List String)
  | 0, _ => none
  | fuel + 1, cs => do
    let (name, cs) ← takeKeyPart (skipSpace cs)
    match skipSpace cs with
    | '.' :: rest =>
      let (more, rest) ← takeKey mark fuel rest
      return (name :: more, rest)
    | c :: rest => if c = mark then some ([name], rest) else none
    | [] => none

/-- Each underscore stands between digits. -/
def underscoresFit (cs : List Char) : Bool :=
  let step (state : Bool × Bool) (c : Char) : Bool × Bool :=
    (state.1 && (c ≠ '_' || state.2), isHexDigit c)
  let (fit, last) := cs.foldl step (true, false)
  fit && last

def hasLeadingZero : List Char → Bool
  | '0' :: c :: _ => !(c = 'b' || c = 'o' || c = 'x')
  | '-' :: '0' :: _ :: _ | '+' :: '0' :: _ :: _ => true
  | _ => false

def digitsValue? (base : Nat) (cs : List Char) : Option Nat :=
  let step (n : Nat) (c : Char) : Option Nat := do
    let d ← Text.hexDigitValue? c
    if d < base then some (n * base + d) else none
  if cs.isEmpty then none else cs.foldlM step 0

def magnitude? : List Char → Option Nat
  | '0' :: 'x' :: cs => digitsValue? 16 cs
  | '0' :: 'o' :: cs => digitsValue? 8 cs
  | '0' :: 'b' :: cs => digitsValue? 2 cs
  | cs => digitsValue? 10 cs

/-- An integer of 64 bits. -/
def integerOf? (cs : List Char) : Option Int :=
  if !underscoresFit cs || hasLeadingZero cs then none
  else match cs.filter (· ≠ '_') with
    | '-' :: digits => do
      let n ← magnitude? digits
      if n ≤ 0x8000000000000000 then some (-(n : Int)) else none
    | '+' :: digits => do
      let n ← magnitude? digits
      if n < 0x8000000000000000 then some (n : Int) else none
    | digits => do
      let n ← magnitude? digits
      if n < 0x8000000000000000 then some (n : Int) else none

/-- Splits at the characters of a fraction. -/
def fractionParts (cs : List Char) : List (List Char) :=
  let step (c : Char) (parts : List (List Char)) : List (List Char) :=
    if c = '.' || c = 'e' || c = 'E' then [] :: parts
    else match parts with
      | part :: rest => (c :: part) :: rest
      | [] => [[c]]
  (cs.foldr step [[]]).filter (!·.isEmpty)

/-- Every point is followed by a digit. -/
def pointsFit : List Char → Bool
  | [] => true
  | '.' :: cs => cs.head?.any Char.isDigit && pointsFit cs
  | _ :: cs => pointsFit cs

def dropSign : List Char → List Char
  | '+' :: cs | '-' :: cs => cs
  | cs => cs

/-- Digits, an optional fraction and an optional exponent; the size of the number must be that of a
double. -/
def isDecimal (cs : List Char) : Bool :=
  let whole := cs.takeWhile Char.isDigit
  let rest := cs.drop whole.length
  let fraction := match rest with
    | '.' :: ds => ds.takeWhile Char.isDigit
    | _ => []
  let rest := match rest with
    | '.' :: ds => ds.drop fraction.length
    | _ => rest
  let exponent : Option Int := match rest with
    | [] => some 0
    | e :: ds =>
      if e = 'e' || e = 'E' then
        (digitsValue? 10 (dropSign ds)).map fun n => if ds.head? = some '-' then -(n : Int) else n
      else none
  match exponent with
  | none => false
  | some e =>
    let digits := whole ++ fraction
    let significant := digits.dropWhile (· = '0')
    -- the number is below 10 ^ size; the largest double is about 1.8e308
    let size : Int := e + significant.length - fraction.length
    !(whole.isEmpty && fraction.isEmpty) &&
      (significant.isEmpty || size ≤ 308 || (size = 309 && fitsLargest significant))
where
  /-- Whether digits that begin a number of 309 places keep it within a double. -/
  fitsLargest (digits : List Char) : Bool :=
    let limit : Nat := Nat.pow 2 1024 - Nat.pow 2 970
    match digitsValue? 10 (digits.take 400) with
    | none => false
    | some n =>
      let places := (digits.take 400).length
      if places ≤ 309 then n * Nat.pow 10 (309 - places) < limit
      else n < limit * Nat.pow 10 (places - 309)

def isFloat (cs : List Char) : Bool :=
  let parts := fractionParts cs
  parts.all underscoresFit && !(parts.head?.any hasLeadingZero) && pointsFit cs &&
    isDecimal (dropSign (cs.filter (· ≠ '_')))

def twoDigits? (low high : Nat) : Reader Nat
  | a :: b :: cs => do
    let n ← digitsValue? 10 [a, b]
    if low ≤ n ∧ n ≤ high then some (n, cs) else none
  | _ => none

def daysIn (year month : Nat) : Nat :=
  if month = 2 then
    (if year % 4 = 0 ∧ (year % 100 ≠ 0 ∨ year % 400 = 0) then 29 else 28)
  else if month = 4 ∨ month = 6 ∨ month = 9 ∨ month = 11 then 30
  else 31

def takeDate (cs : List Char) : Option (List Char) := do
  let year ← digitsValue? 10 (cs.take 4)
  match cs.drop 4 with
  | '-' :: rest =>
    let (month, rest) ← twoDigits? 1 12 rest
    match rest with
    | '-' :: rest =>
      let (day, rest) ← twoDigits? 1 31 rest
      if daysIn year month < day then none else some rest
    | _ => none
  | _ => none

/-- A time of day; the seconds may be left out. -/
def takeTime (cs : List Char) : Option (List Char) := do
  let (_, rest) ← twoDigits? 0 23 cs
  match rest with
  | ':' :: rest =>
    let (_, rest) ← twoDigits? 0 59 rest
    match rest with
    | ':' :: rest =>
      let (_, rest) ← twoDigits? 0 59 rest
      match rest with
      | '.' :: ds =>
        if ds.head?.any Char.isDigit then some (ds.dropWhile Char.isDigit) else none
      | _ => some rest
    | _ => some rest
  | _ => none

def isZone : List Char → Bool
  | [] => true
  | ['Z'] | ['z'] => true
  | sign :: rest =>
    (sign = '+' || sign = '-') &&
      match twoDigits? 0 24 rest with
      | some (_, ':' :: minutes) => (twoDigits? 0 60 minutes).any (·.2.isEmpty)
      | _ => false

/-- A date, a time, or both with an optional zone. -/
def isTime (cs : List Char) : Bool :=
  match takeDate cs with
  | some [] => true
  | some (mark :: rest) =>
    (mark = 'T' || mark = 't' || mark = ' ') && (takeTime rest).any isZone
  | none => takeTime cs = some []

end Gradual.Toml
