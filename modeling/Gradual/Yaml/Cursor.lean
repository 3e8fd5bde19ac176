/-!
Positions in a YAML text. A cursor holds what is left of the text and counts characters, lines and
columns; it also knows how many line breaks it has passed since the last character that was not
blank.
-/
namespace Gradual.Yaml

inductive Error where
  /-- A character or an encoding that a text may not have. -/
  | character
  | token
  | shape
  | anchor
  | value
  deriving DecidableEq, Repr

def isBlank (c : Char) : Bool := c = ' ' || c = '\t'

/-- Line feed, carriage return, next line, line separator and paragraph separator. -/
def isBreak (c : Char) : Bool :=
  c = '\n' || c = '\r' || c.toNat = 0x85 || c.toNat = 0x2028 || c.toNat = 0x2029

def isSpace (c : Char) : Bool := isBlank c || isBreak c

/-- Letters, digits, underscore and hyphen. -/
def isWordChar (c : Char) : Bool := c.isAlphanum || c = '_' || c = '-'

structure Cursor where
  rest : List Char
  index : Nat
  line : Nat
  column : Nat
  newlines : Nat

namespace Cursor

def start (text : List Char) : Cursor := ⟨text, 0, 0, 0, 0⟩

def peek (c : Cursor) : Option Char := c.rest.head?

def peekAt (c : Cursor) (n : Nat) : Option Char := c.rest[n]?

def atEnd (c : Cursor) : Bool := c.rest.isEmpty

/-- Whether the character some places ahead is the given one. -/
def sees (c : Cursor) (n : Nat) (ch : Char) : Bool := c.peekAt n = some ch

/-- Whether the text ends or has a blank or a break some places ahead. -/
def spaceAt (c : Cursor) (n : Nat) : Bool := (c.peekAt n).all isSpace

def blankAt (c : Cursor) (n : Nat) : Bool := (c.peekAt n).any isBlank

def breakAt (c : Cursor) (n : Nat) : Bool := (c.peekAt n).any isBreak

/-- Whether the line, or the text, ends some places ahead. -/
def lineEndAt (c : Cursor) (n : Nat) : Bool := (c.peekAt n).all isBreak

/-- Goes on over characters of one line. -/
def advance (c : Cursor) (n : Nat) : Cursor :=
  let passed := c.rest.take n
  { rest := c.rest.drop n
    index := c.index + passed.length
    line := c.line
    column := c.column + passed.length
    newlines := if passed.all isBlank then c.newlines else 0 }

def skip (c : Cursor) : Cursor := c.advance 1

/-- Takes the characters of one line while they satisfy a test. -/
def takeWhile (c : Cursor) (p : Char → Bool) : List Char × Cursor :=
  let taken := c.rest.takeWhile p
  (taken, c.advance taken.length)

def skipWhile (c : Cursor) (p : Char → Bool) : Cursor := (c.takeWhile p).2

def skipBlanks (c : Cursor) : Cursor := c.skipWhile isBlank

def skipToLineEnd (c : Cursor) : Cursor := c.skipWhile fun ch => !isBreak ch

/-- Goes over a line break and says how it counts in a text: the separators of lines and paragraphs
stay, every other break is a line feed. -/
def takeBreak (c : Cursor) : List Char × Cursor :=
  let next (n : Nat) : Cursor :=
    { rest := c.rest.drop n, index := c.index + n, line := c.line + 1, column := 0,
      newlines := c.newlines + 1 }
  match c.rest with
  | '\r' :: '\n' :: _ => (['\n'], next 2)
  | ch :: _ =>
    if !isBreak ch then ([], c)
    else if ch.toNat = 0x2028 || ch.toNat = 0x2029 then ([ch], next 1)
    else (['\n'], next 1)
  | [] => ([], c)

def skipBreak (c : Cursor) : Cursor := c.takeBreak.2

/-- Whether a line starts here with the mark of a document's start or end. -/
def atMark (c : Cursor) (ch : Char) : Bool :=
  c.column = 0 && c.sees 0 ch && c.sees 1 ch && c.sees 2 ch && c.spaceAt 3

def atDocumentMark (c : Cursor) : Bool := c.atMark '-' || c.atMark '.'

end Cursor

/-- Characters that may stand in a text. -/
def isAllowed (c : Char) : Bool :=
  let n := c.toNat
  n = 0x09 || n = 0x0a || n = 0x0d || (0x20 ≤ n && n ≤ 0x7e) || n = 0x85 ||
    (0xa0 ≤ n && n ≤ 0xd7ff) || (0xe000 ≤ n && n ≤ 0xfffd && n ≠ 0xfeff) || 0x10000 ≤ n

/-- The units of a text in UTF-16, the first byte being the high or the low one. -/
def units16 (bigEndian : Bool) : List UInt8 → Option (List Nat)
  | [] => some []
  | [_] => none
  | a :: b :: rest => do
    let units ← units16 bigEndian rest
    let (hi, lo) := if bigEndian then (a, b) else (b, a)
    return (hi.toNat * 256 + lo.toNat) :: units

def ofUnits16 : List Nat → Option (List Char)
  | [] => some []
  | u :: rest =>
    if 0xd800 ≤ u ∧ u < 0xdc00 then
      match rest with
      | v :: rest =>
        if 0xdc00 ≤ v ∧ v < 0xe000 then do
          let cs ← ofUnits16 rest
          return Char.ofNat (0x10000 + (u - 0xd800) * 1024 + (v - 0xdc00)) :: cs
        else none
      | [] => none
    else if 0xdc00 ≤ u ∧ u < 0xe000 then none
    else do
      let cs ← ofUnits16 rest
      return Char.ofNat u :: cs

/-- The characters of a text: UTF-16 if it begins with a byte order mark that says so, else UTF-8,
with or without a mark. -/
def characters (bytes : List UInt8) : Except Error (List Char) :=
  let decoded : Option (List Char) :=
    match bytes with
    | 0xff :: 0xfe :: rest => (units16 false rest).bind ofUnits16
    | 0xfe :: 0xff :: rest => (units16 true rest).bind ofUnits16
    | 0xef :: 0xbb :: 0xbf :: rest => (String.fromUTF8? ⟨rest.toArray⟩).map String.toList
    | _ => (String.fromUTF8? ⟨bytes.toArray⟩).map String.toList
  match decoded with
  | none => .error .character
  | some cs => if cs.all isAllowed then .ok cs else .error .character

end Gradual.Yaml
