import Gradual.Text.Hex
import Gradual.Yaml.Cursor

/-!
Scalars of a YAML text: plain, in single or double quotes, and block scalars. Line breaks inside
plain and quoted scalars fold into spaces, and so do those of folded block scalars.
-/
namespace Gradual.Yaml

/-- Blanks and line breaks between the words of a scalar. -/
structure Gap where
  spaces : List Char
  broken : Bool
  first : List Char
  more : List Char

namespace Gap

def none : Gap := ⟨[], false, [], []⟩

/-- A gap that begins with a line break that does not count. -/
def escaped : Gap := ⟨[], true, [], []⟩

/-- What a gap adds to a text: one line break folds into a space, and further ones stay. -/
def folded (g : Gap) : List Char :=
  if !g.broken then g.spaces
  else if g.first = ['\n'] then (if g.more.isEmpty then [' '] else g.more)
  else g.first ++ g.more

end Gap

/-- Takes a gap. A tab on a new line may not stand left of `indent`. -/
def takeGap (indent : Nat) : Nat → Gap → Cursor → Except Error (Gap × Cursor)
  | 0, g, c => .ok (g, c)
  | fuel + 1, g, c =>
    match c.peek with
    | some ch =>
      if isBlank ch then
        if g.broken ∧ c.column < indent ∧ ch = '\t' then .error .token
        else takeGap indent fuel (if g.broken then g else { g with spaces := g.spaces ++ [ch] }) c.skip
      else if isBreak ch then
        let (b, c) := c.takeBreak
        takeGap indent fuel
          (if g.broken then { g with more := g.more ++ b } else ⟨[], true, b, g.more⟩) c
      else .ok (g, c)
    | none => .ok (g, c)

/-- The characters that end a plain scalar inside brackets. -/
def isFlowMark (c : Char) : Bool := c = ',' || c = '?' || c = '[' || c = ']' || c = '{' || c = '}'

/-- A word of a plain scalar: it ends at a blank, at a colon before a blank, and inside brackets at
a mark. -/
def plainWord (flow : Bool) : List Char → List Char
  | [] => []
  | c :: rest =>
    if isSpace c then []
    else if c = ':' ∧ rest.head?.all isSpace then []
    else if flow ∧ isFlowMark c then []
    else c :: plainWord flow rest

structure PlainScalar where
  text : List Char
  /-- Whether the scalar was followed by a line break, which was taken too. -/
  broken : Bool
  next : Cursor

/-- Takes a plain scalar word by word; `indent` is the column that its lines must reach. -/
def takePlain (flow : Bool) (indent : Nat) : Nat → List Char → Gap → Cursor → Except Error PlainScalar
  | 0, text, g, c => .ok ⟨text, g.broken, c⟩
  | fuel + 1, text, g, c =>
    let word := plainWord flow c.rest
    if c.atDocumentMark ∨ c.sees 0 '#' ∨ word.isEmpty then .ok ⟨text, g.broken, c⟩
    else
      let text := text ++ g.folded ++ word
      let c := c.advance word.length
      if !c.peek.any isSpace then .ok ⟨text, false, c⟩
      else do
        let (g, c) ← takeGap indent (c.rest.length + 1) Gap.none c
        if !flow ∧ c.column < indent then .ok ⟨text, g.broken, c⟩
        else takePlain flow indent fuel text g c

/-- Escapes of one letter. -/
def escapeOf? : Char → Option Char
  | '0' => some (Char.ofNat 0)
  | 'a' => some (Char.ofNat 7)
  | 'b' => some (Char.ofNat 8)
  | 't' | '\t' => some '\t'
  | 'n' => some '\n'
  | 'v' => some (Char.ofNat 11)
  | 'f' => some (Char.ofNat 12)
  | 'r' => some '\r'
  | 'e' => some (Char.ofNat 27)
  | ' ' => some ' '
  | '"' => some '"'
  | '\'' => some '\''
  | '\\' => some '\\'
  | 'N' => some (Char.ofNat 0x85)
  | '_' => some (Char.ofNat 0xa0)
  | 'L' => some (Char.ofNat 0x2028)
  | 'P' => some (Char.ofNat 0x2029)
  | _ => none

/-- The number of hexadecimal digits after an escape that names a character. -/
def escapeDigits? : Char → Option Nat
  | 'x' => some 2
  | 'u' => some 4
  | 'U' => some 8
  | _ => none

/-- The character after a backslash, and how many places it takes. -/
def takeEscape (rest : List Char) : Except Error (Char × Nat) :=
  match rest with
  | [] => .error .token
  | c :: digits =>
    match escapeOf? c, escapeDigits? c with
    | some ch, _ => .ok (ch, 1)
    | none, some n =>
      match Text.hexValue? (digits.take n) with
      | some code =>
        if digits.length < n ∨ 0x10ffff < code ∨ (0xd800 ≤ code ∧ code ≤ 0xdfff) then .error .token
        else .ok (Char.ofNat code, n + 1)
      | none => .error .token
    | none, none => .error .token

/-- Takes a quoted scalar after its opening quote; the text is collected backwards. -/
def takeQuoted (single : Bool) : Nat → List Char → Cursor → Except Error (List Char × Cursor)
  | 0, _, _ => .error .token
  | fuel + 1, text, c =>
    if c.atDocumentMark then .error .token
    else match c.rest with
      | [] => .error .token
      | ch :: rest =>
        if single ∧ ch = '\'' then
          if c.sees 1 '\'' then takeQuoted single fuel ('\'' :: text) (c.advance 2)
          else .ok (text.reverse, c.skip)
        else if !single ∧ ch = '"' then .ok (text.reverse, c.skip)
        else if !single ∧ ch = '\\' then
          if c.breakAt 1 then do
            let (g, c) ← takeGap 0 (rest.length + 1) Gap.escaped c.skip.skipBreak
            takeQuoted single fuel (g.folded.reverse ++ text) c
          else do
            let (escaped, n) ← takeEscape rest
            takeQuoted single fuel (escaped :: text) (c.advance (n + 1))
        else if isSpace ch then do
          let (g, c) ← takeGap 0 (rest.length + 2) Gap.none c
          takeQuoted single fuel (g.folded.reverse ++ text) c
        else takeQuoted single fuel (ch :: text) c.skip

/-- What happens to the line breaks at the end of a block scalar. -/
inductive Chomping where
  | strip | clip | keep
  deriving DecidableEq, Repr

def chompingOf? : Option Char → Option Chomping
  | some '+' => some .keep
  | some '-' => some .strip
  | _ => none

/-- An indentation indicator is a digit other than zero. -/
def takeIncrement (c : Cursor) : Except Error (Nat × Cursor) :=
  match c.peek with
  | some d =>
    if d = '0' then .error .token
    else if d.isDigit then .ok (d.toNat - 48, c.skip)
    else .ok (0, c)
  | none => .ok (0, c)

/-- The indicators of a block scalar, in either order. -/
def takeIndicators (c : Cursor) : Except Error (Chomping × Nat × Cursor) :=
  match chompingOf? c.peek with
  | some chomping => do
    let (increment, c) ← takeIncrement c.skip
    return (chomping, increment, c)
  | none => do
    let (increment, c) ← takeIncrement c
    if increment = 0 then return (.clip, 0, c)
    else match chompingOf? c.peek with
      | some chomping => return (chomping, increment, c.skip)
      | none => return (.clip, increment, c)

/-- Takes the empty lines and the indentation before a line of a block scalar. With `indent` zero
the indentation is not known yet; the widest one seen is returned. -/
def takeBlockBreaks (indent : Nat) :
    Nat → Nat → List Char → Cursor → Except Error (Nat × List Char × Cursor)
  | 0, widest, breaks, c => .ok (widest, breaks, c)
  | fuel + 1, widest, breaks, c =>
    let spaces := (c.rest.takeWhile (· = ' ')).length
    let c := c.advance (if indent = 0 then spaces else min spaces (indent - c.column))
    let widest := max widest c.column
    if (indent = 0 ∨ c.column < indent) ∧ c.sees 0 '\t' then .error .token
    else if c.breakAt 0 then
      let (b, c) := c.takeBreak
      takeBlockBreaks indent fuel widest (breaks ++ b) c
    else .ok (widest, breaks, c)

/-- The lines of a block scalar. `first` is the break after the last line, `more` the empty lines
after it, and `spaced` says that the last line began with a blank. -/
def takeBlockLines (literal : Bool) (indent : Nat) :
    Nat → List Char → List Char → List Char → Bool → Cursor →
      Except Error (List Char × List Char × List Char × Cursor)
  | 0, text, first, more, _, c => .ok (text, first, more, c)
  | fuel + 1, text, first, more, spaced, c =>
    if c.column ≠ indent ∨ c.atEnd then .ok (text, first, more, c)
    else do
      let blank := c.blankAt 0
      let joint :=
        if !literal ∧ !spaced ∧ !blank ∧ first = ['\n'] then (if more.isEmpty then [' '] else [])
        else first
      let (line, c) := c.takeWhile fun ch => !isBreak ch
      let text := text ++ joint ++ more ++ line
      let (first, c) := c.takeBreak
      let (_, more, c) ← takeBlockBreaks indent (c.rest.length + 1) 0 [] c
      takeBlockLines literal indent fuel text first more blank c

/-- Takes a block scalar after its mark; `parent` is the indentation around it. -/
def takeBlock (literal : Bool) (parent : Int) (c : Cursor) : Except Error (List Char × Cursor) := do
  let (chomping, increment, c) ← takeIndicators c
  let c := c.skipBlanks
  let c := if c.sees 0 '#' then c.skipToLineEnd else c
  if !c.lineEndAt 0 then throw .token
  let c := c.skipBreak
  let given := if increment = 0 then 0 else (max parent 0).toNat + increment
  let (widest, more, c) ← takeBlockBreaks given (c.rest.length + 1) 0 [] c
  let indent := if given ≠ 0 then given else max widest (max (parent + 1) 1).toNat
  let (text, first, more, c) ← takeBlockLines literal indent (c.rest.length + 1) [] [] more false c
  return (match chomping with
    | .strip => text
    | .clip => text ++ first
    | .keep => text ++ first ++ more, c)

end Gradual.Yaml
