import Gradual.Yaml.Scalar

/-!
Tokens of a YAML text. Indentation shows as tokens that open and close block collections. A key needs
no mark before it: it is recognised by the colon behind it, at most 1024 characters later on the same
line, and the tokens that open it are then put before it.
-/
namespace Gradual.Yaml

inductive Token where
  | streamStart
  | streamEnd
  | version (major minor : Nat)
  | tagHandle (handle expansion : String)
  | documentStart
  | documentEnd
  | blockSequenceStart
  | blockMappingStart
  | blockEnd
  | flowSequenceStart
  | flowSequenceEnd
  | flowMappingStart
  | flowMappingEnd
  | blockEntry
  | flowEntry
  | key
  | value
  | reference (name : String)
  | anchor (name : String)
  | tag (handle suffix : String)
  | scalar (text : String) (plain : Bool)
  deriving DecidableEq, Repr

/-- A place where a key may have begun. A key is required where the indentation calls for one. -/
structure PossibleKey where
  required : Bool
  token : Nat
  index : Nat
  line : Nat
  column : Nat

structure Scanner where
  cursor : Cursor
  /-- How many brackets are open. -/
  flow : Nat
  indent : Int
  indents : List Int
  keyAllowed : Bool
  /-- The possible key of each open bracket, innermost first. -/
  keys : List (Option PossibleKey)
  tokens : Array Token

namespace Scanner

def start (text : List Char) : Scanner :=
  ⟨Cursor.start text, 0, -1, [], true, [none], #[.streamStart]⟩

abbrev Step := Except Error Scanner

def push (s : Scanner) (t : Token) : Scanner := { s with tokens := s.tokens.push t }

def allowKey (s : Scanner) (allowed : Bool) : Scanner := { s with keyAllowed := allowed }

def moveTo (s : Scanner) (c : Cursor) : Scanner := { s with cursor := c }

def skip (s : Scanner) (n : Nat) : Scanner := s.moveTo (s.cursor.advance n)

/-- Whether a colon here would still make a key of it. -/
def inReach (s : Scanner) (k : PossibleKey) : Bool :=
  !(k.line < s.cursor.line || k.index + 1024 < s.cursor.index)

/-- Gives up the possible key of this level, which must not be a required one. -/
def dropKey (s : Scanner) : Step :=
  match s.keys with
  | some k :: outer => if k.required then .error .token else .ok { s with keys := none :: outer }
  | _ => .ok s

/-- Notes that a key may begin here. -/
def saveKey (s : Scanner) : Step :=
  if !s.keyAllowed then .ok s
  else do
    let c := s.cursor
    let k : PossibleKey :=
      ⟨s.flow = 0 && s.indent = c.column, s.tokens.size, c.index, c.line, c.column⟩
    let s ← s.dropKey
    return { s with keys := some k :: s.keys.drop 1 }

/-- Closes the block collections that are indented deeper than a column. -/
def unrollFrom (column : Int) : List Int → Int → Array Token → Int × List Int × Array Token
  | [], indent, tokens => (indent, [], tokens)
  | outer :: rest, indent, tokens =>
    if column < indent then unrollFrom column rest outer (tokens.push .blockEnd)
    else (indent, outer :: rest, tokens)

def unroll (s : Scanner) (column : Int) : Scanner :=
  if s.flow ≠ 0 then s
  else
    let (indent, indents, tokens) := unrollFrom column s.indents s.indent s.tokens
    { s with indent, indents, tokens }

/-- Block collections may nest this deep, and so may brackets. -/
def maxNesting : Nat := 10000

/-- Opens a block collection if a column is deeper than the indentation. Its token goes before the
token at a position. -/
def roll (s : Scanner) (column : Nat) (position : Nat) (t : Token) : Step :=
  if s.flow = 0 ∧ s.indent < column then
    if maxNesting ≤ s.indents.length then .error .token
    else .ok { s with
      indents := s.indent :: s.indents, indent := column
      tokens := s.tokens.insertIdxIfInBounds position t }
  else .ok s

/-- Opens a block collection here. -/
def rollHere (s : Scanner) (t : Token) : Step := s.roll s.cursor.column s.tokens.size t

/-- Comments on consecutive lines are passed together, whatever blanks are before them. -/
def skipComments : Nat → Cursor → Cursor
  | 0, c => c
  | fuel + 1, c =>
    let c := c.skipToLineEnd
    let gap := c.rest.takeWhile isSpace
    if c.rest[gap.length]? = some '#' then
      match takeGap 0 (c.rest.length + 1) Gap.none c with
      | .ok (_, next) => skipComments fuel next
      | .error _ => c
    else c

/-- Passes blanks, comments and line breaks. Where a key may begin, tabs are no blanks. -/
def skipToToken : Nat → Scanner → Scanner
  | 0, s => s
  | fuel + 1, s =>
    let tabs := s.flow ≠ 0 ∨ !s.keyAllowed
    let c := s.cursor.skipWhile fun ch => ch = ' ' || (tabs && ch = '\t')
    let c := if c.sees 0 '#' then skipComments (c.rest.length + 1) c else c
    if c.breakAt 0 then
      skipToToken fuel { s with
        cursor := c.skipBreak, keyAllowed := s.keyAllowed || s.flow = 0 }
    else s.moveTo c

/-- Passes a comment on the line of the token just read. -/
def skipLineComment (s : Scanner) : Scanner :=
  let c := s.cursor
  if c.newlines ≠ 0 then s
  else
    let next := c.skipBlanks
    if next.sees 0 '#' then s.moveTo next.skipToLineEnd else s

def isUriChar (c : Char) : Bool := isWordChar c || ";/?:@&=+$,.!~*'()[]%".toList.contains c

/-- The bytes of characters written as percent and two digits. -/
def takeOctets : Nat → List Char → Option (List UInt8 × Nat)
  | 0, _ => some ([], 0)
  | fuel + 1, '%' :: hi :: lo :: rest => do
    let value ← Text.hexValue? [hi, lo]
    let (bytes, n) ← takeOctets fuel rest
    return (UInt8.ofNat value :: bytes, n + 3)
  | _ + 1, _ => none

/-- The number of bytes of the character that a byte begins. -/
def octetsOf (b : Nat) : Nat :=
  if b < 0x80 then 1
  else if b / 32 = 6 then 2
  else if b / 16 = 14 then 3
  else if b / 8 = 30 then 4
  else 0

/-- A run of characters of a URI, escapes resolved. -/
def takeUri : Nat → List Char → Cursor → Except Error (List Char × Cursor)
  | 0, text, c => .ok (text, c)
  | fuel + 1, text, c =>
    match c.peek with
    | some '%' =>
      match takeOctets 1 c.rest with
      | some ([lead], _) =>
        match takeOctets (octetsOf lead.toNat) c.rest with
        | some (bytes, n) =>
          match String.fromUTF8? ⟨bytes.toArray⟩ with
          | some ch => if n = 0 then .error .token else takeUri fuel (text ++ ch.toList) (c.advance n)
          | none => .error .token
        | none => .error .token
      | _ => .error .token
    | some ch => if isUriChar ch then takeUri fuel (text ++ [ch]) c.skip else .ok (text, c)
    | none => .ok (text, c)

/-- A tag handle: an exclamation mark, or a word between two. -/
def takeHandle (c : Cursor) : List Char × Cursor :=
  let (word, next) := c.skip.takeWhile isWordChar
  if next.sees 0 '!' then ('!' :: word ++ ['!'], next.skip) else ('!' :: word, next)

/-- Takes the rest of a tag behind what was read of it already. -/
def takeTagUri (head : List Char) (c : Cursor) : Except Error (List Char × Cursor) := do
  let (uri, next) ← takeUri (c.rest.length + 1) [] c
  if head.isEmpty ∧ uri.isEmpty then throw .token
  return (head.drop 1 ++ uri, next)

def takeTag (c : Cursor) : Except Error (Token × Cursor) := do
  let (t, c) ←
    if c.sees 1 '<' then do
      let (uri, c) ← takeTagUri [] (c.advance 2)
      if !c.sees 0 '>' then throw .token
      pure (Token.tag "" (String.ofList uri), c.skip)
    else do
      let (handle, c) := takeHandle c
      if 1 < handle.length ∧ handle.getLast? = some '!' then do
        let (uri, c) ← takeTagUri [] c
        pure (Token.tag (String.ofList handle) (String.ofList uri), c)
      else do
        let (uri, c) ← takeTagUri handle c
        if uri.isEmpty then pure (Token.tag "" "!", c)
        else pure (Token.tag "!" (String.ofList uri), c)
  if !c.spaceAt 0 then throw .token
  return (t, c)

/-- The name of an anchor or of a reference to one. -/
def takeName (c : Cursor) : Except Error (String × Cursor) :=
  let (name, c) := c.skip.takeWhile isWordChar
  let ends := c.spaceAt 0 || c.peek.any fun ch => "?:,]\x7d%@\x60".toList.contains ch
  if name.isEmpty || !ends then .error .token else .ok (String.ofList name, c)

def takeVersionNumber (c : Cursor) : Except Error (Nat × Cursor) :=
  let (digits, c) := c.takeWhile Char.isDigit
  if digits.isEmpty ∨ 2 < digits.length then .error .token
  else .ok (digits.foldl (fun n d => n * 10 + (d.toNat - 48)) 0, c)

def takeDirective (c : Cursor) : Except Error (Token × Cursor) := do
  let (name, c) := c.skip.takeWhile isWordChar
  if name.isEmpty ∨ !c.spaceAt 0 then throw .token
  let c := c.skipBlanks
  let (t, c) ← match String.ofList name with
    | "YAML" => do
      let (major, c) ← takeVersionNumber c
      if !c.sees 0 '.' then throw .token
      let (minor, c) ← takeVersionNumber c.skip
      pure (Token.version major minor, c)
    | "TAG" => do
      if !c.sees 0 '!' then throw .token
      let (handle, c) := takeHandle c
      if handle ≠ ['!'] ∧ (handle.length < 2 ∨ handle.getLast? ≠ some '!') then throw .token
      if !c.blankAt 0 then throw .token
      let (uri, c) ← takeTagUri [] c.skipBlanks
      if !c.spaceAt 0 then throw .token
      pure (Token.tagHandle (String.ofList handle) (String.ofList uri), c)
    | _ => throw .token
  let c := c.skipBlanks
  let c := if c.sees 0 '#' then c.skipToLineEnd else c
  if !c.lineEndAt 0 then throw .token
  return (t, c.skipBreak)

def atDocument (s : Scanner) (t : Token) : Step := do
  let s ← (s.unroll (-1)).dropKey
  return ((s.allowKey false).skip 3).push t

def fetchDirective (s : Scanner) : Step := do
  let s ← (s.unroll (-1)).dropKey
  let (t, c) ← takeDirective s.cursor
  return ((s.allowKey false).moveTo c).push t

def openFlow (s : Scanner) (t : Token) : Step := do
  let s ← s.saveKey
  if maxNesting ≤ s.flow then throw .token
  let s := { s with flow := s.flow + 1, keys := none :: s.keys }
  return ((s.allowKey true).skip 1).push t

def closeFlow (s : Scanner) (t : Token) : Step := do
  let s ← s.dropKey
  let s := if s.flow = 0 then s else { s with flow := s.flow - 1, keys := s.keys.drop 1 }
  return ((s.allowKey false).skip 1).push t

def fetchFlowEntry (s : Scanner) : Step := do
  let s ← s.dropKey
  return ((s.allowKey true).skip 1).push .flowEntry

def fetchBlockEntry (s : Scanner) : Step := do
  if s.flow = 0 ∧ !s.keyAllowed then throw .token
  let s ← s.rollHere .blockSequenceStart
  let s ← s.dropKey
  return ((s.allowKey true).skip 1).push .blockEntry

def fetchKey (s : Scanner) : Step := do
  if s.flow = 0 ∧ !s.keyAllowed then throw .token
  let s ← s.rollHere .blockMappingStart
  let s ← s.dropKey
  return ((s.allowKey (s.flow = 0)).skip 1).push .key

/-- A colon. If a key can have begun before it, the tokens that open it are put in there. -/
def fetchValue (s : Scanner) : Step := do
  match s.keys with
  | some k :: outer =>
    if s.inReach k then
      let s := { s with tokens := s.tokens.insertIdxIfInBounds k.token .key, keys := none :: outer }
      let s ← s.roll k.column k.token .blockMappingStart
      return ((s.allowKey false).skip 1).push .value
    else if k.required then throw .token
    else complex { s with keys := none :: outer }
  | _ => complex s
where
  complex (s : Scanner) : Step := do
    if s.flow = 0 ∧ !s.keyAllowed then throw .token
    let s ← s.rollHere .blockMappingStart
    return ((s.allowKey (s.flow = 0)).skip 1).push .value

def fetchNamed (s : Scanner) (t : String → Token) : Step := do
  let s ← s.saveKey
  let (name, c) ← takeName s.cursor
  return ((s.allowKey false).moveTo c).push (t name)

def fetchTag (s : Scanner) : Step := do
  let s ← s.saveKey
  let (t, c) ← takeTag s.cursor
  return ((s.allowKey false).moveTo c).push t

def fetchBlockScalar (s : Scanner) (literal : Bool) : Step := do
  let s ← s.dropKey
  let (text, c) ← takeBlock literal s.indent s.cursor.skip
  return ((s.allowKey true).moveTo c).push (.scalar (String.ofList text) false)

def fetchQuoted (s : Scanner) (single : Bool) : Step := do
  let s ← s.saveKey
  let c := s.cursor.skip
  let (text, c) ← takeQuoted single (c.rest.length + 1) [] c
  return ((s.allowKey false).moveTo c).push (.scalar (String.ofList text) false)

def fetchPlain (s : Scanner) : Step := do
  let s ← s.saveKey
  let c := s.cursor
  let scalar ← takePlain (s.flow ≠ 0) (s.indent + 1).toNat (c.rest.length + 1) [] Gap.none c
  return ((s.allowKey scalar.broken).moveTo scalar.next).push
    (.scalar (String.ofList scalar.text) true)

/-- Characters that cannot begin a plain scalar, some of them unless something follows. -/
def isIndicator (c : Char) : Bool := "-?:,[]\x7b\x7d#&*!|>'\"%@\x60".toList.contains c

/-- The next token begins at a character. -/
def fetchAt (s : Scanner) (ch : Char) : Step :=
  let c := s.cursor
  let inFlow : Bool := s.flow ≠ 0
  match ch with
  | '[' => s.openFlow .flowSequenceStart
  | '{' => s.openFlow .flowMappingStart
  | ']' => s.closeFlow .flowSequenceEnd
  | '}' => s.closeFlow .flowMappingEnd
  | ',' => s.fetchFlowEntry
  | '*' => s.fetchNamed .reference
  | '&' => s.fetchNamed .anchor
  | '!' => s.fetchTag
  | '\'' => s.fetchQuoted true
  | '"' => s.fetchQuoted false
  | _ =>
    if ch = '-' && c.spaceAt 1 then s.fetchBlockEntry
    else if ch = '?' && (inFlow || c.spaceAt 1) then s.fetchKey
    else if ch = ':' && (inFlow || c.spaceAt 1) then s.fetchValue
    else if ch = '|' && !inFlow then s.fetchBlockScalar true
    else if ch = '>' && !inFlow then s.fetchBlockScalar false
    else if !(isSpace ch || isIndicator ch) || ch = '-' || (!inFlow && (ch = '?' || ch = ':')) then
      s.fetchPlain
    else .error .token

/-- Reads one more token. -/
def fetch (s : Scanner) : Step := do
  let s := skipToToken (s.cursor.rest.length + 1) s
  let s := s.unroll s.cursor.column
  match s.cursor.peek with
  | none =>
    let s ← (s.unroll (-1)).dropKey
    return (s.allowKey false).push .streamEnd
  | some ch =>
    if s.cursor.column = 0 ∧ ch = '%' then s.fetchDirective
    else if s.cursor.atMark '-' then s.atDocument .documentStart
    else if s.cursor.atMark '.' then s.atDocument .documentEnd
    else
      let s ← s.fetchAt ch
      return if s.tokens.back? = some .blockEntry then s else s.skipLineComment

end Scanner

/-- The tokens of a text, up to the first that cannot be read. -/
structure Tokens where
  tokens : Array Token
  /-- If the text breaks off: the tokens that might still have turned out to be keys. -/
  broken : Option (List Nat)

namespace Scanner

/-- The tokens for which more of the text is needed to tell whether they are keys. -/
def undecided (s : Scanner) : List Nat :=
  s.keys.filterMap fun key => key.bind fun k =>
    if k.required || s.inReach k then some k.token else none

def scan : Nat → Scanner → Tokens
  | 0, s => ⟨s.tokens, some s.undecided⟩
  | fuel + 1, s =>
    match s.fetch with
    | .error _ => ⟨s.tokens, some s.undecided⟩
    | .ok next => if next.tokens.back? = some .streamEnd then ⟨next.tokens, none⟩ else scan fuel next

end Scanner

/-- Reads the tokens of a text. Every step but the last takes a character. -/
def Tokens.ofText (text : List Char) : Tokens := Scanner.scan (text.length + 2) (Scanner.start text)

/-- The token at a position. Two tokens are read ahead of it, and more while it may be a key, so a
text that breaks off there has no such token. -/
def Tokens.get (ts : Tokens) (i : Nat) : Except Error Token :=
  match ts.broken with
  | some undecided =>
    if ts.tokens.size ≤ i + 2 ∨ i ∈ undecided then .error .token
    else .ok (ts.tokens.getD i .streamEnd)
  | none => .ok (ts.tokens.getD i .streamEnd)

end Gradual.Yaml
