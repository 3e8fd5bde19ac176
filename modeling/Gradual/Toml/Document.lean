import Gradual.Bytes
import Gradual.Toml.Value

/-!
TOML documents: keys with values, headers of tables, and comments, a line each. A text that breaks a
rule is no document; which rule it was is not told.
-/
namespace Gradual.Toml

/-- Skips a comment up to the end of its line. -/
def skipComment (cs : List Char) : List Char := cs.dropWhile (!isBreak ·)

/-- Skips blanks, line breaks and comments. -/
def skipBlank : Nat → List Char → List Char
  | 0, cs => cs
  | fuel + 1, cs =>
    match cs.dropWhile fun c => isSpace c || isBreak c with
    | '#' :: rest => skipBlank fuel (skipComment rest)
    | rest => rest

/-- A number or a time, told apart by what follows the first digits: a colon or a dash makes a time,
and a point or an exponent a fraction. -/
def takeDigits (cs : List Char) : Option (Value × List Char) :=
  let signed := cs.head?.any fun c => c = '+' || c = '-'
  let sign := if signed then cs.take 1 else []
  let body := if signed then cs.drop 1 else cs
  let based (isDigitOf : Char → Bool) : Option (Value × List Char) := do
    let digits := (body.drop 2).takeWhile fun c => isDigitOf c || c = '_'
    let n ← integerOf? (body.take 2 ++ digits)
    return (.integer n, body.drop (2 + digits.length))
  match body with
  | '0' :: 'x' :: _ => if signed then none else based isHexDigit
  | '0' :: 'o' :: _ => if signed then none else based fun c => '0' ≤ c && c ≤ '7'
  | '0' :: 'b' :: _ => if signed then none else based fun c => c = '0' || c = '1'
  | _ =>
    let whole := body.takeWhile Char.isDigit
    let mark := (body.drop whole.length).head?
    if !signed && 2 ≤ whole.length && mark.any (fun c => c = '-' || c = ':') then
      let text := body.takeWhile fun c => c.isDigit || "-:Tt .Zz+".toList.contains c
      let trimmed := (text.reverse.dropWhile (· = ' ')).reverse
      if isTime trimmed then some (.time, body.drop text.length) else none
    else
      let number := body.takeWhile fun c => c.isDigit || c = '_'
      let rest := body.drop number.length
      if rest.head?.any fun c => c = '.' || c = 'e' || c = 'E' then
        let tail := rest.takeWhile fun c => c.isDigit || "_.-+eE".toList.contains c
        if isFloat (sign ++ number ++ tail) then some (.float, rest.drop tail.length) else none
      else do
        let n ← integerOf? (sign ++ number)
        return (.integer n, rest)

/-- A value that is no array and no table. -/
def takeScalar (cs : List Char) : Option (Value × List Char) :=
  match cs with
  | 't' :: 'r' :: 'u' :: 'e' :: rest => some (.boolean true, rest)
  | 'f' :: 'a' :: 'l' :: 's' :: 'e' :: rest => some (.boolean false, rest)
  | 'i' :: 'n' :: 'f' :: rest | 'n' :: 'a' :: 'n' :: rest => some (.float, rest)
  | '+' :: 'i' :: 'n' :: 'f' :: rest | '-' :: 'i' :: 'n' :: 'f' :: rest
  | '+' :: 'n' :: 'a' :: 'n' :: rest | '-' :: 'n' :: 'a' :: 'n' :: rest => some (.float, rest)
  | c :: _ =>
    if c = '"' || c = '\'' then do
      let (s, rest) ← takeString cs
      return (.string s, rest)
    else if c.isDigit || c = '+' || c = '-' then takeDigits cs
    else none
  | [] => none

/-- A part of a document: what it leaves of the text and makes of the draft. -/
structure Progress (α : Type) where
  value : α
  rest : List Char
  draft : Draft

mutual

/-- The value of a name in a table. The tables of an array are noted in the draft one by one. -/
def takeValue (context : Key) (name : String) (inArray : Bool) :
    Nat → List Char → Draft → Option (Progress Value)
  | 0, _, _ => none
  | fuel + 1, cs, d =>
    match skipSpace cs with
    | '[' :: rest => do
      let p ← takeItems context name fuel rest (d.markArray (Draft.kindKey context name))
      return ⟨.array p.value, p.rest, p.draft⟩
    | '\x7b' :: rest => do
      let key := context ++ [name]
      let d ← (d.imply key).openTable key inArray
      takeInline key fuel rest d
    | cs => do
      let (v, rest) ← takeScalar cs
      return ⟨v, rest, d⟩

/-- The items of an array up to its end; a comma may follow the last one. -/
def takeItems (context : Key) (name : String) :
    Nat → List Char → Draft → Option (Progress (List Value))
  | 0, _, _ => none
  | fuel + 1, cs, d =>
    match skipBlank cs.length cs with
    | ']' :: rest => some ⟨[], rest, d⟩
    | cs => do
      let p ← takeValue context name true fuel cs d
      match skipBlank p.rest.length p.rest with
      | ']' :: rest => return ⟨[p.value], rest, p.draft⟩
      | ',' :: rest => do
        let q ← takeItems context name fuel rest p.draft
        return ⟨p.value :: q.value, q.rest, q.draft⟩
      | _ => none

/-- The fields of a table in braces up to its end; a comma may follow the last one. -/
def takeInline (context : Key) : Nat → List Char → Draft → Option (Progress Value)
  | 0, _, _ => none
  | fuel + 1, cs, d =>
    match skipBlank cs.length cs with
    | '\x7d' :: rest => do return ⟨.table (← d.fields.at? context), rest, d⟩
    | cs => do
      let p ← takeField context fuel cs d
      match skipBlank p.rest.length p.rest with
      | '\x7d' :: rest => do return ⟨.table (← p.draft.fields.at? context), rest, p.draft⟩
      | ',' :: rest => takeInline context fuel rest p.draft
      | _ => none

/-- A key with its value, put into the table of the context. -/
def takeField (context : Key) : Nat → List Char → Draft → Option (Progress Unit)
  | 0, _, _ => none
  | fuel + 1, cs, d => do
    let (key, rest) ← takeKey '=' (cs.length + 1) cs
    let inner := context ++ key.dropLast
    let name := key.getLastD ""
    let d ← d.openImplied context key.dropLast
    let p ← takeValue inner name false fuel rest d
    let d ← p.draft.put inner name p.value
    let kind := Draft.kindKey inner name
    match p.value with
    | .array _ => return ⟨(), p.rest, d.markArray kind⟩
    | _ => return ⟨(), p.rest, d.markOther kind⟩

end

/-- Whether a line ends here, with or without a comment. -/
def endOfLine? (cs : List Char) : Option (List Char) :=
  match skipSpace cs with
  | [] => some []
  | '#' :: rest => some (skipComment rest)
  | c :: rest => if isBreak c then some rest else none

/-- The lines of a document, from the table of the last header on. -/
def takeLines : Nat → Key → List Char → Draft → Option Fields
  | 0, _, _, _ => none
  | fuel + 1, context, cs, d =>
    match skipBlank cs.length cs with
    | [] => some d.fields
    | '[' :: '[' :: rest => do
      let (key, rest) ← takeKey ']' (rest.length + 1) rest
      match rest with
      | ']' :: rest =>
        let d ← d.openTable key true
        takeLines fuel key (← endOfLine? rest) (d.markOther (Draft.kindKey key ""))
      | _ => none
    | '[' :: rest => do
      let (key, rest) ← takeKey ']' (rest.length + 1) rest
      let d ← d.openTable key false
      takeLines fuel key (← endOfLine? rest) (d.markOther (Draft.kindKey key ""))
    | cs => do
      let p ← takeField context (2 * cs.length + 4) cs d
      takeLines fuel context (← endOfLine? p.rest) p.draft

/-- Takes a byte order mark off the front. -/
def dropMark : Bytes → Bytes
  | 0xff :: 0xfe :: rest => rest
  | 0xfe :: 0xff :: rest => rest
  | 0xef :: 0xbb :: 0xbf :: rest => rest
  | data => data

/-- The fields of a document, if the bytes are one. -/
def parse? (data : Bytes) : Option Fields := do
  let text ← Bytes.toString? (dropMark data)
  let cs := text.toList
  if isClean cs then takeLines (cs.length + 1) [] cs Draft.empty else none

end Gradual.Toml
