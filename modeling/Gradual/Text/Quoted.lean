import Gradual.Text.Hex
import Gradual.Text.Printable

/-! Quoted text inside messages: double quotes around the text, a backslash escape for the quote,
the backslash and the named control characters, a numeric escape for every other unprintable
character, and all printable characters as they are. -/
namespace Gradual.Text

/-- The letter that names a control character in an escape. -/
def escapeLetter? (c : Char) : Option Char :=
  match c.toNat with
  | 7 => some 'a'
  | 8 => some 'b'
  | 9 => some 't'
  | 10 => some 'n'
  | 11 => some 'v'
  | 12 => some 'f'
  | 13 => some 'r'
  | _ => none

/-- Two digits below 0x80, four up to 0xFFFF and eight above. -/
def numericEscape (code : Nat) : List Char :=
  if code < 0x80 then '\\' :: 'x' :: hexDigits 2 code
  else if code < 0x10000 then '\\' :: 'u' :: hexDigits 4 code
  else '\\' :: 'U' :: hexDigits 8 code

def quoteChar (c : Char) : List Char :=
  if c = '"' ∨ c = '\\' then ['\\', c]
  else if isPrintable c then [c]
  else match escapeLetter? c with
    | some letter => ['\\', letter]
    | none => numericEscape c.toNat

def quoted (text : String) : String :=
  String.ofList ('"' :: text.toList.flatMap quoteChar ++ ['"'])

end Gradual.Text
