import Gradual.Yaml.Node

/-!
What a scalar stands for. A plain scalar without a tag is null or a truth value if it is spelled like
one, and otherwise counts by its text; a tag of the standard types must fit the text.
-/
namespace Gradual.Yaml

/-- The standard tags in short form; `none` for a tag that says nothing of the text. -/
inductive StandardTag where
  | text | bool | int | float | null | timestamp | binary
  deriving DecidableEq, Repr

def StandardTag.ofTag? : String → Option StandardTag
  | "tag:yaml.org,2002:str" => some .text
  | "tag:yaml.org,2002:bool" => some .bool
  | "tag:yaml.org,2002:int" => some .int
  | "tag:yaml.org,2002:float" => some .float
  | "tag:yaml.org,2002:null" => some .null
  | "tag:yaml.org,2002:timestamp" => some .timestamp
  | "tag:yaml.org,2002:binary" => some .binary
  | "!!str" => some .text
  | "!!bool" => some .bool
  | "!!int" => some .int
  | "!!float" => some .float
  | "!!null" => some .null
  | "!!timestamp" => some .timestamp
  | "!!binary" => some .binary
  | _ => none

inductive Meaning where
  | null
  | bool (b : Bool)
  /-- Anything else, by its text; `quoted` texts are texts and nothing else. -/
  | text (s : String)
  | number
  deriving DecidableEq, Repr

def isNullText (s : String) : Bool := ["", "~", "null", "Null", "NULL"].contains s

def boolOfText? (s : String) : Option Bool :=
  if ["true", "True", "TRUE"].contains s then some true
  else if ["false", "False", "FALSE"].contains s then some false
  else none

def digitOf? (base : Nat) (c : Char) : Option Nat := do
  let d ← Text.hexDigitValue? c
  if d < base then some d else none

def digitsValue? (base : Nat) (cs : List Char) : Option Nat :=
  if cs.isEmpty then none
  else cs.foldlM (fun n c => do return n * base + (← digitOf? base c)) 0

/-- A natural number in the base that its first characters give. -/
def basedValue? : List Char → Option Nat
  | '0' :: 'x' :: cs | '0' :: 'X' :: cs => digitsValue? 16 cs
  | '0' :: 'o' :: cs | '0' :: 'O' :: cs => digitsValue? 8 cs
  | '0' :: 'b' :: cs | '0' :: 'B' :: cs => digitsValue? 2 cs
  | ['0'] => some 0
  | '0' :: cs => digitsValue? 8 cs
  | cs => digitsValue? 10 cs

/-- Integers of 64 bits, signed or not. -/
def isInteger (s : String) : Bool :=
  match s.toList.filter (· ≠ '_') with
  | '-' :: cs => (basedValue? cs).any (· ≤ 0x8000000000000000)
  | '+' :: cs => (basedValue? cs).any (· < 0x8000000000000000)
  | cs => cs.head?.any Char.isDigit && (basedValue? cs).any (· < 0x10000000000000000)

def skipDigits (cs : List Char) : List Char := cs.dropWhile Char.isDigit

def isExponent : List Char → Bool
  | [] => true
  | e :: cs =>
    let digits := match cs with
      | '+' :: rest | '-' :: rest => rest
      | _ => cs
    (e = 'e' || e = 'E') && !digits.isEmpty && digits.all Char.isDigit

/-- Decimal fractions with an optional exponent. -/
def isDecimal (cs : List Char) : Bool :=
  match cs with
  | '.' :: rest => rest.head?.any Char.isDigit && isExponent (skipDigits rest)
  | _ =>
    cs.head?.any Char.isDigit &&
      match skipDigits cs with
      | '.' :: rest => isExponent (skipDigits rest)
      | rest => isExponent rest

def isFraction (s : String) : Bool :=
  [".nan", ".NaN", ".NAN", ".inf", ".Inf", ".INF", "+.inf", "+.Inf", "+.INF", "-.inf", "-.Inf",
    "-.INF"].contains s ||
  match s.toList.filter (· ≠ '_') with
  | '+' :: cs | '-' :: cs => isDecimal cs
  | cs => isDecimal cs

/-- One or two digits of a number in a range. -/
def takeShort? (low high : Nat) (cs : List Char) : Option (Nat × List Char) := do
  let digits := (cs.take 2).takeWhile Char.isDigit
  let n ← digitsValue? 10 digits
  if low ≤ n ∧ n ≤ high then some (n, cs.drop digits.length) else none

def expect? (c : Char) : List Char → Option (List Char)
  | [] => none
  | d :: rest => if d = c then some rest else none

def daysIn (year month : Nat) : Nat :=
  if month = 2 then
    (if year % 4 = 0 ∧ (year % 100 ≠ 0 ∨ year % 400 = 0) then 29 else 28)
  else if month = 4 ∨ month = 6 ∨ month = 9 ∨ month = 11 then 30
  else 31

/-- A zone: Z, or hours and minutes away from it. -/
def isZone : List Char → Bool
  | ['Z'] => true
  | [sign, h1, h2, ':', m1, m2] =>
    (sign = '+' || sign = '-') && [h1, h2, m1, m2].all Char.isDigit &&
      (digitsValue? 10 [h1, h2]).any (· ≤ 24) && (digitsValue? 10 [m1, m2]).any (· ≤ 60)
  | _ => false

def afterFraction : List Char → Option (List Char)
  | '.' :: rest => if rest.head?.any Char.isDigit then some (skipDigits rest) else none
  | cs => some cs

/-- A date, alone or with a time of day; after the letter T a zone follows the time. -/
def isTimestamp (s : String) : Bool :=
  let check : Option Bool := do
    let cs := s.toList
    let year ← digitsValue? 10 ((cs.take 4).takeWhile Char.isDigit)
    if !(cs.take 4).all Char.isDigit then none
    let cs ← expect? '-' (cs.drop 4)
    let (month, cs) ← takeShort? 1 12 cs
    let cs ← expect? '-' cs
    let (day, cs) ← takeShort? 1 31 cs
    if daysIn year month < day then none
    match cs with
    | [] => some true
    | mark :: cs =>
      let (_, cs) ← takeShort? 0 23 cs
      let cs ← expect? ':' cs
      let (_, cs) ← takeShort? 0 59 cs
      let cs ← expect? ':' cs
      let (_, cs) ← takeShort? 0 59 cs
      let cs ← afterFraction cs
      if mark = 'T' ∨ mark = 't' then some (isZone cs)
      else if mark = ' ' then some cs.isEmpty
      else none
  check.getD false

def base64Digit? (c : Char) : Option Nat :=
  if 'A' ≤ c ∧ c ≤ 'Z' then some (c.toNat - 65)
  else if 'a' ≤ c ∧ c ≤ 'z' then some (c.toNat - 71)
  else if '0' ≤ c ∧ c ≤ '9' then some (c.toNat + 4)
  else if c = '+' then some 62
  else if c = '/' then some 63
  else none

/-- Bytes in base 64, padded to whole groups of four. -/
def base64? : List Char → Option (List UInt8)
  | [] => some []
  | a :: b :: '=' :: '=' :: [] => do
    let n := (← base64Digit? a) * 64 + (← base64Digit? b)
    return [UInt8.ofNat (n / 16)]
  | a :: b :: c :: '=' :: [] => do
    let n := ((← base64Digit? a) * 64 + (← base64Digit? b)) * 64 + (← base64Digit? c)
    return [UInt8.ofNat (n / 1024), UInt8.ofNat (n / 4)]
  | a :: b :: c :: d :: rest => do
    let n := (((← base64Digit? a) * 64 + (← base64Digit? b)) * 64 + (← base64Digit? c)) * 64 +
      (← base64Digit? d)
    let bytes ← base64? rest
    return UInt8.ofNat (n / 65536) :: UInt8.ofNat (n / 256) :: UInt8.ofNat n :: bytes
  | _ => none

/-- What a scalar stands for; fails if its tag does not fit. -/
def meaning (tag : String) (plain : Bool) (s : String) : Except Error Meaning :=
  let demand (ok : Bool) (m : Meaning) : Except Error Meaning := if ok then .ok m else .error .value
  if tag = "" ∨ tag = "!" then
    if !plain then .ok (.text s)
    else if isNullText s then .ok .null
    else match boolOfText? s with
      | some b => .ok (.bool b)
      | none => .ok (.text s)
  else match StandardTag.ofTag? tag with
    | none | some .text => .ok (.text s)
    | some .null => demand (isNullText s) .null
    | some .bool =>
      match boolOfText? s with
      | some b => .ok (.bool b)
      | none => .error .value
    | some .int => demand (isInteger s) .number
    | some .float => demand (isInteger s || isFraction s) .number
    | some .timestamp => demand (isTimestamp s) .number
    | some .binary =>
      match (base64? (s.toList.filter fun c => c ≠ '\n' && c ≠ '\r')).bind
          fun bytes => String.fromUTF8? ⟨bytes.toArray⟩ with
      | some text => .ok (.text text)
      | none => .error .value

/-- The truth value of a scalar, where one is wanted: the older spellings count too. -/
def Meaning.truth? : Meaning → Option Bool
  | .bool b => some b
  | .text s =>
    if ["y", "Y", "yes", "Yes", "YES", "on", "On", "ON"].contains s then some true
    else if ["n", "N", "no", "No", "NO", "off", "Off", "OFF"].contains s then some false
    else none
  | _ => none

/-- Whether a node is the key under which a mapping takes over others. -/
def Node.isMergeKey : Node → Bool
  | .scalar tag plain text =>
    text = "<<" && ((tag = "" && plain) || (tag = "!" && plain) ||
      tag = "tag:yaml.org,2002:merge" || tag = "!!merge")
  | _ => false

end Gradual.Yaml
