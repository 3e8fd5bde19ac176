import Gradual.Cbor.Item

/-!
Values read from CBOR items. Tags are looked through, null and undefined stand for the value that a
missing field has, and small simple values count as numbers. A record is a map with numbered fields;
fields it does not know are passed over.
-/
namespace Gradual.Cbor.Item

/-- The tags with a fixed meaning want content of a fixed kind: dates a text, times a number, big
numbers a byte string. -/
def tagAdmits : Nat → Item → Bool
  | 0, text _ => true
  | 1, uint _ | 1, negative _ | 1, float _ _ => true
  | 2, bytes _ | 3, bytes _ => true
  | number, _ => 3 < number

def natOfBytes (data : Bytes) : Nat := data.foldl (fun n b => n * 256 + b.toNat) 0

/-- The item under all its tags. A big number counts as the integer it is, if it fits. -/
def untagged : Item → Option Item
  | tag 2 (bytes data) =>
    let n := natOfBytes data
    if n < 0x10000000000000000 then some (uint n) else none
  | tag 3 (bytes data) =>
    let n := natOfBytes data
    if n < 0x8000000000000000 then some (negative n) else none
  | tag number content => if tagAdmits number content then untagged content else none
  | item => some item

/-- The text of chunks that are each valid by themselves. -/
def textOf? (chunks : List Bytes) : Option String := do
  return String.join (← chunks.mapM Bytes.toString?)

/-- A natural number below a limit. -/
def asNat? (limit : Nat) (item : Item) : Option Nat := do
  match ← item.untagged with
  | uint n => if n < limit then some n else none
  | simple 20 | simple 21 => none
  | simple 22 | simple 23 => some 0
  | simple n => if n < limit then some n else none
  | _ => none

/-- An integer of 64 bits. -/
def asInt? (item : Item) : Option Int := do
  match ← item.untagged with
  | negative n => if n < 0x8000000000000000 then some (-1 - n) else none
  | item => (item.asNat? (0x8000000000000000)).map Int.ofNat

def asString? (item : Item) : Option String := do
  match ← item.untagged with
  | text chunks => textOf? chunks
  | simple 22 | simple 23 => some ""
  | _ => none

def asBool? (item : Item) : Option Bool := do
  match ← item.untagged with
  | simple 20 | simple 22 | simple 23 => some false
  | simple 21 => some true
  | _ => none

def asList? (read : Item → Option α) (item : Item) : Option (List α) := do
  match ← item.untagged with
  | array items => items.mapM read
  | simple 22 | simple 23 => some []
  | _ => none

/-- Fields are named by an integer or by a text. -/
def isFieldName : Item → Bool
  | uint _ => true
  | negative n => n < 0x8000000000000000
  | text chunks => (textOf? chunks).isSome
  | _ => false

/-- Whether a key names the field of a number, by the number or by its decimal text. -/
def names (number : Nat) : Item → Bool
  | uint n => n = number
  | text chunks => textOf? chunks = some (toString number)
  | _ => false

def asRecord? (item : Item) : Option (List (Item × Item)) := do
  match ← item.untagged with
  | map pairs => if pairs.all fun (key, _) => key.isFieldName then some pairs else none
  | simple 22 | simple 23 => some []
  | _ => none

/-- The first value of a field, null if it is not there. -/
def field (number : Nat) (pairs : List (Item × Item)) : Item :=
  match pairs.find? fun (key, _) => key.names number with
  | some (_, value) => value
  | none => null

end Gradual.Cbor.Item
