import Gradual.Text.Hex
import Gradual.Value.Double

/-!
Value words. Every runtime value is packed into one 64-bit word. The sixteen bits at the top tell
the three regions apart: all zero for heap references, all one for immediates, anything else for
doubles, which are stored `2^48` above their own bits.

* a reference is the handle shifted left by three, with the kind of record in the low bits;
* an int is `FFFF:0000` and the 32 bits of the number, a bool `FFFF:0001` and one bit;
* undefined is `FFFF:0007:0000:0000` and null is zero.

Only `Value.encode` and `Word.decode?` look at bits.
-/
namespace Gradual

/-- A heap handle. Handle zero is never issued. -/
abbrev Ref := Nat

/-- The largest handle that fits into a word. -/
def maxRef : Ref := 0x1fffffffffff

inductive ValueKind where
  | int | double | bool | undefined | null | object | string | closure | box
  deriving DecidableEq, Repr

namespace ValueKind

def name : ValueKind → String
  | int => "int"
  | double => "double"
  | bool => "bool"
  | undefined => "undefined"
  | null => "null"
  | object => "object"
  | string => "string"
  | closure => "closure"
  | box => "box"

/-- Kinds are numbered from one. -/
def ofCode? : Nat → Option ValueKind
  | 1 => some int
  | 2 => some double
  | 3 => some bool
  | 4 => some undefined
  | 5 => some null
  | 6 => some object
  | 7 => some string
  | 8 => some closure
  | 9 => some box
  | _ => none

/-- The name of a kind number, which need not be the number of a kind. -/
def codeName (code : Nat) : String :=
  match ofCode? code with
  | some k => k.name
  | none => s!"valuekind({code})"

/-- Kind numbers from six on count as references, even those that number no kind. -/
def codeIsReference (code : Nat) : Bool := 6 ≤ code

def isReference : ValueKind → Bool
  | object | string | closure | box => true
  | _ => false

end ValueKind

inductive Value where
  | int (n : Int32)
  | double (d : Double)
  | bool (b : Bool)
  | undefined
  | null
  | object (ref : Ref)
  | string (ref : Ref)
  | closure (ref : Ref)
  | box (ref : Ref)
  deriving DecidableEq, Repr

structure Word where
  bits : UInt64
  deriving DecidableEq, Repr

/-- What can go wrong when a value is packed, unpacked or read as one kind. -/
inductive WordError where
  | malformed (word : Word)
  | handleRange
  | invalidKind (code : Nat)
  | notInt
  | notDouble
  | notBool
  | notReference
  deriving DecidableEq, Repr

def WordError.message : WordError → String
  | malformed w => "vm.decode: malformed value 0x" ++ Text.hexWord w.bits
  | handleRange => "vm.encode: heap handle out of range"
  | invalidKind code => "vm.encode: invalid kind " ++ ValueKind.codeName code
  | notInt => "Value.AsInt: not an int"
  | notDouble => "Value.AsDouble: not a double"
  | notBool => "Value.AsBool: not a bool"
  | notReference => "Value.AsRef: not a reference"

namespace Value

def kind : Value → ValueKind
  | int _ => .int
  | double _ => .double
  | bool _ => .bool
  | undefined => .undefined
  | null => .null
  | object _ => .object
  | string _ => .string
  | closure _ => .closure
  | box _ => .box

def isReference (v : Value) : Bool := v.kind.isReference

/-- The handle of a reference to a record. -/
def ref? : Value → Option Ref
  | object r | string r | closure r | box r => some r
  | _ => none

/-- Undefined, null, the int zero and false are false in a condition; every double is true. -/
def isFalsy : Value → Bool
  | undefined | null => true
  | int n => n = 0
  | bool b => !b
  | _ => false

def text : Value → String
  | int n => toString n.toInt
  | double d => d.text
  | bool b => if b then "true" else "false"
  | undefined => "undefined"
  | null => "null"
  | object r => "object#" ++ toString r
  | string r => "string#" ++ toString r
  | closure r => "closure#" ++ toString r
  | box r => "box#" ++ toString r

/-- The text of a value, with its kind in front where the text alone does not show it. -/
def shown (v : Value) : String :=
  match v with
  | int _ | double _ | bool _ => v.kind.name ++ " " ++ v.text
  | _ => v.text

def asInt : Value → Except WordError Int32
  | int n => .ok n
  | _ => .error .notInt

def asDouble : Value → Except WordError Double
  | double d => .ok d
  | _ => .error .notDouble

def asBool : Value → Except WordError Bool
  | bool b => .ok b
  | _ => .error .notBool

/-- The handle of a reference, with zero for null. -/
def asRef : Value → Except WordError Ref
  | object r | string r | closure r | box r => .ok r
  | null => .ok 0
  | _ => .error .notReference

/-- A value given by the number of its kind and one field for each kind of content. -/
def ofFields (code : Nat) (n : Int32) (d : Double) (b : Bool) (r : Ref) : Except WordError Value :=
  match ValueKind.ofCode? code with
  | some .int => .ok (.int n)
  | some .double => .ok (.double d)
  | some .bool => .ok (.bool b)
  | some .undefined => .ok .undefined
  | some .null => .ok .null
  | some .object => .ok (.object r)
  | some .string => .ok (.string r)
  | some .closure => .ok (.closure r)
  | some .box => .ok (.box r)
  | none => .error (.invalidKind code)

end Value

namespace Word

def undefined : Word := ⟨0xFFFF000700000000⟩
def null : Word := ⟨0⟩
def ofInt (n : Int32) : Word := ⟨0xFFFF000000000000 ||| n.toUInt32.toUInt64⟩
def ofBool (b : Bool) : Word := ⟨if b then 0xFFFF000100000001 else 0xFFFF000100000000⟩

/-- Every not-a-number is stored as the canonical one. -/
def ofDouble (d : Double) : Word := ⟨d.canonical.bits + 0x0001000000000000⟩

/-- A reference word without a range check; handle zero of any kind is null. -/
def ofRef (tag : UInt64) (r : Ref) : Word :=
  if r = 0 then null else ⟨(UInt64.ofNat r <<< 3) ||| tag⟩

def objectRef (r : Ref) : Word := ofRef 0 r
def boxRef (r : Ref) : Word := ofRef 2 r
def stringRef (r : Ref) : Word := ofRef 4 r
def closureRef (r : Ref) : Word := ofRef 6 r

/-- The word of an immediate, of which the upper 32 bits are `top` and the lower ones `low`. -/
def decodeImmediate? (w : Word) : Option Value :=
  let top := w.bits >>> 32
  if top = 0xFFFF0000 then some (.int (UInt32.toInt32 w.bits.toUInt32))
  else if w.bits = 0xFFFF000100000000 then some (.bool false)
  else if w.bits = 0xFFFF000100000001 then some (.bool true)
  else if w.bits = 0xFFFF000700000000 then some .undefined
  else none

def decodeReference? (w : Word) : Option Value :=
  let ref := (w.bits >>> 3).toNat
  if ref = 0 then some .null
  else
    let tag := w.bits &&& 7
    if tag = 0 then some (.object ref)
    else if tag = 2 then some (.box ref)
    else if tag = 4 then some (.string ref)
    else if tag = 6 then some (.closure ref)
    else none

def decode? (w : Word) : Option Value :=
  let top := w.bits >>> 48
  if top = 0 then w.decodeReference?
  else if top = 0xFFFF then w.decodeImmediate?
  else some (.double ⟨w.bits - 0x0001000000000000⟩)

def decode (w : Word) : Except WordError Value :=
  match w.decode? with
  | some v => .ok v
  | none => .error (.malformed w)

end Word

/-- Packs a value. References must fit; those with handle zero become null. -/
def Value.encode : Value → Except WordError Word
  | int n => .ok (Word.ofInt n)
  | double d => .ok (Word.ofDouble d)
  | bool b => .ok (Word.ofBool b)
  | undefined => .ok Word.undefined
  | null => .ok Word.null
  | object r => if r ≤ maxRef then .ok (Word.objectRef r) else .error .handleRange
  | string r => if r ≤ maxRef then .ok (Word.stringRef r) else .error .handleRange
  | closure r => if r ≤ maxRef then .ok (Word.closureRef r) else .error .handleRange
  | box r => if r ≤ maxRef then .ok (Word.boxRef r) else .error .handleRange

end Gradual
