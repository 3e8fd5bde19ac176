import Gradual.Machine.Basic

/-! Arrays, strings and boxes. -/
namespace Gradual.Run

def newArray (elems : List Word) : Run Word := allocate (Record.plain (.array (Deque.ofList elems)))

/-- The record and elements of an array. -/
def arrayOf (w : Word) : Run (Ref × Deque) := do
  match ← decode w with
  | .object ref =>
    match (← recordAt ref).elems? with
    | some d => return (ref, d)
    | none => violate (.notArray (← describe w))
  | _ => violate (.notArray (← describe w))

def setElems (ref : Ref) (d : Deque) : Run Unit := updateRecord ref (·.setElems d)

/-- The element at an index, undefined outside of the array. -/
def arrayGet (arr : Word) (i : Int64) : Run Word := do
  let (_, d) ← arrayOf arr
  return if i < 0 then Word.undefined else d.get i.toNatClampNeg

def refuse : Deque.Refusal → Run Unit
  | .negativeIndex => misuse .negativeIndex
  | .tooLong places => misuse (.allocation (Deque.wordBytes * places))
  | .overrun i places => misuse (.overrun i places)

/-- The array takes over what an operation on its elements has made of them. -/
def settle (ref : Ref) (result : Option Deque.Refusal × Deque) : Run Unit := do
  setElems ref result.2
  result.1.forM refuse

def arrayPut (arr : Word) (i : Int64) (w : Word) : Run Unit := do
  let (ref, d) ← arrayOf arr
  settle ref (d.put i w)

/-- Appends and returns the new length. -/
def arrayPush (arr w : Word) : Run Nat := do
  let (ref, d) ← arrayOf arr
  settle ref (d.push w)
  return d.size + 1

/-- Prepends and returns the new length. -/
def arrayUnshift (arr w : Word) : Run Nat := do
  let (ref, d) ← arrayOf arr
  settle ref (d.unshift w)
  return d.size + 1

def arrayPop (arr : Word) : Run Word := do
  let (ref, d) ← arrayOf arr
  let (w, d) := d.pop
  setElems ref d
  return w

def arrayShift (arr : Word) : Run Word := do
  let (ref, d) ← arrayOf arr
  let (w, d) := d.shift
  setElems ref d
  return w

def newString (s : String) : Run Word := allocate (Record.plain (.string s))

def stringOf (w : Word) : Run String := do
  match ← decode w with
  | .string ref => return (← recordAt ref).text
  | _ => misuse .notString

/-- A box holding a value. Boxes are bindings shared between closures and never nest. -/
def newBox (w : Word) : Run Word := do
  if (← decode w).kind = .box then misuse .nestedBox
  allocate { Record.plain .box with cell := w }

def boxGet (b : Word) : Run Word := do
  match ← decode b with
  | .box ref => return (← recordAt ref).cell
  | _ => misuse .readNotBox

def boxSet (b w : Word) : Run Unit := do
  match ← decode b with
  | .box ref =>
    if (← decode w).kind = .box then misuse .nestedBoxWrite
    discard (recordAt ref)
    updateRecord ref fun r => { r with cell := w }
  | _ => misuse .writeNotBox

end Gradual.Run
