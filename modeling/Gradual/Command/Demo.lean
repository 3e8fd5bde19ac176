import Gradual.Program.Run

/-!
A demonstration of the main coercions on a machine of its own: an untyped closure seen as a typed one,
an object and a cycle of objects that are given types, and a typed closure seen from untyped code. Its
last step breaks a promise on purpose.
-/
namespace Gradual.Command

/-- The first argument, after the receiver. -/
def identityBody : Body := .mk ["recv", "x"] [] (some (.register "x"))

/-- The sum of the squares of two properties of the argument. -/
def normBody : Body :=
  .mk [] [
    .mk (.get (.register "0") (.name "x")) (some "dx"),
    .mk (.get (.register "0") (.name "y")) (some "dy"),
    .mk (.multiply (.register "dx") (.register "dx")) (some "xx"),
    .mk (.multiply (.register "dy") (.register "dy")) (some "yy"),
    .mk (.add (.register "xx") (.register "yy")) (some "sum")] (some (.register "sum"))

def intType : TypeExpr := .named Prim.int.name

def intToInt : TypeExpr := .function intType [intType]

def pointType : TypeExpr :=
  .object [.mk (.name "x") intType false, .mk (.name "y") intType false]

def ringType : TypeExpr :=
  .fix "self" (.object [.mk (.name "x") intType false, .mk (.name "next") (.named "self") false])

/-- Calls in the demonstration do not nest deeper than this. -/
def demoFuel : Nat := 100

def demoHost : Host := Exec.host (Step.run demoFuel) [] []

def text (w : Word) : Run String := do return (← Run.decode w).text

def setInt (obj : Word) (id : PropId) (n : Int32) : Run Unit := Run.setProp obj id (Word.ofInt n)

/-- The slot of a property, -1 if it has none. -/
def slotNumber (r : Record) (id : PropId) : Int :=
  match r.slotOf? id with
  | some slot => slot
  | none => -1

/-- An untyped closure becomes an integer function; returns that function. -/
def demoFunction : Run (Word × List String) := do
  let identity ← Run.newUntyped identityBody none
  let t ← Run.build (intToInt.build [])
  let g ← Run.coerce identity t
  let result ← Run.call demoHost demoFuel g Word.undefined [Word.ofInt 5]
  return (g, [s!"coerce {← text identity} to {← Run.format t} -> {← text g}",
    s!"  g(5) = {← text result}"])

/-- An object is given a type and with it fixed slots; returns the object and the type. -/
def demoObject (x y : PropId) : Run (Word × Child × List String) := do
  let t ← Run.build (pointType.build [])
  let p ← Run.newObject 0
  setInt p x 3
  setInt p y 4
  discard (Run.coerce p t)
  let (_, r) ← Run.record p
  let published := r.layout.any (·.table.published)
  return (p, t, [s!"migrate {← text p} to {← Run.format t}",
    s!"  slots x={slotNumber r x} y={slotNumber r y}, published={published}"])

/-- Two objects that hold each other are given a recursive type. -/
def demoCycle (x next : PropId) : Run (List String) := do
  let t ← Run.build (ringType.build [])
  let a ← Run.newObject 0
  let b ← Run.newObject 0
  setInt a x 1
  Run.setProp a next b
  setInt b x 2
  Run.setProp b next a
  discard (Run.coerce a t)
  let tagA ← Run.tagOf a
  let tagB ← Run.tagOf b
  let typed := tagA = t && tagB = t
  return [s!"migrate cycle {← text a} <-> {← text b} to {← Run.format t}", s!"  both typed: {typed}"]

/-- A typed closure is called from untyped code. -/
def demoExport (p : Word) (point : Child) : Run (List String) := do
  let t ← Run.build (some <$> TypeBuilder.function (some Prim.int.typeId) [point])
  let norm ← Run.newClosure t (.typed 1) normBody none
  let exported ← Run.exportClosure norm
  let result ← Run.callWith demoHost demoFuel exported Word.undefined [p]
  return [s!"export {← text norm} -> {← text exported}", s!"  norm2(p) = {← text result}"]

/-- The integer function returns a string, which is a violation. -/
def demoViolation (g : Word) : Run (List String) := do
  let broken ← Run.protect do
    let five ← Run.newString "five"
    discard (Run.call demoHost demoFuel g Word.undefined [five])
  match broken with
  | .ok () => return []
  | .error v => return ["g(\"five\"): " ++ v.message]

def demoSummary : Run (List String) := do
  let m ← get
  return [s!"fail-stop flag: {m.dirty}",
    s!"heap: {m.heap.size} records ({m.heap.count .object} objects, {m.heap.count .closure} closures)"]

def demoLines (session : String) : Run (List String) := do
  let x ← Run.intern "x"
  let y ← Run.intern "y"
  let next ← Run.intern "next"
  let (g, function) ← demoFunction
  let (p, point, object) ← demoObject x y
  let cycle ← demoCycle x next
  let exported ← demoExport p point
  let violation ← demoViolation g
  let summary ← demoSummary
  return ("session " ++ session) :: function ++ object ++ cycle ++ exported ++ violation ++ summary

/-- The hash of property names: the code points folded by exclusive or and multiplication. -/
def nameHash (name : String) : UInt64 :=
  name.toList.foldl (fun h c => (h ^^^ UInt64.ofNat c.toNat) * 1099511628211) 14695981039346656037

/-- The lines of the demonstration under given limits; a violation that nobody expects ends it. -/
def demo (limits : Limits) (session : String) : Except Fault (List String) :=
  let types := TypeStore.ofNames ["x", "y", "next"]
  match demoLines session (Machine.initial nameHash limits Oracle.silent types) with
  | .ok lines _ => .ok lines
  | .error fault _ => .error fault

end Gradual.Command
