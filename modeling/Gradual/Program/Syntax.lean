import Gradual.Types.Expr
import Gradual.Value.Word

/-!
Programs: sequences of runtime operations on registers. The body of a closure is a program too, so
closures can call, allocate and coerce like the host that runs them.
-/
namespace Gradual

inductive Operand where
  | word (w : Word)
  | register (name : String)
  /-- A new string record each time the operand is evaluated. -/
  | text (s : String)
  deriving DecidableEq, Repr

mutual

/-- The code of a closure. Untyped code first pops arguments into the registers named by `pop`; typed
code finds them in registers. The result is `ret`, if there is one. -/
inductive Body where
  | mk (pop : List String) (steps : List Step) (ret : Option Operand)

/-- An operation and the register for its value. -/
inductive Step where
  | mk (op : Operation) (dest : Option String)

inductive Operation where
  -- allocation
  | newObject (slots : Int)
  | literal (type : TypeExpr) (values : List Operand)
  | newArray (elems : List Operand)
  | newString (s : String)
  | newBox (value : Operand)
  | newClosure (type : TypeExpr) (body : Body) (arity : Option Int) (env : Option (List Operand))
  | newUntyped (body : Body) (env : Option (List Operand)) (withoutCode : Bool)
  | newConstructor (type : TypeExpr) (proto : Operand) (body : Body) (arity : Option Int)
      (env : Option (List Operand))
  | value (operand : Operand)
  -- properties
  | get (obj : Operand) (prop : PropRef)
  | set (obj value : Operand) (prop : PropRef)
  | getNamed (obj : Operand) (name : String)
  | setNamed (obj value : Operand) (name : String)
  | hasOwn (obj : Operand) (prop : PropRef)
  | delete (obj : Operand) (prop : PropRef)
  | keys (obj : Operand)
  | setPrototype (obj proto : Operand)
  | prototype (obj : Operand)
  | tagOf (value : Operand)
  | fill (obj : Operand) (stem : String) (count : Nat)
  | chain (value : Operand) (prop : PropRef) (count : Nat)
  | nestArray (value : Operand) (count : Nat)
  -- arrays
  | arrayGet (arr : Operand) (index : Int64)
  | arrayPut (arr value : Operand) (index : Int64)
  | arrayPush (arr value : Operand)
  | arrayUnshift (arr value : Operand)
  | arrayPop (arr : Operand)
  | arrayShift (arr : Operand)
  | arraySize (arr : Operand)
  | arrayCapacity (arr : Operand)
  -- strings and boxes
  | stringOf (value : Operand)
  | boxGet (box : Operand)
  | boxSet (box value : Operand)
  | access (box : Operand) (type : TypeExpr)
  | accessInt (box : Operand)
  -- coercion
  | coerce (value : Operand) (type : TypeExpr)
  | tryCoerce (value : Operand) (type : TypeExpr)
  | exportClosure (fn : Operand)
  -- calls
  | call (fn recv : Operand) (args : List Operand)
  | callUntyped (fn : Operand)
  | callWith (fn recv : Operand) (args : List Operand)
  | construct (fn : Operand) (args : List Operand)
  | constructorPrototype (fn : Operand)
  | push (value : Operand)
  | pushTimes (value : Operand) (count : Nat)
  | pop
  | clearArgs
  | lastReturn
  | setReturn (value : Operand)
  -- control
  | add (a b : Operand)
  | multiply (a b : Operand)
  | branch (cond : Operand) (yes no : List Step)
  | protect (steps : List Step)
  | trace (value : Operand)
  -- inspection
  | isFalsy (value : Operand)
  | same (a b : Operand)
  | sameLayout (a b : Operand)
  | sameTag (value : Operand) (type : TypeExpr)
  | hasRecord (value : Operand)
  | dump (value : Operand)
  | dumpAll
  | allocateAgain (value : Operand)
  | recordKind (ref : Ref)
  | counts
  | limits
  | propertyNames
  | format (type : TypeExpr)
  | forwardSlot (ref : Ref) (index : Int)

end

instance : Inhabited Operand := ⟨.word Word.undefined⟩
instance : Inhabited Body := ⟨.mk [] [] none⟩

end Gradual
