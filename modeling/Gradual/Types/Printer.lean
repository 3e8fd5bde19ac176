import Gradual.Types.Graph

/-!
The text of a type. A node that can reach itself is labelled `#0=`, `#1=`, ... where it is opened,
and inside of it stands as `#0`, `#1`, ...; properties are listed by ascending id.
-/
namespace Gradual

/-- A text and the next unused label. -/
abbrev Labelled := StateM Nat String

/-- Texts with a separator between them. -/
def Labelled.join (separator : String) : List Labelled → Labelled
  | [] => pure ""
  | [t] => t
  | t :: rest => do
    let head ← t
    let tail ← join separator rest
    return head ++ separator ++ tail

/-- A fresh label for a cyclic node; other nodes keep the counter. -/
def Labelled.enter (cyclic : Bool) : StateM Nat (Nat × String) := do
  let label ← get
  if cyclic then
    set (label + 1)
    return (label, s!"#{label}=")
  return (label, "")

/-- A property without a name is called by its id. -/
def propertyText (names : PropId → String) (id : PropId) : String :=
  let name := names id
  if name = "" then s!"p{id}" else name

/-- Writes the node itself, given how to write its children. -/
def Node.print (names : PropId → String) (child : Child → Labelled) : Node → Labelled
  | .odd code => pure (Node.codeName code)
  | .prim p => pure p.name
  | .closure s => do
    let args ← Labelled.join ", " (s.args.map child)
    let ret ← child s.ret
    let head := s.code.name ++ "(" ++ args ++ ") -> " ++ ret
    match s.proto with
    | none => return head
    | some t => return head ++ " proto " ++ (← child (some t))
  | .object props => do
    let ordered := props.mergeSort (fun p q => p.id ≤ q.id)
    let entries ← Labelled.join ", " (ordered.map fun p => do
      let type ← child p.type
      return (if p.readOnly then "ro " else "") ++ propertyText names p.id ++ ": " ++ type)
    return "\x7b" ++ entries ++ "\x7d"
  | .array e => do return "[" ++ (← child e) ++ "]"
  | .map e => do return "map<" ++ (← child e) ++ ">"

/-- `opened` holds the nodes around this one with their labels. Every step inwards opens a node
that was not open, so the size of the graph bounds the depth. -/
def Graph.printWithin (g : Graph) (names : PropId → String) :
    Nat → List (TypeId × Nat) → Child → Labelled
  | _, _, none => pure "<nil>"
  | 0, _, some _ => pure ""
  | fuel + 1, opened, some t =>
    match g.node t with
    | .prim p => pure p.name
    | n =>
      match opened.lookup t with
      | some label => pure s!"#{label}"
      | none => do
        let (label, mark) ← Labelled.enter (g.isCyclic t)
        let body ← n.print names (g.printWithin names fuel ((t, label) :: opened))
        return mark ++ body

/-- The text of a type with property names from a table. -/
def Graph.print (g : Graph) (names : PropId → String) (t : Child) : String :=
  (g.printWithin names (g.size + 2) [] t 0).1

/-- The text of a type with properties called by their ids. -/
def Graph.printBare (g : Graph) (t : Child) : String := g.print (fun _ => "") t

end Gradual
