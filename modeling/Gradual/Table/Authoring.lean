import Gradual.Bytes
import Gradual.Table.Document
import Gradual.Yaml.Meaning

/-!
Documents in YAML. A record is a mapping with named fields; fields it does not know are passed over,
a name may stand only once, and the key `<<` takes over the fields of other mappings. Null stands for
a field that is left out, and in a list for nothing at all.
-/
namespace Gradual

namespace Yaml

/-- A node on the way to it: the references that were followed and are still open. -/
structure Place where
  node : NodeId
  trail : List NodeId

/-- A node behind a reference. A reference may not lead to itself. -/
def Tree.follow (t : Tree) (p : Place) : Except Error (Node × Place) :=
  match t.node p.node with
  | .reference _ target =>
    if p.node ∈ p.trail then .error .value
    else .ok (t.node target, ⟨target, p.node :: p.trail⟩)
  | n => .ok (n, p)

/-- A text, unless it is null. Every scalar can stand for one. -/
def Tree.text? (t : Tree) (p : Place) : Except Error (Option String) := do
  match ← t.follow p with
  | (.scalar tag plain s, _) =>
    match ← meaning tag plain s with
    | .null => return none
    | .text s => return some s
    | .bool _ | .number => return some s
  | _ => throw .value

def Tree.truth? (t : Tree) (p : Place) : Except Error (Option Bool) := do
  match ← t.follow p with
  | (.scalar tag plain s, _) =>
    match ← meaning tag plain s with
    | .null => return none
    | m =>
      match m.truth? with
      | some b => return some b
      | none => throw .value
  | _ => throw .value

/-- Whether a node is null; any other scalar is no collection. -/
def Node.isNull (n : Node) : Except Error Bool :=
  match n with
  | .scalar tag plain s => do
    match ← meaning tag plain s with
    | .null => return true
    | _ => throw .value
  | _ => return false

/-- The items of a list; null stands for none. -/
def Tree.items (t : Tree) (p : Place) : Except Error (List Place) := do
  match ← t.follow p with
  | (.sequence items, q) => return items.map fun id => ⟨id, q.trail⟩
  | (.mapping _, _) => throw .value
  | (n, _) => if ← n.isNull then return [] else throw .value

/-- A list of what its items are read as, without those that are null. -/
def Tree.list (t : Tree) (read : Place → Except Error (Option α)) (p : Place) :
    Except Error (List α) := do
  return (← (← t.items p).mapM read).filterMap id

/-- What tells the keys of a mapping apart before they are read. -/
def Tree.keyLabel (t : Tree) (id : NodeId) : Nat × String :=
  match t.node id with
  | .scalar _ _ s => (0, s)
  | .sequence _ => (1, "")
  | .mapping _ => (2, "")
  | .reference name _ => (3, name)

def hasDuplicate [DecidableEq α] : List α → Bool
  | [] => false
  | a :: rest => a ∈ rest || hasDuplicate rest

/-- The text of a key if the key is nothing but a text. -/
def Tree.textKey? (t : Tree) (p : Place) : Option String :=
  match t.follow p with
  | .ok (.scalar tag plain s, _) =>
    match meaning tag plain s with
    | .ok (.text s) =>
      if tag = "" && plain && (isInteger s || isFraction s || isTimestamp s) then none else some s
    | _ => none
  | _ => none

/-- Named values, and the names that are given so far. -/
abbrev Fields := List (String × Place) × List String

/-- The first value of each name that is not given already. -/
def firsts (names : List String) : List (String × Place) → List (String × Place)
  | [] => []
  | (name, p) :: rest =>
    if name ∈ names then firsts names rest else (name, p) :: firsts (name :: names) rest

/-- The fields of several mappings in turn. -/
def takeOver (fields : List String → Place → Except Error Fields) :
    List String → List Place → Except Error Fields
  | seen, [] => .ok ([], seen)
  | seen, source :: rest => do
    let (own, seen) ← fields seen source
    let (more, seen) ← takeOver fields seen rest
    return (own ++ more, seen)

/-- The mappings that a merge key names: one, or a list of them. -/
def Tree.mergeSources (t : Tree) (pairs : List (NodeId × NodeId)) (trail : List NodeId) :
    Except Error (List Place) :=
  match pairs.find? fun (k, _) => (t.node k).isMergeKey with
  | none => .ok []
  | some (_, source) =>
    match t.node source with
    | .mapping _ | .reference _ _ => .ok [⟨source, trail⟩]
    | .sequence items => .ok (items.map (⟨·, trail⟩))
    | .scalar _ _ _ => .error .value

/-- The fields of a mapping and of those it takes over. `seen` are the names that are given already,
if this mapping is itself taken over; in one that is not, a known name may not stand twice. -/
def Tree.fields (t : Tree) (known : List String) :
    Nat → Option (List String) → Place → Except Error Fields
  | 0, _, _ => .error .value
  | fuel + 1, seen, p => do
    match ← t.follow p with
    | (.mapping pairs, q) =>
      if hasDuplicate (pairs.map fun (k, _) => t.keyLabel k) then throw .value
      let own := pairs.filter fun (k, _) => !(t.node k).isMergeKey
      let named ← own.mapM fun (k, v) => do
        return (← t.text? ⟨k, q.trail⟩).map fun name => (name, (⟨v, q.trail⟩ : Place))
      let named := named.filterMap id
      let sources ← t.mergeSources pairs q.trail
      let (fresh, seen) ← match seen with
        | none =>
          if hasDuplicate ((named.map Prod.fst).filter (known.contains ·)) then throw .value
          pure (named, own.filterMap fun (k, _) => t.textKey? ⟨k, q.trail⟩)
        | some names =>
          let fresh := firsts names named
          pure (fresh, names ++ fresh.map Prod.fst)
      let (more, seen) ← takeOver (fun seen p => t.fields known fuel (some seen) p) seen sources
      return (fresh ++ more, seen)
    | _ => throw .value

/-- The fields of a record, unless it is null. -/
def Tree.record? (t : Tree) (known : List String) (p : Place) :
    Except Error (Option (List (String × Place))) := do
  match ← t.follow p with
  | (.mapping _, _) =>
    let (fields, _) ← t.fields known (t.nodes.size + 1) none p
    return some fields
  | (.sequence _, _) => throw .value
  | (n, _) => if ← n.isNull then return none else throw .value

end Yaml

open Yaml

def fieldText (t : Tree) (fields : List (String × Place)) (name : String) : Except Error String :=
  match fields.lookup name with
  | none => .ok ""
  | some p => (t.text? p).map (·.getD "")

def fieldList (t : Tree) (read : Place → Except Error (Option α)) (fields : List (String × Place))
    (name : String) : Except Error (List α) :=
  match fields.lookup name with
  | none => .ok []
  | some p => t.list read p

def fieldValue (read : Place → Except Error (Option α)) (fields : List (String × Place))
    (name : String) : Except Error (Option α) :=
  match fields.lookup name with
  | none => .ok none
  | some p => read p

mutual

/-- A reference is a name or a definition in place. -/
def Reference.ofTree (t : Tree) : Nat → Place → Except Error (Option Reference)
  | 0, _ => .error .value
  | fuel + 1, p => do
    match ← t.follow p with
    | (.mapping _, q) => return (← Definition.ofTree t fuel ⟨q.node, []⟩).map .inline
    | _ => return (← t.text? p).map .named

def Definition.ofTree (t : Tree) : Nat → Place → Except Error (Option Definition)
  | 0, _ => .error .value
  | fuel + 1, p => do
    match ← t.record? ["kind", "props", "recv", "args", "ret", "proto", "elem"] p with
    | none => return none
    | some fields =>
      let kind ← fieldText t fields "kind"
      let props ← fieldList t (Member.ofTree t fuel) fields "props"
      let recv ← fieldValue (Reference.ofTree t fuel) fields "recv"
      let args ← fieldList t (Reference.ofTree t fuel) fields "args"
      let ret ← fieldValue (Reference.ofTree t fuel) fields "ret"
      let proto ← fieldValue (Reference.ofTree t fuel) fields "proto"
      let elem ← fieldValue (Reference.ofTree t fuel) fields "elem"
      return some (.mk kind props recv args ret proto elem)

def Member.ofTree (t : Tree) : Nat → Place → Except Error (Option Member)
  | 0, _ => .error .value
  | fuel + 1, p => do
    match ← t.record? ["name", "type", "readonly"] p with
    | none => return none
    | some fields =>
      let name ← fieldText t fields "name"
      let type ← fieldValue (Reference.ofTree t fuel) fields "type"
      let readOnly ← fieldValue t.truth? fields "readonly"
      return some (.mk name (type.getD (.named "")) (readOnly.getD false))

end

/-- Puts a definition under a name, in place of an earlier one. -/
def putDefinition (name : String) (d : Option Definition) (tags : List (String × Option Definition)) :
    List (String × Option Definition) :=
  tags.filter (·.1 ≠ name) ++ [(name, d)]

namespace Document

/-- The document that a tree holds. A definition contains others at most as deep as there are nodes,
or references that lead back to it. -/
def ofTree (t : Tree) : Except Error Document := do
  let fuel := 4 * t.nodes.size + 16
  match t.root with
  | none => return ⟨[], []⟩
  | some root =>
    match ← t.record? ["props", "tags"] ⟨root, []⟩ with
    | none => return ⟨[], []⟩
    | some fields =>
      let props ← fieldList t t.text? fields "props"
      let entries ← fieldValue (t.record? []) fields "tags"
      let defs ← (entries.getD []).mapM fun (name, p) => do
        return (name, ← Definition.ofTree t fuel p)
      return ⟨props, defs.foldl (fun tags (name, d) => putDefinition name d tags) []⟩

/-- Reads a document written in YAML. -/
def ofYaml (data : Bytes) : Except Error Document := do
  let text ← characters data
  ofTree (← Tree.ofText text)

end Document

/-- Reads a table written in YAML. -/
def Table.ofYaml (data : Bytes) : Except TableReadError Table :=
  match Document.ofYaml data with
  | .error _ => .error .yaml
  | .ok d => d.table.mapError .table

/-- A text in double quotes, with all but printable ASCII escaped. -/
def yamlText (s : String) : String :=
  let escape (c : Char) : List Char :=
    if c = '"' ∨ c = '\\' then ['\\', c]
    else if 32 ≤ c.toNat ∧ c.toNat < 127 then [c]
    else ['\\', 'U'] ++ Text.hexDigits 8 c.toNat
  String.ofList ('"' :: s.toList.flatMap escape ++ ['"'])

def yamlList (items : List String) : String := "[" ++ ", ".intercalate items ++ "]"

/-- Keys are marked, since an unmarked one could be too long. -/
def yamlRecord (fields : List (String × String)) : String :=
  "\x7b" ++ ", ".intercalate (fields.map fun (name, value) => "? " ++ name ++ " : " ++ value) ++ "\x7d"

mutual

def Reference.toYaml : Reference → String
  | .named name => yamlText name
  | .inline d => d.toYaml

def Definition.toYaml : Definition → String
  | .mk kind props recv args ret proto elem =>
    yamlRecord ([("kind", yamlText kind), ("props", yamlList (membersToYaml props)),
      ("args", yamlList (referencesToYaml args))] ++ partToYaml "recv" recv ++ partToYaml "ret" ret ++
      partToYaml "proto" proto ++ partToYaml "elem" elem)

def partToYaml (name : String) : Option Reference → List (String × String)
  | none => []
  | some r => [(name, r.toYaml)]

def referencesToYaml : List Reference → List String
  | [] => []
  | r :: rest => r.toYaml :: referencesToYaml rest

def membersToYaml : List Member → List String
  | [] => []
  | .mk name type readOnly :: rest =>
    yamlRecord [("name", yamlText name), ("type", type.toYaml),
      ("readonly", if readOnly then "true" else "false")] :: membersToYaml rest

end

/-- A document in YAML. -/
def Document.toYaml (d : Document) : String :=
  yamlRecord [("props", yamlList (d.props.map yamlText)),
    ("tags", yamlRecord (d.tags.map fun (name, d) =>
      (yamlText name, match d with | none => "~" | some d => d.toYaml)))]

end Gradual
