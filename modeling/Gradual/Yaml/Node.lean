import Gradual.Yaml.Token

/-!
The nodes of a YAML document. Nodes are addressed by their position, so that a reference to an anchor
can name a node that is still open; a document may be cyclic. Only the first document of a text is
read.
-/
namespace Gradual.Yaml

abbrev NodeId := Nat

inductive Node where
  /-- `tag` is the tag that was written, empty if there was none. -/
  | scalar (tag : String) (plain : Bool) (text : String)
  | sequence (items : List NodeId)
  | mapping (pairs : List (NodeId × NodeId))
  | reference (name : String) (target : NodeId)
  deriving DecidableEq, Repr

structure Tree where
  nodes : Array Node
  /-- A text without a document has no root. -/
  root : Option NodeId

def Tree.node (t : Tree) (id : NodeId) : Node := t.nodes.getD id (.scalar "" true "")

structure Parser where
  tokens : Tokens
  position : Nat
  nodes : Array Node
  anchors : List (String × NodeId)
  handles : List (String × String)

abbrev Parse := StateT Parser (Except Error)

namespace Parse

def peek : Parse Token := do
  let p ← get
  liftM (p.tokens.get p.position)

def skip : Parse Unit := modify fun p => { p with position := p.position + 1 }

def add (n : Node) : Parse NodeId :=
  modifyGet fun p => (p.nodes.size, { p with nodes := p.nodes.push n })

def fill (id : NodeId) (n : Node) : Parse Unit :=
  modify fun p => { p with nodes := p.nodes.setIfInBounds id n }

/-- A later anchor of a name replaces an earlier one. -/
def bindAnchor (name : Option String) (id : NodeId) : Parse Unit :=
  match name with
  | none => pure ()
  | some name => modify fun p => { p with anchors := (name, id) :: p.anchors }

def empty : Parse NodeId := add (.scalar "" true "")

/-- The tag that a handle and a suffix stand for. -/
def expand (handle suffix : String) : Parse String := do
  if handle = "" then return suffix
  match (← get).handles.lookup handle with
  | some expansion => if expansion ++ suffix = "" then throw .shape else return expansion ++ suffix
  | none => throw .shape

/-- The anchor and the tag before a node, in either order. -/
def properties : Parse (Option String × String) := do
  match ← peek with
  | .anchor name =>
    skip
    match ← peek with
    | .tag handle suffix => skip; return (some name, ← expand handle suffix)
    | _ => return (some name, "")
  | .tag handle suffix =>
    skip
    match ← peek with
    | .anchor name => skip; return (some name, ← expand handle suffix)
    | _ => return (none, ← expand handle suffix)
  | _ => return (none, "")

mutual

/-- One node. A block collection may stand only where `block` says so, and a sequence that is not
indented only where `flush` does. -/
def node : Nat → Bool → Bool → Parse NodeId
  | 0, _, _ => throw .shape
  | fuel + 1, block, flush => do
    match ← peek with
    | .reference name =>
      skip
      match (← get).anchors.lookup name with
      | some target => add (.reference name target)
      | none => throw .anchor
    | _ =>
      let (anchor, tag) ← properties
      let collection (inner : Parse Node) : Parse NodeId := do
        let id ← empty
        bindAnchor anchor id
        fill id (← inner)
        return id
      match ← peek with
      | .blockEntry =>
        if flush then collection (do return .sequence (← flushEntries fuel))
        else if anchor.isSome ∨ tag ≠ "" then lone anchor tag
        else throw .shape
      | .scalar text plain =>
        skip
        let id ← add (.scalar tag plain text)
        bindAnchor anchor id
        return id
      | .flowSequenceStart => skip; collection (do return .sequence (← flowEntries fuel true))
      | .flowMappingStart => skip; collection (do return .mapping (← flowPairs fuel true))
      | .blockSequenceStart =>
        if block then skip; collection (do return .sequence (← blockEntries fuel))
        else if anchor.isSome ∨ tag ≠ "" then lone anchor tag
        else throw .shape
      | .blockMappingStart =>
        if block then skip; collection (do return .mapping (← blockPairs fuel))
        else if anchor.isSome ∨ tag ≠ "" then lone anchor tag
        else throw .shape
      | _ => if anchor.isSome ∨ tag ≠ "" then lone anchor tag else throw .shape

/-- An anchor or a tag without a node stands before an empty scalar. -/
def lone (anchor : Option String) (tag : String) : Parse NodeId := do
  let id ← add (.scalar tag true "")
  bindAnchor anchor id
  return id

def blockEntries : Nat → Parse (List NodeId)
  | 0 => throw .shape
  | fuel + 1 => do
    match ← peek with
    | .blockEntry =>
      skip
      let item ← match ← peek with
        | .blockEntry | .blockEnd => empty
        | _ => node fuel true false
      return item :: (← blockEntries fuel)
    | .blockEnd => skip; return []
    | _ => throw .shape

def flushEntries : Nat → Parse (List NodeId)
  | 0 => throw .shape
  | fuel + 1 => do
    match ← peek with
    | .blockEntry =>
      skip
      let item ← match ← peek with
        | .blockEntry | .key | .value | .blockEnd => empty
        | _ => node fuel true false
      return item :: (← flushEntries fuel)
    | _ => return []

def blockPairs : Nat → Parse (List (NodeId × NodeId))
  | 0 => throw .shape
  | fuel + 1 => do
    match ← peek with
    | .key =>
      skip
      let k ← match ← peek with
        | .key | .value | .blockEnd => empty
        | _ => node fuel true true
      let v ← blockValue fuel
      return (k, v) :: (← blockPairs fuel)
    | .blockEnd => skip; return []
    | _ => throw .shape

def blockValue : Nat → Parse NodeId
  | 0 => throw .shape
  | fuel + 1 => do
    match ← peek with
    | .value =>
      skip
      match ← peek with
      | .key | .value | .blockEnd => empty
      | _ => node fuel true true
    | _ => empty

/-- The items between brackets; a key among them makes a mapping of one pair. -/
def flowEntries : Nat → Bool → Parse (List NodeId)
  | 0, _ => throw .shape
  | fuel + 1, first => do
    if !first then
      match ← peek with
      | .flowEntry => skip
      | .flowSequenceEnd => pure ()
      | _ => throw .shape
    match ← peek with
    | .flowSequenceEnd => skip; return []
    | .key =>
      skip
      let id ← empty
      let k ← match ← peek with
        | .value | .flowEntry | .flowSequenceEnd => skip; empty
        | _ => node fuel false false
      let v ← match ← peek with
        | .value =>
          skip
          match ← peek with
          | .flowEntry | .flowSequenceEnd => empty
          | _ => node fuel false false
        | _ => empty
      fill id (.mapping [(k, v)])
      return id :: (← flowEntries fuel false)
    | _ =>
      let item ← node fuel false false
      return item :: (← flowEntries fuel false)

def flowPairs : Nat → Bool → Parse (List (NodeId × NodeId))
  | 0, _ => throw .shape
  | fuel + 1, first => do
    if !first then
      match ← peek with
      | .flowEntry => skip
      | .flowMappingEnd => pure ()
      | _ => throw .shape
    match ← peek with
    | .flowMappingEnd => skip; return []
    | .key =>
      skip
      let k ← match ← peek with
        | .value | .flowEntry | .flowMappingEnd => empty
        | _ => node fuel false false
      let v ← match ← peek with
        | .value =>
          skip
          match ← peek with
          | .flowEntry | .flowMappingEnd => empty
          | _ => node fuel false false
        | _ => empty
      return (k, v) :: (← flowPairs fuel false)
    | _ =>
      let k ← node fuel false false
      let v ← empty
      return (k, v) :: (← flowPairs fuel false)

end

/-- The directives before a document. Only version 1.1 is known. -/
def directives : Nat → Bool → Parse Unit
  | 0, _ => throw .shape
  | fuel + 1, versioned => do
    match ← peek with
    | .version major minor =>
      if versioned ∨ major ≠ 1 ∨ minor ≠ 1 then throw .shape
      skip
      directives fuel true
    | .tagHandle handle expansion =>
      if ((← get).handles.lookup handle).isSome then throw .shape
      modify fun p => { p with handles := (handle, expansion) :: p.handles }
      skip
      directives fuel versioned
    | _ => pure ()

def defaultHandles : List (String × String) := [("!", "!"), ("!!", "tag:yaml.org,2002:")]

/-- Handles that a document does not define itself have their usual meaning. -/
def addDefaultHandles : Parse Unit :=
  modify fun p => { p with
    handles := p.handles ++ defaultHandles.filter fun h => (p.handles.lookup h.1).isNone }

/-- The first document. What follows it is not looked at, but for the token after it. -/
def document (fuel : Nat) : Parse (Option NodeId) := do
  let _ ← peek
  skip
  let first ← peek
  match first with
  | .streamEnd => return none
  | .version _ _ | .tagHandle _ _ | .documentStart =>
    directives fuel false
    addDefaultHandles
    match ← peek with
    | .documentStart => skip
    | _ => throw .shape
    let root ← match ← peek with
      | .version _ _ | .tagHandle _ _ | .documentStart | .documentEnd | .streamEnd => empty
      | _ => node fuel true false
    let _ ← peek
    return some root
  | _ =>
    addDefaultHandles
    let root ← node fuel true false
    let _ ← peek
    return some root

end Parse

/-- Reads the first document of a text. Every step takes a token or ends a collection, so twice the
number of tokens suffices. -/
def Tree.ofText (text : List Char) : Except Error Tree := do
  let tokens := Tokens.ofText (if text.isEmpty then ['\n'] else text)
  let (root, p) ← (Parse.document (2 * tokens.tokens.size + 4)).run ⟨tokens, 0, #[], [], []⟩
  return ⟨p.nodes, root⟩

end Gradual.Yaml
