import Gradual.Cbor.Reading
import Gradual.Table.Compiled

/-!
Compiled tables as data items: records with numbered fields, an empty list as null, and fields that may
be left out when they are empty.
-/
namespace Gradual

namespace Cbor.Item

def record (fields : List (Nat × Item)) : Item := map (fields.map fun (n, value) => (uint n, value))

def list (f : α → Item) : List α → Item
  | [] => null
  | items => array (items.map f)

/-- A field that is there only if its value says something. -/
def optional (present : Bool) (number : Nat) (value : Item) : List (Nat × Item) :=
  if present then [(number, value)] else []

end Cbor.Item

open Cbor (Item)

def CompiledProperty.toItem (p : CompiledProperty) : Item :=
  .record ([(1, .uint p.id), (2, .int p.type)] ++ Item.optional p.readOnly 3 (.bool true))

def CompiledProperty.ofItem? (item : Item) : Option CompiledProperty := do
  let r ← item.asRecord?
  return {
    id := ← (Item.field 1 r).asNat? (0x100000000)
    type := ← (Item.field 2 r).asInt?
    readOnly := ← (Item.field 3 r).asBool? }

def CompiledNode.toItem (n : CompiledNode) : Item :=
  .record ([(1, .uint n.kind)] ++ Item.optional (n.code != 0) 2 (.uint n.code) ++
    Item.optional (!n.args.isEmpty) 3 (.list .int n.args) ++ [(4, .int n.ret), (5, .int n.proto)] ++
    Item.optional (!n.props.isEmpty) 6 (.list CompiledProperty.toItem n.props) ++ [(7, .int n.elem)])

def CompiledNode.ofItem? (item : Item) : Option CompiledNode := do
  let r ← item.asRecord?
  return {
    kind := ← (Item.field 1 r).asNat? 256
    code := ← (Item.field 2 r).asNat? 256
    args := ← (Item.field 3 r).asList? Item.asInt?
    ret := ← (Item.field 4 r).asInt?
    proto := ← (Item.field 5 r).asInt?
    props := ← (Item.field 6 r).asList? CompiledProperty.ofItem?
    elem := ← (Item.field 7 r).asInt? }

def CompiledName.toItem (n : CompiledName) : Item := .record [(1, .string n.name), (2, .int n.node)]

def CompiledName.ofItem? (item : Item) : Option CompiledName := do
  let r ← item.asRecord?
  return { name := ← (Item.field 1 r).asString?, node := ← (Item.field 2 r).asInt? }

namespace CompiledTable

def toItem (w : CompiledTable) : Item :=
  .record [(1, .uint w.version), (2, .list .string w.props), (3, .list CompiledName.toItem w.names),
    (4, .list CompiledNode.toItem w.nodes)]

def ofItem? (item : Item) : Option CompiledTable := do
  let r ← item.asRecord?
  return {
    version := ← (Item.field 1 r).asNat? 256
    props := ← (Item.field 2 r).asList? Item.asString?
    names := ← (Item.field 3 r).asList? CompiledName.ofItem?
    nodes := ← (Item.field 4 r).asList? CompiledNode.ofItem? }

def bytes (w : CompiledTable) : Bytes := w.toItem.encode

def ofBytes? (data : Bytes) : Option CompiledTable := (Item.parse? data).bind ofItem?

end CompiledTable

instance Codec.cbor : Codec := ⟨CompiledTable.bytes, CompiledTable.ofBytes?⟩

end Gradual
