/-! Property names. A table gives every name a dense id in the order in which names are first seen;
ids are never taken back, so an id stands for one name for the life of the table. -/
namespace Gradual

/-- The position of a name in its table. Ids take 32 bits as long as a table has no more than `2 ^ 32` names. -/
abbrev PropId := Nat

structure NameTable where
  names : Array String
  deriving DecidableEq, Repr

namespace NameTable

def empty : NameTable := ⟨#[]⟩

def find? (t : NameTable) (name : String) : Option PropId := t.names.idxOf? name

/-- The id of a name, issued now if the name is new. -/
def intern (t : NameTable) (name : String) : NameTable × PropId :=
  match t.find? name with
  | some id => (t, id)
  | none => (⟨t.names.push name⟩, t.names.size)

def ofList (names : List String) : NameTable :=
  names.foldl (fun t name => (t.intern name).1) empty

/-- The name of an id, empty for an id that was never issued. -/
def name (t : NameTable) (id : PropId) : String := t.names.getD id ""

def size (t : NameTable) : Nat := t.names.size

def toList (t : NameTable) : List String := t.names.toList

end NameTable

end Gradual
