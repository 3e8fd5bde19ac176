import Gradual.Bytes

/-!
CBOR data items. Writing is canonical: every length is given, and every head takes the fewest bytes.
Reading takes any well-formed item, indefinite lengths included, of bounded nesting and width.
-/
namespace Gradual.Cbor

/-- The head of an item: major type, additional information and argument. -/
structure Head where
  major : Nat
  info : Nat
  arg : Nat
  deriving DecidableEq, Repr

def Head.bytes (major arg : Nat) : Bytes :=
  let first (info : Nat) := UInt8.ofNat (major * 32 + info)
  if arg < 24 then [first arg]
  else if arg < 256 then first 24 :: Bytes.bigEndian 1 arg
  else if arg < 65536 then first 25 :: Bytes.bigEndian 2 arg
  else if arg < 4294967296 then first 26 :: Bytes.bigEndian 4 arg
  else first 27 :: Bytes.bigEndian 8 arg

/-- Reads a head. Additional information 31 stands for an indefinite length; 28 to 30 stand for
nothing. -/
def Head.parse : Bytes → Option (Head × Bytes)
  | [] => none
  | b :: rest =>
    let major := b.toNat / 32
    let info := b.toNat % 32
    let wide (n : Nat) : Option (Head × Bytes) := do
      let (arg, rest) ← Bytes.takeNumber n 0 rest
      return (⟨major, info, arg⟩, rest)
    match info with
    | 24 => wide 1
    | 25 => wide 2
    | 26 => wide 4
    | 27 => wide 8
    | 28 | 29 | 30 => none
    | _ => some (⟨major, info, info⟩, rest)

inductive Item where
  | uint (n : Nat)
  /-- The integer `-1 - n`. -/
  | negative (n : Nat)
  | bytes (data : Bytes)
  /-- A text in the chunks it was written in. -/
  | text (chunks : List Bytes)
  | array (items : List Item)
  | map (pairs : List (Item × Item))
  | tag (number : Nat) (content : Item)
  | simple (n : Nat)
  | float (width : Nat) (bits : Nat)

instance : Inhabited Item := ⟨.simple 22⟩

namespace Item

def null : Item := simple 22

def bool (b : Bool) : Item := simple (if b then 21 else 20)

def string (s : String) : Item := text [Bytes.ofString s]

def int (n : Int) : Item := if 0 ≤ n then uint n.toNat else negative (-1 - n).toNat

def encodeText (data : Bytes) : Bytes := Head.bytes 3 data.length ++ data

mutual

def encode : Item → Bytes
  | uint n => Head.bytes 0 n
  | negative n => Head.bytes 1 n
  | bytes data => Head.bytes 2 data.length ++ data
  | text [data] => encodeText data
  | text chunks => 0x7f :: (chunks.flatMap encodeText ++ [0xff])
  | array items => Head.bytes 4 items.length ++ encodeItems items
  | map pairs => Head.bytes 5 pairs.length ++ encodePairs pairs
  | tag number content => Head.bytes 6 number ++ encode content
  | simple n => Head.bytes 7 n
  | float width bits => UInt8.ofNat (0xf8 + width.log2) :: Bytes.bigEndian width bits

def encodeItems : List Item → Bytes
  | [] => []
  | item :: rest => encode item ++ encodeItems rest

def encodePairs : List (Item × Item) → Bytes
  | [] => []
  | (key, value) :: rest => encode key ++ encode value ++ encodePairs rest

end

/-- Arrays, maps and tags within tags may nest this deep. -/
def maxLevels : Nat := 32

/-- An array may have this many items, and a map this many pairs. -/
def maxItems : Nat := 131072

/-- The chunks of a string of indefinite length: strings of that type with a length, up to the
break. -/
def parseChunks (major : Nat) : Nat → Bytes → Option (List Bytes × Bytes)
  | 0, _ => none
  | _, [] => none
  | fuel + 1, b :: rest =>
    if b = 0xff then some ([], rest)
    else do
      let (head, rest) ← Head.parse (b :: rest)
      if head.major ≠ major ∨ head.info = 31 then none
      else
        let (chunk, rest) ← Bytes.takeExactly head.arg rest
        let (chunks, rest) ← parseChunks major fuel rest
        return (chunk :: chunks, rest)

/-- Groups keys with values; nothing may be left over. -/
def pairUp : List Item → Option (List (Item × Item))
  | [] => some []
  | [_] => none
  | key :: value :: rest => do
    let pairs ← pairUp rest
    return (key, value) :: pairs

mutual

/-- Reads one item found at a level; `tagged` says that it is the content of a tag. -/
def parseItem : Nat → Nat → Bool → Bytes → Option (Item × Bytes)
  | 0, _, _, _ => none
  | fuel + 1, level, tagged, bs => do
    let (head, rest) ← Head.parse bs
    let indefinite := head.info = 31
    match head.major with
    | 0 => if indefinite then none else some (uint head.arg, rest)
    | 1 => if indefinite then none else some (negative head.arg, rest)
    | 2 =>
      if indefinite then
        let (chunks, rest) ← parseChunks 2 fuel rest
        return (bytes chunks.flatten, rest)
      else
        let (data, rest) ← Bytes.takeExactly head.arg rest
        return (bytes data, rest)
    | 3 =>
      if indefinite then
        let (chunks, rest) ← parseChunks 3 fuel rest
        return (text chunks, rest)
      else
        let (data, rest) ← Bytes.takeExactly head.arg rest
        return (text [data], rest)
    | 4 =>
      if maxLevels ≤ level then none
      else if indefinite then
        let (items, rest) ← parseUntilBreak fuel (level + 1) rest
        if maxItems < items.length then none else some (array items, rest)
      else if maxItems < head.arg then none
      else
        let (items, rest) ← parseItems fuel (level + 1) head.arg rest
        return (array items, rest)
    | 5 =>
      if maxLevels ≤ level then none
      else if indefinite then
        let (items, rest) ← parseUntilBreak fuel (level + 1) rest
        let pairs ← pairUp items
        if maxItems < pairs.length then none else some (map pairs, rest)
      else if maxItems < head.arg then none
      else
        let (items, rest) ← parseItems fuel (level + 1) (2 * head.arg) rest
        let pairs ← pairUp items
        return (map pairs, rest)
    | 6 =>
      let level := if tagged then level + 1 else level
      if indefinite ∨ maxLevels < level then none
      else
        let (content, rest) ← parseItem fuel level true rest
        return (tag head.arg content, rest)
    | _ =>
      match head.info with
      | 24 => if head.arg < 32 then none else some (simple head.arg, rest)
      | 25 => some (float 2 head.arg, rest)
      | 26 => some (float 4 head.arg, rest)
      | 27 => some (float 8 head.arg, rest)
      | 31 => none
      | _ => some (simple head.arg, rest)

def parseItems : Nat → Nat → Nat → Bytes → Option (List Item × Bytes)
  | _, _, 0, rest => some ([], rest)
  | 0, _, _, _ => none
  | fuel + 1, level, n + 1, bs => do
    let (item, rest) ← parseItem fuel level false bs
    let (items, rest) ← parseItems fuel level n rest
    return (item :: items, rest)

def parseUntilBreak : Nat → Nat → Bytes → Option (List Item × Bytes)
  | 0, _, _ => none
  | _, _, [] => none
  | fuel + 1, level, b :: rest =>
    if b = 0xff then some ([], rest)
    else do
      let (item, rest) ← parseItem fuel level false (b :: rest)
      let (items, rest) ← parseUntilBreak fuel level rest
      return (item :: items, rest)

end

/-- Reads bytes that hold exactly one item. An item takes at least one byte and costs at most two
steps, so the steps suffice. -/
def parse? (bs : Bytes) : Option Item :=
  match parseItem (2 * bs.length + 2) 0 false bs with
  | some (item, []) => some item
  | _ => none

/-- Reads items one after another up to the end, each within `cost` steps. -/
def parseSequence (cost : Nat) : Nat → Bytes → Option (List Item)
  | _, [] => some []
  | 0, _ => none
  | fuel + 1, bs => do
    let (item, rest) ← parseItem cost 0 false bs
    let items ← parseSequence cost fuel rest
    return item :: items

/-- Reads bytes that hold any number of items. -/
def parseAll? (bs : Bytes) : Option (List Item) := parseSequence (2 * bs.length + 2) bs.length bs

end Item

end Gradual.Cbor
