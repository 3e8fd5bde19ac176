import Gradual.Proofs.Cbor.RoundTrip

/-!
Written items are a prefix code: no item begins with the bytes of another one. This takes no limit of a
reader, only that every number and every length can be told in a head. Main statement: `Sized.encode_inj`.
-/
namespace Gradual.Cbor

theorem Head.bytes_append_inj {major major' arg arg' : Nat} {rest rest' : Bytes} (kind : major < 8)
    (kind' : major' < 8) (fits : arg < 256 ^ 8) (fits' : arg' < 256 ^ 8)
    (same : Head.bytes major arg ++ rest = Head.bytes major' arg' ++ rest') :
    major = major' ∧ arg = arg' ∧ rest = rest' := by
  have first := Head.parse_bytes kind fits rest
  rw [same, Head.parse_bytes kind' fits' rest'] at first
  simp only [Option.some.injEq, Prod.mk.injEq, Head.mk.injEq] at first
  obtain ⟨⟨kinds, _, args⟩, rests⟩ := first
  exact ⟨kinds.symm, args.symm, rests.symm⟩

namespace Item

/-- Items of the forms that are written whose numbers and lengths take at most eight bytes. -/
inductive Sized : Item → Prop where
  | uint (fits : n < 256 ^ 8) : Sized (.uint n)
  | negative (fits : n < 256 ^ 8) : Sized (.negative n)
  | text (fits : data.length < 256 ^ 8) : Sized (.text [data])
  | array (fits : items.length < 256 ^ 8) (each : ∀ item ∈ items, Sized item) : Sized (.array items)
  | map (fits : pairs.length < 256 ^ 8) (keys : ∀ pair ∈ pairs, Sized pair.1)
      (values : ∀ pair ∈ pairs, Sized pair.2) : Sized (.map pairs)
  | simple (fits : n < 256 ^ 8) : Sized (.simple n)

def head : Item → Nat × Nat
  | .uint n => (0, n)
  | .negative n => (1, n)
  | .bytes data => (2, data.length)
  | .text chunks => (3, chunks.flatten.length)
  | .array items => (4, items.length)
  | .map pairs => (5, pairs.length)
  | .tag number _ => (6, number)
  | .simple n | .float _ n => (7, n)

def content : Item → Bytes
  | .text chunks => chunks.flatten
  | .array items => encodeItems items
  | .map pairs => encodePairs pairs
  | _ => []

theorem Sized.encode_eq {item : Item} (sized : Sized item) :
    item.encode = Head.bytes item.head.1 item.head.2 ++ item.content ∧ item.head.1 < 8 ∧ item.head.2 < 256 ^ 8 := by
  cases sized with
  | uint fits | negative fits | simple fits => simpa [encode, head, content] using fits
  | text fits => simpa [encode, encodeText, head, content] using fits
  | array fits | map fits => simpa [encode, head, content] using fits

/-- `item` can be told from every other item by how its bytes begin. -/
def Told (item : Item) : Prop :=
  ∀ other xs ys, Sized other → item.encode ++ xs = other.encode ++ ys → item = other ∧ xs = ys

theorem encodeItems_append_inj {items others : List Item} {xs ys : Bytes} (told : ∀ item ∈ items, Told item)
    (sized : ∀ item ∈ others, Sized item) (count : items.length = others.length)
    (same : encodeItems items ++ xs = encodeItems others ++ ys) : items = others ∧ xs = ys := by
  induction items generalizing others with
  | nil =>
    obtain rfl := List.length_eq_zero_iff.1 count.symm
    exact ⟨rfl, same⟩
  | cons item items ih =>
    cases others with
    | nil => cases count
    | cons other others =>
      simp only [encodeItems, List.append_assoc] at same
      obtain ⟨here, there⟩ := List.forall_mem_cons.1 told
      obtain ⟨first, rest⟩ := List.forall_mem_cons.1 sized
      obtain ⟨rfl, tails⟩ := here other _ _ first same
      obtain ⟨rfl, rfl⟩ := ih there rest (Nat.succ.inj count) tails
      exact ⟨rfl, rfl⟩

theorem Sized.told {item : Item} (sized : Sized item) : Told item := by
  -- the heads agree, so the forms do, and what is left to compare are the contents
  have heads {item other : Item} {xs ys : Bytes} (left : Sized item) (right : Sized other)
      (same : item.encode ++ xs = other.encode ++ ys) :
      item.head = other.head ∧ item.content ++ xs = other.content ++ ys := by
    obtain ⟨eq, kind, fits⟩ := left.encode_eq
    obtain ⟨eq', kind', fits'⟩ := right.encode_eq
    rw [eq, eq', List.append_assoc, List.append_assoc] at same
    obtain ⟨kinds, args, rests⟩ := Head.bytes_append_inj kind kind' fits fits' same
    exact ⟨Prod.ext kinds args, rests⟩
  induction sized with
  | uint fits =>
    intro other xs ys right same
    obtain ⟨head, rest⟩ := heads (.uint fits) right same
    cases right with
    | uint =>
      cases head
      exact ⟨rfl, rest⟩
    | _ => simp [Item.head] at head
  | negative fits =>
    intro other xs ys right same
    obtain ⟨head, rest⟩ := heads (.negative fits) right same
    cases right with
    | negative =>
      cases head
      exact ⟨rfl, rest⟩
    | _ => simp [Item.head] at head
  | simple fits =>
    intro other xs ys right same
    obtain ⟨head, rest⟩ := heads (.simple fits) right same
    cases right with
    | simple =>
      cases head
      exact ⟨rfl, rest⟩
    | _ => simp [Item.head] at head
  | text fits =>
    intro other xs ys right same
    obtain ⟨head, rest⟩ := heads (.text fits) right same
    cases right with
    | text =>
      simp only [Item.head, content, List.flatten_cons, List.flatten_nil, List.append_nil, Prod.mk.injEq, true_and]
        at head rest
      obtain ⟨rfl, rfl⟩ := List.append_inj rest head
      exact ⟨rfl, rfl⟩
    | _ => simp [Item.head] at head
  | @array items fits each ih =>
    intro other xs ys right same
    obtain ⟨head, rest⟩ := heads (.array fits each) right same
    cases right with
    | array _ each' =>
      obtain ⟨rfl, rfl⟩ := encodeItems_append_inj ih each' (by simpa [Item.head] using head) rest
      exact ⟨rfl, rfl⟩
    | _ => simp [Item.head] at head
  | @map pairs fits keys values ihk ihv =>
    intro other xs ys right same
    obtain ⟨head, rest⟩ := heads (.map fits keys values) right same
    cases right with
    | @map pairs' _ keys' values' =>
      have count : pairs.length = pairs'.length := by simpa [Item.head] using head
      simp only [content, encodePairs_eq] at rest
      -- keys and values are compared as one list of twice the length
      obtain ⟨flat, rfl⟩ := encodeItems_append_inj (forall_mem_pairs ihk ihv) (forall_mem_pairs keys' values')
        (by rw [length_pairs, length_pairs, count]) rest
      have paired := pairUp_flatMap pairs
      rw [flat, pairUp_flatMap] at paired
      exact ⟨by rw [Option.some.inj paired], rfl⟩
    | _ => simp [Item.head] at head

/-- Different items are written differently. -/
theorem Sized.encode_inj {item other : Item} (left : Sized item) (right : Sized other)
    (same : item.encode = other.encode) : item = other :=
  (left.told other [] [] right (by rw [same])).1

theorem Sized.int {n : Int} (low : -(256 ^ 8 : Nat) ≤ n) (high : n < (256 ^ 8 : Nat)) : Sized (Item.int n) := by
  unfold Item.int
  split_ifs with sign
  · exact .uint (by omega)
  · exact .negative (by omega)

end Item

end Gradual.Cbor
