import Gradual.Files.Tree
import Gradual.Proofs.Relations.Cache
import Gradual.Relations.File

/-!
A cache that was filled by calls is found again in its file: its bytes read back as the rows they were
written from. A row is short enough for its item, because a digest is, if the names of the tables are.
-/
namespace Gradual

open Cbor Item Files

theorem Cbor.Item.parseSequence_encode {items : List Item} (each : ∀ item ∈ items, Legible 0 item) {cost fuel : Nat}
    (dear : 2 * (items.flatMap encode).length + 2 ≤ cost) (long : (items.flatMap encode).length ≤ fuel) :
    parseSequence cost fuel (items.flatMap encode) = some items := by
  induction items generalizing fuel with
  | nil => cases fuel <;> rfl
  | cons item items ih =>
    have legible := each item List.mem_cons_self
    have pos := legible.encode_pos
    simp only [List.flatMap_cons, List.length_append] at dear long ⊢
    obtain ⟨cost, rfl⟩ := Nat.exists_eq_add_one.2 (show 0 < cost by omega)
    obtain ⟨fuel, rfl⟩ := Nat.exists_eq_add_one.2 (show 0 < fuel by omega)
    have read := legible.reads cost false (items.flatMap encode) (by omega)
    have rest : parseSequence (cost + 1) fuel (items.flatMap encode) = some items :=
      ih (fun other member => each other (List.mem_cons_of_mem _ member)) (by omega) (by omega)
    rw [parseSequence, read]
    · simp [rest]
    · intro empty
      simp_all

theorem Cbor.Item.parseAll?_encode {items : List Item} (each : ∀ item ∈ items, Legible 0 item) :
    parseAll? (items.flatMap encode) = some items :=
  parseSequence_encode each le_rfl le_rfl

namespace RelationRow

structure Fits (r : RelationRow) : Prop where
  digest : (Bytes.ofString r.digest).length < 256 ^ 8
  left : (Bytes.ofString r.left).length < 256 ^ 8
  right : (Bytes.ofString r.right).length < 256 ^ 8

theorem Fits.legible {r : RelationRow} (fits : r.Fits) : Legible 0 r.toItem := by
  have code : r.variance.code < 256 ^ 8 := by cases r.variance <;> decide
  have relation : r.rel.code < 256 ^ 8 := by cases r.rel <;> decide
  refine .array (by decide) (by simp [maxItems]) ?_
  simp only [List.mem_cons, List.not_mem_nil, or_false]
  rintro _ (rfl | rfl | rfl | rfl | rfl | rfl)
  · exact .text fits.digest
  · exact .uint code
  · exact .text fits.left
  · exact .text fits.right
  · exact .uint relation
  · exact .bool _

theorem ofItem?_toItem (r : RelationRow) : ofItem? r.toItem = some r := by
  obtain ⟨digest, variance, left, right, rel, result⟩ := r
  cases variance <;> cases rel <;> cases result <;>
    simp [toItem, ofItem?, Item.string, Bytes.toString?_ofString, Variance.code, Variance.ofCode, Relation.code,
      Relation.ofCode, Item.bool, asBool?, untagged]

end RelationRow

namespace RelationCache

variable {cache : RelationCache}

theorem ofBytes?_bytes (fits : ∀ r ∈ cache.rows, r.Fits) : ofBytes? cache.bytes = some cache := by
  have bytes : cache.bytes = (Item.text [mark] :: cache.rows.map RelationRow.toItem).flatMap encode := by
    simp [RelationCache.bytes, List.flatMap_map]
  have legible : ∀ item ∈ Item.text [mark] :: cache.rows.map RelationRow.toItem, Legible 0 item := by
    intro item member
    rcases List.mem_cons.1 member with rfl | row
    · exact .text (by simp only [mark, Bytes.ofString_eq]; decide)
    · obtain ⟨r, inside, rfl⟩ := List.mem_map.1 row
      exact (fits r inside).legible
  have nonempty : cache.bytes ≠ [] := by
    have pos := (legible _ List.mem_cons_self).encode_pos
    intro empty
    rw [bytes, List.flatMap_cons, List.append_eq_nil_iff] at empty
    simp [empty.1] at pos
  have rows : (cache.rows.map RelationRow.toItem).mapM RelationRow.ofItem? = some cache.rows :=
    mapM_map_some fun r _ => r.ofItem?_toItem
  unfold ofBytes?
  rw [if_neg (by simpa using nonempty), bytes, parseAll?_encode legible]
  simp [rows]

/-- Opening a cache in the file that holds it. -/
theorem openAt_eq {here path : String} {tree rest : Tree} (shared : isPrivate path = false)
    (fits : ∀ r ∈ cache.rows, r.Fits) (file : tree.read here path = .ok cache.bytes)
    (writable : tree.write here path cache.bytes = .ok rest) :
    openAt (Tree.disk here) path tree = (.ok cache, rest) := by
  have read : (Tree.disk here).read path tree = (.ok cache.bytes, tree) :=
    congrArg (fun data => (data, tree)) file
  have write : (Tree.disk here).write path cache.bytes tree = (.ok (), rest) := by
    simp only [Tree.disk, Tree.change, bind, StateT.bind, get, getThe, MonadStateOf.get, StateT.get, pure]
    rw [writable]
    rfl
  have saved : save (Tree.disk here) path cache tree = (.ok (), rest) := by
    rw [save, shared, if_neg Bool.false_ne_true]
    simp only [bind, StateT.bind, write]
    rfl
  rw [openAt, shared, if_neg Bool.false_ne_true]
  simp only [bind, StateT.bind, read, ofBytes?_bytes fits, saved]
  rfl

end RelationCache

theorem Bytes.length_ofString_ofList_le (cs : List Char) :
    (Bytes.ofString (String.ofList cs)).length ≤ 4 * cs.length := by
  have bytes : Bytes.ofString (String.ofList cs) = cs.flatMap String.utf8EncodeChar := by
    simp [Bytes.ofString_eq, String.toUTF8, List.utf8Encode]
  rw [bytes]
  clear bytes
  induction cs with
  | nil => simp
  | cons c cs ih =>
    have wide := c.utf8Size_le_four
    simp only [List.flatMap_cons, List.length_append, String.length_utf8EncodeChar, List.length_cons]
    omega

theorem Text.length_hexDigits (width n : Nat) : (Text.hexDigits width n).length = width := by
  induction width generalizing n with
  | zero => rfl
  | succ width ih => simp [Text.hexDigits, ih]

theorem Bytes.length_bigEndian (n value : Nat) : (Bytes.bigEndian n value).length = n := by
  induction n with
  | zero => rfl
  | succ n ih => simp [Bytes.bigEndian, ih]

theorem Digest.length_sha256 (data : Bytes) : (Digest.sha256 data).length = 32 := by
  simp [Digest.sha256, Digest.bytesOfWord, Bytes.length_bigEndian]

theorem Table.digest_fits [Codec] {t : Table} {digest : String} (h : t.digest = .ok digest) :
    (Bytes.ofString digest).length < 256 ^ 8 := by
  unfold Table.digest at h
  cases encoded : t.encode with
  | error => rw [encoded] at h; cases h
  | ok data =>
    rw [encoded] at h
    cases h
    have digits : ((Digest.sha256 data).flatMap fun b => Text.hexDigits 2 b.toNat).length = 64 := by
      simp [List.length_flatMap, Text.length_hexDigits, Digest.length_sha256]
    have wide := Bytes.length_ofString_ofList_le ((Digest.sha256 data).flatMap fun b => Text.hexDigits 2 b.toNat)
    rw [digits] at wide
    exact wide.trans_lt (by decide)

/-- The rows of a cache are as short as the names of the tables that it was filled for. -/
theorem RelationCache.filled_fits [Codec] {calls : List Precomputation}
    (short : ∀ p ∈ calls, ∀ name ∈ p.table.names, (Bytes.ofString name).length < 256 ^ 8) :
    ∀ r ∈ (filled calls).rows, r.Fits := by
  intro r member
  have found : r ∈ (filled calls).find r.digest r.variance :=
    List.mem_filter.2 ⟨member, by simp [RelationRow.belongs]⟩
  obtain ⟨p, inside, writes, row⟩ := mem_find_filled found
  obtain ⟨_, _, left, right, _⟩ := Table.mem_decideRows.1 row
  exact ⟨Table.digest_fits writes.digest, short p inside _ left, short p inside _ right⟩

end Gradual
