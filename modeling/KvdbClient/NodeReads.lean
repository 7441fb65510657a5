import KvdbClient.BigTableReads
import KvdbClient.HBaseReads
import KvdbClient.VastReads

/-! Reads of nodes by their ids, on top of a client's reads of rows: `base.py`. -/
namespace KvdbClient

/-- `deserialize_uint64` of decimal digits. The signs, blanks and underscores that `int` also takes
do not occur in row keys. -/
def deserializeUint64 (nodeId : Bytes) (fakeEdges : Bool) : Except ReadError ℕ :=
  let digits := decodeAscii (if fakeEdges then nodeId.drop 1 else nodeId)
  if digits ≠ [] ∧ digits.all Char.isDigit = true ∧ Nat.ofDigitChars 10 digits 0 < 2^64 then
    .ok (Nat.ofDigitChars 10 digits 0)
  else .error (.notAnId nodeId)

structure NodeSelection where
  startId : Option ℕ
  endId : Option ℕ
  endIdInclusive : Bool
  nodeIds : Option (List ℕ)

namespace NodeSelection

def ofIds (ids : List ℕ) : NodeSelection := ⟨none,none,false,some ids⟩

def ofRange (startId endId : ℕ) (inclusive : Bool) : NodeSelection :=
  ⟨some startId,some endId,inclusive,none⟩

def Valid (s : NodeSelection) : Prop := s.nodeIds ≠ none ∨ s.startId ≠ none ∧ s.endId ≠ none

/-- `np.sort` when the ids go into several queries. -/
def sortIds (maxRowKeyCount : ℕ) (ids : List ℕ) : List ℕ :=
  if maxRowKeyCount < ids.length then ids.insertionSort (· ≤ ·) else ids

def toRows (maxRowKeyCount : ℕ) (fakeEdges : Bool) (s : NodeSelection) : RowSelection where
  rowKeys := s.nodeIds.map fun ids =>
    (sortIds maxRowKeyCount ids).map fun id => serializeUint64 id false fakeEdges
  startKey := s.startId.map fun id => serializeUint64 id false fakeEdges
  endKey := s.endId.map fun id => serializeUint64 id false fakeEdges
  endKeyInclusive := s.endIdInclusive

end NodeSelection

/-- `read_nodes` over a client's `_read_byte_rows`, with `attr_keys` as it is by default. -/
def readNodes {α : Type} (readByteRows : RowSelection → Except ReadError (Dict Bytes α))
    (maxRowKeyCount : ℕ) (s : NodeSelection) (fakeEdges : Bool) : Except ReadError (Dict ℕ α) := do
  let rows ← readByteRows (s.toRows maxRowKeyCount fakeEdges)
  rows.rekey fun k => deserializeUint64 k fakeEdges

/-- `read_node` over a client's `_read_byte_row`. -/
def readNode {α : Type} (readByteRow : Bytes → Except ReadError α) (nodeId : ℕ) (fakeEdges : Bool) :
    Except ReadError α :=
  readByteRow (serializeUint64 nodeId false fakeEdges)

section Clients

variable {V : Type} (reg : Registry V) (maxRowKeyCount : ℕ) (store : List StoredCell)
  (columns : Columns) (w : Window)

def BigTable.readNodes (userId : Option Text) (s : NodeSelection) (fakeEdges : Bool) :
    Except ReadError (Dict ℕ (RowData V)) :=
  KvdbClient.readNodes (fun rows => readByteRows reg maxRowKeyCount store rows columns w userId)
    maxRowKeyCount s fakeEdges

def BigTable.readNode (nodeId : ℕ) (fakeEdges : Bool) : Except ReadError (RowData V) :=
  KvdbClient.readNode (fun k => readByteRow reg store k columns w) nodeId fakeEdges

def HBase.readNodes (p : Paging) (userId : Option Text) (s : NodeSelection) (fakeEdges : Bool) :
    Except ReadError (Dict ℕ (RowData V)) :=
  KvdbClient.readNodes (fun rows => readByteRows reg p store columns w maxRowKeyCount rows userId)
    maxRowKeyCount s fakeEdges

def HBase.readNode (p : Paging) (nodeId : ℕ) (fakeEdges : Bool) : Except ReadError (RowData V) :=
  KvdbClient.readNode (readByteRow reg p store columns w maxRowKeyCount) nodeId fakeEdges

def Vast.readNodes (a : Arrangement) (userId : Option Text) (s : NodeSelection) (fakeEdges : Bool) :
    Except ReadError (Dict ℕ (RowData V)) :=
  KvdbClient.readNodes (fun rows => readByteRows reg a store maxRowKeyCount rows columns w userId)
    maxRowKeyCount s fakeEdges

def Vast.readNode (a : Arrangement) (nodeId : ℕ) (fakeEdges : Bool) : Except ReadError (RowData V) :=
  KvdbClient.readNode (fun k => readByteRow reg a store maxRowKeyCount k columns w) nodeId fakeEdges

end Clients

theorem toNat_lt_of_mem_padNodeId {n : ℕ} {c : Char} (h : c ∈ padNodeId n) : c.toNat < 128 := by
  have hdigit := Char.isDigit_iff_toNat.mp (isDigit_of_mem_padNodeId h)
  have : '9'.toNat = 57 := rfl
  omega

theorem serializeUint64_node (n : ℕ) (fakeEdges : Bool) :
    serializeUint64 n false fakeEdges =
      encodeUtf8 (if fakeEdges then 'f' :: padNodeId n else padNodeId n) := by
  cases fakeEdges <;> rfl

theorem deserializeUint64_serializeUint64 {n : ℕ} (h : n < 2^64) (fakeEdges : Bool) :
    deserializeUint64 (serializeUint64 n false fakeEdges) fakeEdges = .ok n := by
  have hdrop : (if fakeEdges then (serializeUint64 n false fakeEdges).drop 1
      else serializeUint64 n false fakeEdges) = encodeUtf8 (padNodeId n) := by
    cases fakeEdges <;> rfl
  have hdecode : decodeAscii (encodeUtf8 (padNodeId n)) = padNodeId n :=
    decodeAscii_encodeUtf8 fun c hc => toNat_lt_of_mem_padNodeId hc
  have hne : padNodeId n ≠ [] := by simp [padNodeId,Nat.toDigits_ne_nil]
  have hall : (padNodeId n).all Char.isDigit = true :=
    List.all_eq_true.mpr fun c hc => isDigit_of_mem_padNodeId hc
  rw [deserializeUint64,hdrop,hdecode,ofDigitChars_padNodeId,if_pos ⟨hne,hall,h⟩]

theorem serializeUint64_isValidUTF8 (n : ℕ) (fakeEdges : Bool) :
    (serializeUint64 n false fakeEdges).toByteArray.IsValidUTF8 := by
  rw [serializeUint64_node]
  exact isValidUTF8_encodeUtf8 _

theorem NodeSelection.Valid.toRows {s : NodeSelection} (h : s.Valid) (maxRowKeyCount : ℕ)
    (fakeEdges : Bool) : (s.toRows maxRowKeyCount fakeEdges).Valid := by
  rcases h with h | ⟨hs,he⟩
  · exact Or.inl (by simpa [NodeSelection.toRows] using h)
  · exact Or.inr ⟨by simpa [NodeSelection.toRows] using hs,by simpa [NodeSelection.toRows] using he⟩

theorem NodeSelection.encodable_toRows (s : NodeSelection) (maxRowKeyCount : ℕ) (fakeEdges : Bool) :
    Vast.Encodable (s.toRows maxRowKeyCount fakeEdges) := by
  obtain ⟨startId,endId,inclusive,nodeIds⟩ := s
  cases nodeIds with
  | some ids =>
    intro k hk
    obtain ⟨id,_,rfl⟩ := List.mem_map.mp hk
    exact serializeUint64_isValidUTF8 id fakeEdges
  | none =>
    cases startId with
    | none => trivial
    | some s =>
      cases endId with
      | none => trivial
      | some e => exact ⟨serializeUint64_isValidUTF8 s fakeEdges,serializeUint64_isValidUTF8 e fakeEdges⟩

/-- A row that is returned for a key of an id is returned under the id. -/
theorem readNodes_spec {α : Type} (readByteRows : RowSelection → Except ReadError (Dict Bytes α))
    {maxRowKeyCount : ℕ} {s : NodeSelection} {fakeEdges : Bool} {d : Dict Bytes α}
    (hd : readByteRows (s.toRows maxRowKeyCount fakeEdges) = .ok d)
    (hkeys : ∀ k ∈ d.keys, ∃ id < 2^64, k = serializeUint64 id false fakeEdges) :
    ∃ r, readNodes readByteRows maxRowKeyCount s fakeEdges = .ok r ∧
      ∀ id, r.get? id = d.get? (serializeUint64 id false fakeEdges) := by
  obtain ⟨r,hr,hget⟩ := Dict.rekey_spec (serializeUint64_injective false fakeEdges)
    (f := fun k => deserializeUint64 k fakeEdges) (d := d) (fun k hk => by
      obtain ⟨id,hid,rfl⟩ := hkeys k hk
      exact ⟨id,deserializeUint64_serializeUint64 hid fakeEdges,rfl⟩)
  refine ⟨r,?_,hget⟩
  simp only [readNodes,hd,bind,Except.bind]
  exact hr

theorem readNodes_of_get? {α : Type} (readByteRows : RowSelection → Except ReadError (Dict Bytes α))
    {maxRowKeyCount : ℕ} {s : NodeSelection} {fakeEdges : Bool} {d : Dict Bytes α}
    (hd : readByteRows (s.toRows maxRowKeyCount fakeEdges) = .ok d) {g : Bytes → Option α}
    (hget : ∀ k, d.get? k = if (s.toRows maxRowKeyCount fakeEdges).selects k then g k else none)
    (hkeys : ∀ k, (s.toRows maxRowKeyCount fakeEdges).selects k = true → g k ≠ none →
      ∃ id < 2^64, k = serializeUint64 id false fakeEdges) :
    ∃ r, readNodes readByteRows maxRowKeyCount s fakeEdges = .ok r ∧ ∀ id, r.get? id =
      if (s.toRows maxRowKeyCount fakeEdges).selects (serializeUint64 id false fakeEdges) then
        g (serializeUint64 id false fakeEdges) else none := by
  obtain ⟨r,hr,hid⟩ := readNodes_spec readByteRows hd fun k hk => by
    obtain ⟨v,hv⟩ := Dict.mem_keys_iff.mp hk
    rw [hget] at hv
    split at hv
    · rename_i hsel
      exact hkeys k hsel (hv.trans_ne (by simp))
    · cases hv
  exact ⟨r,hr,fun id => by rw [hid,hget]⟩

theorem mem_sortIds {maxRowKeyCount : ℕ} {ids : List ℕ} {id : ℕ} :
    id ∈ NodeSelection.sortIds maxRowKeyCount ids ↔ id ∈ ids := by
  unfold NodeSelection.sortIds
  split
  · exact List.mem_insertionSort _
  · rfl

theorem selects_ofIds {maxRowKeyCount : ℕ} {fakeEdges : Bool} {ids : List ℕ} {k : Bytes} :
    ((NodeSelection.ofIds ids).toRows maxRowKeyCount fakeEdges).selects k = true ↔
      ∃ id ∈ ids, k = serializeUint64 id false fakeEdges := by
  simp only [RowSelection.selects,NodeSelection.toRows,NodeSelection.ofIds,Option.map_some,
    decide_eq_true_eq,List.mem_map,mem_sortIds]
  exact exists_congr fun id => and_congr_right fun _ => eq_comm

theorem selects_ofIds_iff {maxRowKeyCount : ℕ} {fakeEdges : Bool} {ids : List ℕ} {id : ℕ} :
    ((NodeSelection.ofIds ids).toRows maxRowKeyCount fakeEdges).selects
      (serializeUint64 id false fakeEdges) = true ↔ id ∈ ids := by
  rw [selects_ofIds]
  constructor
  · rintro ⟨id',hid',heq⟩
    rwa [serializeUint64_injective false fakeEdges heq]
  · exact fun h => ⟨id,h,rfl⟩

end KvdbClient
