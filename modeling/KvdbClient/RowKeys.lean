import KvdbClient.MaxRootNodeId
import KvdbClient.RangeReads

/-! The row keys of a table: batches of ids, and keys of different rows.
The batch serializer pads to a width, the serializer of one id to a precision. -/
namespace KvdbClient

/-- `format(n,"020d")`: zeros between the sign and the digits, to a width of twenty for all three. -/
def formatWidth (n : ℤ) : Text :=
  let sign := if n < 0 then ['-'] else []
  let digits := Nat.toDigits 10 n.natAbs
  sign ++ List.replicate (20-sign.length-digits.length) '0' ++ digits

def serializeUint64Batch (nodeIds : List ℕ) (fakeEdges : Bool) : List Bytes :=
  let lead : Text := if fakeEdges then ['f'] else []
  nodeIds.map fun (nid : ℕ) => encodeUtf8 (lead ++ formatWidth nid)

/-- The key of `_get_root_segment_ids_range`, whatever its counter. -/
def rootSegmentKey (chunkId counter : ℕ) : Bytes :=
  serializeKey ('i'::padNodeId chunkId ++ '_'::Nat.toDigits 10 counter)

theorem formatWidth_natCast (n : ℕ) : formatWidth n = padNodeId n := by
  have hsign : ¬ (n : ℤ) < 0 := by omega
  simp [formatWidth,padNodeId,hsign]

theorem serializeUint64Batch_eq_map (nodeIds : List ℕ) (fakeEdges : Bool) :
    serializeUint64Batch nodeIds fakeEdges =
      nodeIds.map fun id => serializeUint64 id false fakeEdges := by
  rw [serializeUint64Batch]
  refine List.map_congr_left fun id _ => ?_
  rw [formatWidth_natCast,serializeUint64_node]
  cases fakeEdges <;> rfl

theorem rootSegmentKey_inj {chunkId chunkId' counter counter' : ℕ}
    (h : rootSegmentKey chunkId counter = rootSegmentKey chunkId' counter') :
    chunkId = chunkId' ∧ counter = counter' :=
  IdAllocation.serializeKey_counter_inj h

theorem rootSegmentKey_ne_serializeKey {t : Text} (h : '_' ∉ t) (chunkId counter : ℕ) :
    serializeKey t ≠ rootSegmentKey chunkId counter := fun heq =>
  h ((serializeKey_injective heq) ▸ by simp)

namespace RowKind

theorem eq_requested_of_key (fake : Bool) {id : ℕ} {r : RowKind}
    (h : r.key = (requested fake id).key) : r = requested fake id := by
  by_cases hreq : ∃ id', r = requested fake id'
  · obtain ⟨id',rfl⟩ := hreq
    rw [key_requested,key_requested] at h
    rw [serializeUint64_injective false fake h]
  · obtain ⟨c,t,hr,hc⟩ := head_of_ne fun id' hid => hreq ⟨id',hid⟩
    obtain ⟨d,t',hd,hlead⟩ := head_requested fake id
    rw [key_requested,hr,hd,List.cons.injEq] at h
    exact absurd (h.1 ▸ hlead) hc

theorem eq_rootCounter_of_key {chunkId counter : ℕ} {r : RowKind}
    (h : r.key = rootSegmentKey chunkId counter) :
    ∃ n : Fin 256, r = rootCounter chunkId n ∧ (n : ℕ) = counter := by
  cases r with
  | node id =>
    exact absurd h (rootSegmentKey_ne_serializeKey (IdAllocation.underscore_notMem_padNodeId id) _ _)
  | fakeEdges id =>
    exact absurd h (rootSegmentKey_ne_serializeKey (t := 'f'::padNodeId id)
      (by simp [IdAllocation.underscore_notMem_padNodeId]) _ _)
  | counter id =>
    exact absurd h (rootSegmentKey_ne_serializeKey (t := 'i'::padNodeId id)
      (by simp [IdAllocation.underscore_notMem_padNodeId]) _ _)
  | rootCounter id n =>
    obtain ⟨rfl,hn⟩ := rootSegmentKey_inj h
    exact ⟨n,rfl,hn⟩
  | tableMeta => exact absurd (List.cons.inj h).1 (by decide)
  | tableVersion => exact absurd (List.cons.inj h).1 (by decide)
  | params => exact absurd (List.cons.inj h).1 (by decide)
  | ioperations =>
    exact absurd h (rootSegmentKey_ne_serializeKey (t := "ioperations".toList) (by decide) _ _)

/-- After its first byte the key of a counter has digits only. -/
theorem counterKey_ne_ioperations (chunkId : ℕ) : IdAllocation.counterKey chunkId ≠ OperationLogs.key := by
  intro h
  have htail : padNodeId chunkId = "operations".toList :=
    (List.cons.inj (serializeKey_injective
      (h : serializeKey ('i'::padNodeId chunkId) = serializeKey "ioperations".toList))).2
  exact absurd (isDigit_of_mem_padNodeId (htail ▸ (by decide : 'o' ∈ "operations".toList))) (by decide)

theorem eq_counter_of_key {chunkId : ℕ} {r : RowKind} (h : r.key = (counter chunkId).key) :
    r = counter chunkId := by
  cases r with
  | node id => exact (eq_requested_of_key false h.symm).symm
  | fakeEdges id => exact (eq_requested_of_key true h.symm).symm
  | counter id => rw [serializeUint64_injective true false h]
  | rootCounter id n =>
    obtain ⟨m,hm,_⟩ := eq_rootCounter_of_key h.symm
    cases hm
  | tableMeta | tableVersion | params => exact absurd (List.cons.inj h).1 (by decide)
  | ioperations => exact absurd h.symm (counterKey_ne_ioperations chunkId)

/-- Rows of different kinds, or of different ids, have different keys. -/
theorem key_injective : Function.Injective key := by
  intro r r' h
  cases r' with
  | node id => exact eq_requested_of_key false h
  | fakeEdges id => exact eq_requested_of_key true h
  | counter chunkId => exact eq_counter_of_key h
  | rootCounter chunkId n =>
    obtain ⟨m,rfl,hm⟩ := eq_rootCounter_of_key h
    rw [Fin.ext hm]
  | tableMeta | tableVersion | params | ioperations =>
    cases r with
    | node id => exact (eq_requested_of_key false h.symm).symm
    | fakeEdges id => exact (eq_requested_of_key true h.symm).symm
    | counter chunkId => exact (eq_counter_of_key h.symm).symm
    | rootCounter chunkId n =>
      obtain ⟨m,hm,_⟩ := eq_rootCounter_of_key h.symm
      cases hm
    | tableMeta | tableVersion | params | ioperations =>
      first
      | rfl
      | exact absurd h (by decide)

end RowKind

/-- A batch of ids is serialized like each of them, keys of nodes are read back, and every row of a
table has a key of its own, the rows of root counters for every number of a counter. -/
theorem rowKeys_codec :
    (∀ (nodeIds : List UInt64) (fakeEdges : Bool),
      serializeUint64Batch (nodeIds.map UInt64.toNat) fakeEdges =
        nodeIds.map fun id => serializeUint64 id.toNat false fakeEdges) ∧
    (∀ (id : UInt64) (fakeEdges : Bool),
      deserializeUint64 (serializeUint64 id.toNat false fakeEdges) fakeEdges = .ok id.toNat) ∧
    Function.Injective RowKind.key ∧
    (∀ chunkId chunkId' counter counter' : ℕ,
      rootSegmentKey chunkId counter = rootSegmentKey chunkId' counter' →
        chunkId = chunkId' ∧ counter = counter') ∧
    ∀ (chunkId counter : ℕ) (r : RowKind), r.key = rootSegmentKey chunkId counter →
      ∃ n : Fin 256, r = .rootCounter chunkId n ∧ (n : ℕ) = counter := by
  refine ⟨fun nodeIds fakeEdges => ?_,fun id fakeEdges => ?_,RowKind.key_injective,
    fun _ _ _ _ => rootSegmentKey_inj,fun _ _ _ => RowKind.eq_rootCounter_of_key⟩
  · rw [serializeUint64Batch_eq_map,List.map_map]
    rfl
  · exact deserializeUint64_serializeUint64 id.toNat_lt fakeEdges

end KvdbClient
