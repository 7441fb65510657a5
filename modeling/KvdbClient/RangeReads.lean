import KvdbClient.BigTableReads
import KvdbClient.HBaseReads
import KvdbClient.IdAllocation
import KvdbClient.NodeReads
import KvdbClient.PositionalOrder
import KvdbClient.VastReads

/-! Range reads of nodes: row keys compare like the ids they encode, and rows of another kind lie
outside of every range of ids. -/
namespace KvdbClient

theorem digit_toUInt8 {c d : Char} (hc : c.isDigit = true) (hd : d.isDigit = true) :
    (c.toNat.toUInt8 < d.toNat.toUInt8 ↔ c.toNat - '0'.toNat < d.toNat - '0'.toNat) ∧
      (c.toNat.toUInt8 = d.toNat.toUInt8 ↔ c.toNat - '0'.toNat = d.toNat - '0'.toNat) := by
  have hc' := Char.isDigit_iff_toNat.mp hc
  have hd' := Char.isDigit_iff_toNat.mp hd
  have h0 : '0'.toNat = 48 := rfl
  have h9 : '9'.toNat = 57 := rfl
  have hcn : c.toNat.toUInt8.toNat = c.toNat := by
    rw [Nat.toUInt8,UInt8.toNat_ofNat']
    exact Nat.mod_eq_of_lt (by omega)
  have hdn : d.toNat.toUInt8.toNat = d.toNat := by
    rw [Nat.toUInt8,UInt8.toNat_ofNat']
    exact Nat.mod_eq_of_lt (by omega)
  rw [UInt8.lt_iff_toNat_lt,← UInt8.toNat_inj,hcn,hdn]
  omega

theorem encodeUtf8_padNodeId_lt {m n : ℕ} (hm : m < 2^64) (hn : n < 2^64) :
    encodeUtf8 (padNodeId m) < encodeUtf8 (padNodeId n) ↔ m < n := by
  have hv : ∀ k, ∀ c ∈ padNodeId k, c.toNat - '0'.toNat < 10 := fun k c hc => by
    have := Char.isDigit_iff_toNat.mp (isDigit_of_mem_padNodeId hc)
    have h0 : '0'.toNat = 48 := rfl
    have h9 : '9'.toNat = 57 := rfl
    omega
  have hlen : (padNodeId m).length = (padNodeId n).length := by
    rw [padNodeId_length (hm.trans (by norm_num)),padNodeId_length (hn.trans (by norm_num))]
  have hvalue : ∀ k, PositionalOrder.value 10 (fun c : Char => c.toNat - '0'.toNat) (padNodeId k) 0 = k :=
    fun k => (Nat.ofDigitChars_eq_foldl).symm.trans (ofDigitChars_padNodeId k)
  rw [encodeUtf8_of_ascii fun c hc => toNat_lt_of_mem_padNodeId hc,
    encodeUtf8_of_ascii fun c hc => toNat_lt_of_mem_padNodeId hc,
    PositionalOrder.map_lt_map_iff (hv m) (hv n) (fun c hc d hd =>
      digit_toUInt8 (isDigit_of_mem_padNodeId hc) (isDigit_of_mem_padNodeId hd)) hlen,hvalue,hvalue]

theorem serializeUint64_lt {m n : ℕ} (hm : m < 2^64) (hn : n < 2^64) (fakeEdges : Bool) :
    serializeUint64 m false fakeEdges < serializeUint64 n false fakeEdges ↔ m < n := by
  cases fakeEdges
  · exact encodeUtf8_padNodeId_lt hm hn
  · simp only [serializeUint64_node,if_true,encodeUtf8_cons]
    rw [← encodeUtf8_padNodeId_lt hm hn]
    exact List.cons_lt_cons_iff.trans (by simp)

theorem serializeUint64_le {m n : ℕ} (hm : m < 2^64) (hn : n < 2^64) (fakeEdges : Bool) :
    serializeUint64 m false fakeEdges ≤ serializeUint64 n false fakeEdges ↔ m ≤ n := by
  rw [← List.not_lt,serializeUint64_lt hn hm,not_lt]

inductive RowKind
  | node (id : ℕ)
  | fakeEdges (id : ℕ)
  | counter (chunkId : ℕ)
  | rootCounter (chunkId : ℕ) (n : Fin 256)
  | tableMeta
  | tableVersion
  | params
  | ioperations

namespace RowKind

def key : RowKind → Bytes
  | node id => serializeUint64 id false false
  | fakeEdges id => serializeUint64 id false true
  | counter chunkId => IdAllocation.counterKey chunkId
  | rootCounter chunkId n => IdAllocation.rootCounterKey chunkId n
  | tableMeta => TableMeta.key
  | tableVersion => TableVersion.key
  | params => GraphSettings.key
  | ioperations => OperationLogs.key

def Valid : RowKind → Prop
  | node id | fakeEdges id | counter id | rootCounter id _ => id < 2^64
  | _ => True

/-- The kind of row that is read with and without `fake_edges`. -/
def requested (fake : Bool) (id : ℕ) : RowKind := if fake then fakeEdges id else node id

theorem key_requested (fake : Bool) (id : ℕ) : (requested fake id).key = serializeUint64 id false fake := by
  cases fake <;> rfl

end RowKind

theorem exists_head_padNodeId (n : ℕ) :
    ∃ c t, encodeUtf8 (padNodeId n) = c :: t ∧ c ≤ 57 := by
  rw [encodeUtf8_of_ascii fun c hc => toNat_lt_of_mem_padNodeId hc]
  cases h : padNodeId n with
  | nil => simp [padNodeId,Nat.toDigits_ne_nil] at h
  | cons c t =>
    have hc := Char.isDigit_iff_toNat.mp (isDigit_of_mem_padNodeId (h ▸ List.mem_cons_self))
    have h9 : '9'.toNat = 57 := rfl
    refine ⟨_,_,rfl,UInt8.le_iff_toNat_le.mpr ?_⟩
    rw [Nat.toUInt8,UInt8.toNat_ofNat',Nat.mod_eq_of_lt (by omega)]
    exact (h9 ▸ hc.2 : c.toNat ≤ 57)

/-- A first byte that the keys of the requested kind have, and no others. -/
def Leads (fake : Bool) (c : UInt8) : Prop := if fake then c = 102 else c ≤ 57

instance (fake : Bool) (c : UInt8) : Decidable (Leads fake c) := inferInstanceAs (Decidable (ite _ _ _))

theorem head_requested (fake : Bool) (id : ℕ) :
    ∃ c t, serializeUint64 id false fake = c :: t ∧ Leads fake c := by
  cases fake
  · exact exists_head_padNodeId id
  · exact ⟨_,_,rfl,rfl⟩

theorem head_of_ne {fake : Bool} {r : RowKind} (h : ∀ id, r ≠ RowKind.requested fake id) :
    ∃ c t, r.key = c :: t ∧ ¬ Leads fake c := by
  cases r with
  | node id =>
    cases fake
    · exact absurd rfl (h id)
    · obtain ⟨c,t,hkey,hc⟩ := exists_head_padNodeId id
      refine ⟨c,t,hkey,fun hl => ?_⟩
      rw [show c = 102 from hl] at hc
      exact absurd hc (by decide)
  | fakeEdges id =>
    cases fake
    · exact ⟨102,_,rfl,by decide⟩
    · exact absurd rfl (h id)
  | counter | rootCounter => exact ⟨105,_,rfl,by cases fake <;> decide⟩
  | tableMeta => exact ⟨109,_,rfl,by cases fake <;> decide⟩
  | tableVersion => exact ⟨118,_,rfl,by cases fake <;> decide⟩
  | params => exact ⟨112,_,rfl,by cases fake <;> decide⟩
  | ioperations => exact ⟨105,_,rfl,by cases fake <;> decide⟩

theorem leads_of_inRange {fake inclusive : Bool} {a b c : UInt8} {s e k : Bytes} (ha : Leads fake a)
    (hb : Leads fake b) (h : InRange (a :: s) (b :: e) inclusive (c :: k)) : Leads fake c := by
  have hle : c :: k ≤ b :: e := by
    cases inclusive
    · exact List.le_of_lt h.2
    · exact h.2
  have hac : a ≤ c := by
    rcases List.cons_le_cons_iff.mp h.1 with h | ⟨rfl,_⟩
    · exact UInt8.le_of_lt h
    · exact UInt8.le_refl _
  have hcb : c ≤ b := by
    rcases List.cons_le_cons_iff.mp hle with h | ⟨rfl,_⟩
    · exact UInt8.le_of_lt h
    · exact UInt8.le_refl _
  cases fake
  · exact UInt8.le_trans hcb hb
  · rw [show a = 102 from ha] at hac
    rw [show b = 102 from hb] at hcb
    exact UInt8.le_antisymm hcb hac

def IdInRange (startId endId : ℕ) (inclusive : Bool) (id : ℕ) : Prop :=
  startId ≤ id ∧ if inclusive then id ≤ endId else id < endId

instance (startId endId : ℕ) (inclusive : Bool) (id : ℕ) :
    Decidable (IdInRange startId endId inclusive id) :=
  inferInstanceAs (Decidable (_ ∧ _))

section Range

variable {startId endId : ℕ} (inclusive fake : Bool)

theorem inRange_serializeUint64 (hs : startId < 2^64) (he : endId < 2^64) {id : ℕ} (hid : id < 2^64) :
    InRange (serializeUint64 startId false fake) (serializeUint64 endId false fake) inclusive
      (serializeUint64 id false fake) ↔ IdInRange startId endId inclusive id := by
  rw [InRange,IdInRange,serializeUint64_le hs hid]
  cases inclusive
  · simp [serializeUint64_lt hid he]
  · simp [serializeUint64_le hid he]

/-- A range of ids selects the rows of the requested kind and of the interval, and no others. -/
theorem inRange_key_iff (hs : startId < 2^64) (he : endId < 2^64) {r : RowKind} (hr : r.Valid) :
    InRange (serializeUint64 startId false fake) (serializeUint64 endId false fake) inclusive r.key ↔
      ∃ id, r = RowKind.requested fake id ∧ IdInRange startId endId inclusive id := by
  by_cases h : ∃ id, r = RowKind.requested fake id
  · obtain ⟨id,rfl⟩ := h
    have hid : id < 2^64 := by cases fake <;> exact hr
    rw [RowKind.key_requested,inRange_serializeUint64 inclusive fake hs he hid]
    refine ⟨fun h => ⟨id,rfl,h⟩,?_⟩
    rintro ⟨id',heq,h⟩
    have : id = id' := by
      cases fake
      · exact RowKind.node.inj heq
      · exact RowKind.fakeEdges.inj heq
    rwa [this]
  · obtain ⟨c,k,hk,hc⟩ := head_of_ne fun id hid => h ⟨id,hid⟩
    obtain ⟨a,s,hs',ha⟩ := head_requested fake startId
    obtain ⟨b,e,he',hb⟩ := head_requested fake endId
    rw [hk,hs',he']
    refine ⟨fun hin => absurd (leads_of_inRange ha hb hin) hc,?_⟩
    rintro ⟨id,hid,_⟩
    exact absurd ⟨id,hid⟩ h

end Range

/-- The rows of a table are of these kinds, and its columns have attributes. -/
structure OfKinds {V : Type} (reg : Registry V) (store : List StoredCell) : Prop where
  kind : ∀ c ∈ store, ∃ r : RowKind, r.Valid ∧ c.rowKey = r.key
  registered : ∀ c ∈ store, reg.registered c.column = true

section Reads

variable {V : Type} {reg : Registry V} {store : List StoredCell} {startId endId : ℕ}
  {inclusive fake : Bool} {maxRowKeyCount : ℕ}

theorem selects_ofRange {k : Bytes} :
    ((NodeSelection.ofRange startId endId inclusive).toRows maxRowKeyCount fake).selects k = true ↔
      InRange (serializeUint64 startId false fake) (serializeUint64 endId false fake) inclusive k :=
  decide_eq_true_iff

theorem valid_ofRange : ((NodeSelection.ofRange startId endId inclusive).toRows maxRowKeyCount
    fake).Valid := Or.inr ⟨by simp [NodeSelection.toRows,NodeSelection.ofRange],by simp
      [NodeSelection.toRows,NodeSelection.ofRange]⟩

theorem lt_of_stored (h : OfKinds reg store) {c : StoredCell} (hc : c ∈ store) {id : ℕ}
    (hid : c.rowKey = serializeUint64 id false fake) : id < 2^64 := by
  obtain ⟨r,hr,hkey⟩ := h.kind c hc
  by_cases hreq : ∃ id', r = RowKind.requested fake id'
  · obtain ⟨id',rfl⟩ := hreq
    rw [hid,RowKind.key_requested] at hkey
    rw [serializeUint64_injective false fake hkey]
    cases fake <;> exact hr
  · obtain ⟨b,t,hb,hlead⟩ := head_of_ne fun id' hid' => hreq ⟨id',hid'⟩
    obtain ⟨b',t',hb',hlead'⟩ := head_requested fake id
    rw [hkey,hb,hb',List.cons.injEq] at hid
    exact absurd (hid.1 ▸ hlead') hlead

theorem exists_id_of_selects (h : OfKinds reg store) (hs : startId < 2^64) (he : endId < 2^64)
    {c : StoredCell} (hc : c ∈ store)
    (hsel : ((NodeSelection.ofRange startId endId inclusive).toRows maxRowKeyCount fake).selects
      c.rowKey = true) : ∃ id < 2^64, c.rowKey = serializeUint64 id false fake := by
  obtain ⟨r,hr,hkey⟩ := h.kind c hc
  rw [selects_ofRange,hkey,inRange_key_iff inclusive fake hs he hr] at hsel
  obtain ⟨id,rfl,_⟩ := hsel
  rw [RowKind.key_requested] at hkey
  exact ⟨id,lt_of_stored h hc hkey,hkey⟩

theorem ite_selects {α : Type} (h : OfKinds reg store) (hs : startId < 2^64) (he : endId < 2^64)
    {id : ℕ} {x y : α} (hxy : x ≠ y → ∃ c ∈ store, c.rowKey = serializeUint64 id false fake) :
    (if ((NodeSelection.ofRange startId endId inclusive).toRows maxRowKeyCount fake).selects
        (serializeUint64 id false fake) then x else y) =
      if IdInRange startId endId inclusive id then x else y := by
  by_cases hne : x = y
  · rw [hne,ite_self,ite_self]
  · obtain ⟨c,hc,hid⟩ := hxy hne
    have hiff := inRange_serializeUint64 inclusive fake hs he (lt_of_stored h hc hid)
    simp only [selects_ofRange,hiff]

variable (reg : Registry V) (maxRowKeyCount : ℕ) (store : List StoredCell) {columns : Columns}
  (w : Window) (startId endId : ℕ) (inclusive fake : Bool)

theorem BigTable.readNodes_ofRange (h : OfKinds reg store) (hs : startId < 2^64) (he : endId < 2^64)
    (hcols : columns ≠ .many []) :
    ∃ f d, getTimeRangeAndColumnFilter columns w none = .ok f ∧
      readNodes reg maxRowKeyCount store columns w none (.ofRange startId endId inclusive) fake =
        .ok d ∧
      ∀ id, d.get? id = if IdInRange startId endId inclusive id then
        rowResult reg store columns f (serializeUint64 id false fake) else none := by
  obtain ⟨f,hf⟩ := exists_filter hcols w none
  obtain ⟨d,hd,hget⟩ := readByteRows_spec maxRowKeyCount
    ((NodeSelection.ofRange startId endId inclusive).toRows maxRowKeyCount fake) valid_ofRange
    (fun h => absurd rfl h) hf
    (fun k _ => registered_of_store h.registered k)
  obtain ⟨r,hr,hid⟩ := readNodes_of_get?
    (fun rows => readByteRows reg maxRowKeyCount store rows columns w none) hd hget fun k hsel hne => by
      obtain ⟨c,hc,rfl⟩ := exists_cell_of_rowResult hne
      exact exists_id_of_selects h hs he hc hsel
  exact ⟨f,r,hf,hr,fun id => by rw [hid,ite_selects h hs he exists_cell_of_rowResult]⟩

theorem HBase.readNodes_ofRange (h : OfKinds reg store) (hs : startId < 2^64) (he : endId < 2^64)
    {p : Paging} (hp : p.KeepsRows store) :
    ∃ d, readNodes reg maxRowKeyCount store columns w p none (.ofRange startId endId inclusive) fake =
        .ok d ∧
      ∀ id, d.get? id = if IdInRange startId endId inclusive id then
        rowResult reg store columns w (serializeUint64 id false fake) else none := by
  obtain ⟨d,hd,hget⟩ := readByteRows_spec reg columns w hp
    (namesDecodable_of_registered columns w h.registered) maxRowKeyCount
    ((NodeSelection.ofRange startId endId inclusive).toRows maxRowKeyCount fake) valid_ofRange
    (fun h => absurd rfl h) none
  obtain ⟨r,hr,hid⟩ := readNodes_of_get?
    (fun rows => readByteRows reg p store columns w maxRowKeyCount rows none) hd hget fun k hsel hne => by
      obtain ⟨c,hc,rfl⟩ := exists_cell_of_rowResult hne
      exact exists_id_of_selects h hs he hc hsel
  exact ⟨r,hr,fun id => by rw [hid,ite_selects h hs he exists_cell_of_rowResult]⟩

theorem Vast.readNodes_ofRange (h : OfKinds reg store) (hs : startId < 2^64) (he : endId < 2^64)
    (hcols : columns ≠ .many []) (a : Arrangement) :
    ∃ d, readNodes reg maxRowKeyCount store columns w a none (.ofRange startId endId inclusive) fake =
        .ok d ∧
      ∀ id, ∃ cells, d.get? id = rowResult reg columns cells ∧
        Arrives a cells (if IdInRange startId endId inclusive id then
          rowCells reg store columns w (serializeUint64 id false fake) else []) := by
  obtain ⟨d,hd,hget⟩ := readByteRows_spec reg a store maxRowKeyCount
    ((NodeSelection.ofRange startId endId inclusive).toRows maxRowKeyCount fake) valid_ofRange
    (fun h => absurd rfl h)
    ⟨serializeUint64_isValidUTF8 _ _,serializeUint64_isValidUTF8 _ _⟩ (fun _ h => by cases h) hcols
    (namesDecodable_of_registered h.registered columns w)
  obtain ⟨r,hr,hid⟩ := readNodes_spec
    (fun rows => readByteRows reg a store maxRowKeyCount rows columns w none) hd
    fun k hk => by
      obtain ⟨v,hv⟩ := Dict.mem_keys_iff.mp hk
      obtain ⟨cells,hcells,hk⟩ := hget k
      rw [hk] at hv
      split at hcells
      · rename_i hsel
        obtain ⟨c,hc,rfl⟩ := exists_cell_of_rowResult reg hcells (hv.trans_ne (by simp))
        exact exists_id_of_selects h hs he hc hsel
      · rw [hcells.1.eq_nil] at hv
        cases hv
  refine ⟨r,hr,fun id => ?_⟩
  obtain ⟨cells,hcells,hk⟩ := hget (serializeUint64 id false fake)
  rw [ite_selects h hs he (exists_cell reg)] at hcells
  exact ⟨cells,(hid id).trans hk,hcells⟩

end Reads

/-- A range read returns, under their ids, exactly the rows of the requested kind in the interval. -/
theorem readNodes_range {V : Type} (reg : Registry V) (store : List StoredCell)
    (h : OfKinds reg store) (startId endId : ℕ) (hs : startId < 2^64) (he : endId < 2^64)
    (inclusive fake : Bool) (columns : Columns) (hcols : columns ≠ .many []) (w : Window)
    (maxRowKeyCount : ℕ) :
    (∃ f d, BigTable.getTimeRangeAndColumnFilter columns w none = .ok f ∧
      BigTable.readNodes reg maxRowKeyCount store columns w none
        (.ofRange startId endId inclusive) fake = .ok d ∧
      ∀ id, d.get? id = if IdInRange startId endId inclusive id then
        BigTable.rowResult reg store columns f (RowKind.requested fake id).key else none) ∧
    (∀ p : HBase.Paging, p.KeepsRows store →
      ∃ d, HBase.readNodes reg maxRowKeyCount store columns w p none
        (.ofRange startId endId inclusive) fake = .ok d ∧
      ∀ id, d.get? id = if IdInRange startId endId inclusive id then
        HBase.rowResult reg store columns w (RowKind.requested fake id).key else none) ∧
    ∀ a : Vast.Arrangement,
      ∃ d, Vast.readNodes reg maxRowKeyCount store columns w a none
        (.ofRange startId endId inclusive) fake = .ok d ∧
      ∀ id, ∃ cells, d.get? id = Vast.rowResult reg columns cells ∧
        Vast.Arrives a cells (if IdInRange startId endId inclusive id then
          Vast.rowCells reg store columns w (RowKind.requested fake id).key else []) := by
  simp only [RowKind.key_requested]
  exact ⟨BigTable.readNodes_ofRange reg maxRowKeyCount store w startId endId inclusive fake h hs he
      hcols,
    fun p hp => HBase.readNodes_ofRange reg maxRowKeyCount store w startId endId inclusive fake h hs
      he hp,
    fun a => Vast.readNodes_ofRange reg maxRowKeyCount store w startId endId inclusive fake h hs he
      hcols a⟩

def oneOfEach (id : ℕ) : List StoredCell :=
  [RowKind.node id,.fakeEdges id,.counter id,.rootCounter id ⟨7,by decide⟩,.tableMeta,.tableVersion,.params,
    .ioperations].map fun r => ⟨r.key,Hierarchy.parent,1000,[1]⟩

theorem readNodes_range_oneOfEach :
    OfKinds .parentOnly (oneOfEach 5) ∧
    ∃ d, HBase.readNodes .parentOnly 1000 (oneOfEach 5) .all .unbounded .whole none
      (.ofRange 3 5 true) true = .ok d ∧
    ∀ id, d.get? id = if IdInRange 3 5 true id then HBase.rowResult .parentOnly
      (oneOfEach 5) .all .unbounded (RowKind.requested true id).key else none := by
  have h : OfKinds .parentOnly (oneOfEach 5) := by
    refine ⟨fun c hc => ?_,fun c hc => ?_⟩
    · obtain ⟨r,hr,rfl⟩ := List.mem_map.mp hc
      refine ⟨r,?_,rfl⟩
      fin_cases hr <;> simp [RowKind.Valid]
    · obtain ⟨r,-,rfl⟩ := List.mem_map.mp hc
      exact decide_eq_true (List.mem_singleton_self Hierarchy.parent)
  exact ⟨h,(readNodes_range _ _ h 3 5 (by norm_num) (by norm_num) true true .all (by simp) .unbounded
    1000).2.1 .whole (HBase.Paging.whole_keepsRows _)⟩

end KvdbClient
