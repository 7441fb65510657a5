import KvdbClient.HBasePaging
import KvdbClient.RootExtension
import KvdbClient.TimeWindows
import KvdbClient.VastRefinement

/-! What the reads of one attribute of nodes show: of a node alone and among others the same cells. -/
namespace KvdbClient

/-- What is returned of a row with these cells of the attribute that is asked for. -/
def rowOf {V : Type} (l : List (Cell V)) : Option (RowData V) :=
  if l = [] then none else some (.cells l)

theorem getD_rowOf {V : Type} (l : List (Cell V)) : (rowOf l).getD (.cells []) = .cells l := by
  rw [rowOf]
  split
  · rename_i h
    rw [h]
    rfl
  · rfl

/-- The times that HBase admits, and Bigtable when it gets the end as a bound. -/
def Window.Admits (w : Window) (t : ℤ) : Prop :=
  (∀ s ∈ w.startTime, floorMs s ≤ t) ∧ ∀ e ∈ w.endTime, t < w.upper e

instance (w : Window) (t : ℤ) : Decidable (w.Admits t) :=
  inferInstanceAs (Decidable ((∀ s ∈ _, _) ∧ ∀ e ∈ _, _))

theorem Window.passes_of_admits {w : Window} {t : ℤ} (h : w.Admits t) : w.Passes t :=
  ⟨h.1,fun e he => Or.inr (h.2 e he)⟩

theorem Window.admits_of_passes {w : Window} (hw : w.EndSet) {t : ℤ} (h : w.Passes t) : w.Admits t :=
  ⟨h.1,fun e he => (h.2 e he).resolve_left (hw e he)⟩

section Rows

variable {V : Type} (reg : Registry V) (store : List StoredCell) (c : Column) (w : Window) (k : Bytes)

def BigTable.versions : List (KvdbClient.Cell V) :=
  (store.filter fun x => x.rowKey = k ∧ x.column = c ∧ w.Passes x.timestamp).map fun x =>
    ⟨reg.deserialize c x.value,x.timestamp⟩

def HBase.versions : List (Cell V) :=
  (store.filter fun x => x.rowKey = k ∧ x.column = c ∧ w.Admits (1000*x.timestamp)).map fun x =>
    ⟨reg.deserialize c x.value,1000*x.timestamp⟩

/-- On VAST the client sorts them. -/
def Vast.versions : List (Cell V) :=
  (sortByTime ((versionsIn k c store).filter (timePredicate w))).map fun x =>
    ⟨reg.deserialize c x.value,x.timestamp⟩

namespace BigTable

theorem getTimeRangeAndColumnFilter_one :
    getTimeRangeAndColumnFilter (.one c) w none =
      .ok (.chain (exactColumnFilter c) (getTimeRangeFilter w)) := rfl

theorem apply_one :
    (RowFilter.chain (exactColumnFilter c) (getTimeRangeFilter w)).apply (rowCells store k) =
      (store.filter fun x => x.rowKey = k ∧ x.column = c ∧ w.Passes x.timestamp).map ofStored := by
  have hcolumn : ∀ x : StoredCell, (x.column.familyId = c.familyId ∧ c.key ≤ x.column.key ∧
      x.column.key ≤ c.key) ↔ x.column = c := fun x => by
    rw [between_self_iff]
    obtain ⟨f,q⟩ := c
    cases hx : x.column
    simp only [Column.mk.injEq]
  rw [apply_chain,exactColumnFilter,apply_getTimeRangeFilter,RowFilter.apply,rowCells,
    List.filter_map,List.filter_map,List.filter_filter,List.filter_filter]
  refine congrArg (List.map ofStored) (List.filter_congr fun x _ => Bool.eq_iff_iff.mpr ?_)
  simp only [Function.comp_apply,ofStored,Bool.and_eq_true,decide_eq_true_eq,hcolumn]
  grind

theorem rowResult_one :
    rowResult reg store (.one c) (.chain (exactColumnFilter c) (getTimeRangeFilter w)) k =
      rowOf (versions reg store c w k) := by
  have hall : ((store.filter fun x => x.rowKey = k ∧ x.column = c ∧ w.Passes x.timestamp).map
      ofStored).filter (fun x => x.column = c) =
        (store.filter fun x => x.rowKey = k ∧ x.column = c ∧ w.Passes x.timestamp).map ofStored := by
    refine List.filter_eq_self.mpr fun x hx => ?_
    obtain ⟨y,hy,rfl⟩ := List.mem_map.mp hx
    exact decide_eq_true (of_decide_eq_true (List.mem_filter.mp hy).2).2.1
  rw [rowResult,apply_one]
  simp only [rowOf,versions,List.map_eq_nil_iff]
  split
  · rfl
  · rename_i hne
    refine congrArg some ?_
    rw [rowData,deserializeColumnDict,Dict.get?_mapValues,rowToColumnDict,Dict.get?_mapValues,
      Dict.get?_group,hall,if_neg (by simpa using hne)]
    simp [ofStored]

theorem registered_one (hc : reg.registered c = true) :
    Registered reg store (.chain (exactColumnFilter c) (getTimeRangeFilter w)) k := fun x hx => by
  rw [apply_one] at hx
  obtain ⟨y,hy,rfl⟩ := List.mem_map.mp hx
  have hcolumn := (of_decide_eq_true (List.mem_filter.mp hy).2).2.1
  rw [ofStored,hcolumn]
  exact hc

end BigTable

namespace HBase

theorem rowCells_one :
    rowCells store (.one c) w k =
      store.filter fun x => x.rowKey = k ∧ x.column = c ∧ w.Admits (1000*x.timestamp) := by
  refine List.filter_congr fun x _ => Bool.eq_iff_iff.mpr ?_
  simp [admits_iff,Columns.toList,Window.Admits]

theorem rowResult_one (hc : reg.registered c = true) :
    rowResult reg store (.one c) w k = rowOf (versions reg store c w k) := by
  have hcolumn : ∀ x ∈ rowCells store (.one c) w k, x.column = c := fun x hx => by
    rw [rowCells_one] at hx
    exact (of_decide_eq_true (List.mem_filter.mp hx).2).2.1
  have hknown : known reg (rowCells store (.one c) w k) = rowCells store (.one c) w k :=
    known_of_column hc hcolumn
  have hversions : versions reg store c w k = (rowCells store (.one c) w k).map fun x =>
      deserializeCell reg c (parseCell x) := by
    rw [versions,rowCells_one]
    refine List.map_congr_left fun x _ => ?_
    rw [deserializeCell,parseCell,hbaseTsToDatetime,mul_comm]
  simp only [rowResult,rowOf,hversions,List.map_eq_nil_iff]
  split
  · rfl
  · rename_i hne
    have hview := view_parseRow_single reg hcolumn
    rw [hknown,if_neg hne] at hview
    have hparse : parseRow reg (singleColumn (.one c)) (rowCells store (.one c) w k) =
        .cells ((rowCells store (.one c) w k).map parseCell) := RowData.eq_cells_of_view hview
    rw [hparse,deserializeRow,List.map_map]
    rfl

end HBase

/-- Sorting leaves no trace of the order in which cells with distinct times arrived. -/
theorem Vast.sortByTime_eq {l m : List StoredCell} (h : l.Perm m)
    (hnodup : m.Pairwise fun x y => x.timestamp ≠ y.timestamp) : sortByTime l = sortByTime m := by
  have hperm : (sortByTime l).Perm (sortByTime m) :=
    (List.perm_insertionSort _ l).trans (h.trans (List.perm_insertionSort _ m).symm)
  have hne : ∀ x ∈ m, ∀ y ∈ m, x.timestamp = y.timestamp → x = y := fun x hx y hy ht => by
    by_contra hxy
    have : Std.Symm fun x y : StoredCell => x.timestamp ≠ y.timestamp := ⟨fun _ _ h => h.symm⟩
    exact hnodup.forall hx hy hxy ht
  have hmem : ∀ x, x ∈ sortByTime l → x ∈ m := fun x hx =>
    h.mem_iff.mp ((List.mem_insertionSort _).mp hx)
  have : Std.Total fun a b : StoredCell => b.timestamp ≤ a.timestamp := ⟨fun _ _ => le_total _ _⟩
  have : IsTrans StoredCell fun a b => b.timestamp ≤ a.timestamp :=
    ⟨fun _ _ _ hab hbc => le_trans hbc hab⟩
  refine hperm.eq_of_pairwise (fun x y hx hy hxy hyx => ?_) (List.pairwise_insertionSort _ l)
    (List.pairwise_insertionSort _ m)
  exact hne x (hmem x hx) y ((List.mem_insertionSort _).mp hy) (le_antisymm hyx hxy)

end Rows

theorem readNodes_ofIds {α : Type} (readByteRows : RowSelection → Except ReadError (Dict Bytes α))
    {maxRowKeyCount : ℕ} {ids : List ℕ} (hids : ∀ id ∈ ids, id < 2^64) {d : Dict Bytes α}
    (hd : readByteRows ((NodeSelection.ofIds ids).toRows maxRowKeyCount false) = .ok d)
    {g : Bytes → Option α} (hget : ∀ k, d.get? k =
      if ((NodeSelection.ofIds ids).toRows maxRowKeyCount false).selects k then g k else none) :
    ∃ r, readNodes readByteRows maxRowKeyCount (.ofIds ids) false = .ok r ∧
      ∀ id, r.get? id = if id ∈ ids then g (serializeUint64 id false false) else none := by
  obtain ⟨r,hr,hid⟩ := readNodes_of_get? readByteRows hd hget fun k hsel _ => by
    obtain ⟨id,hid,rfl⟩ := selects_ofIds.mp hsel
    exact ⟨id,hids id hid,rfl⟩
  refine ⟨r,hr,fun id => ?_⟩
  rw [hid]
  simp only [selects_ofIds_iff]

theorem valid_ofIds {maxRowKeyCount : ℕ} {ids : List ℕ} :
    ((NodeSelection.ofIds ids).toRows maxRowKeyCount false).Valid :=
  NodeSelection.Valid.toRows (Or.inl (by simp [NodeSelection.ofIds])) _ _

section Clients

variable {V : Type} {reg : Registry V} {c : Column} (hc : reg.registered c = true)
  {maxRowKeyCount : ℕ} (hmax : 0 < maxRowKeyCount) (store : List StoredCell) (w : Window)
include hc

namespace BigTable

theorem readNode_one (id : ℕ) :
    readNode reg store (.one c) w id false =
      .ok (.cells (versions reg store c w (serializeUint64 id false false))) := by
  rw [readNode,KvdbClient.readNode,readByteRow_spec (getTimeRangeAndColumnFilter_one c w)
    (registered_one reg store c w _ hc),rowResult_one]
  exact congrArg Except.ok (getD_rowOf _)

include hmax in
theorem readNodes_one {ids : List ℕ} (hids : ∀ id ∈ ids, id < 2^64) :
    ∃ d, readNodes reg maxRowKeyCount store (.one c) w none (.ofIds ids) false = .ok d ∧
      ∀ id, d.get? id =
        if id ∈ ids then rowOf (versions reg store c w (serializeUint64 id false false))
        else none := by
  obtain ⟨d,hd,hget⟩ := readByteRows_spec maxRowKeyCount
    ((NodeSelection.ofIds ids).toRows maxRowKeyCount false) valid_ofIds (fun _ => hmax)
    (getTimeRangeAndColumnFilter_one c w) fun k _ => registered_one reg store c w k hc
  simp only [rowResult_one] at hget
  exact readNodes_ofIds (fun rows => readByteRows reg maxRowKeyCount store rows (.one c) w none) hids
    hd hget

end BigTable

namespace HBase

variable {p : Paging} (hp : p.KeepsRows store)
include hp hmax

theorem readNode_one (id : ℕ) :
    readNode reg maxRowKeyCount store (.one c) w p id false =
      .ok (.cells (versions reg store c w (serializeUint64 id false false))) := by
  rw [readNode,KvdbClient.readNode,readByteRow_ok reg (.one c) w hp
    (namesDecodable_one w hc) hmax,rowResult_one reg store c w _ hc]
  exact congrArg Except.ok (getD_rowOf _)

theorem readNodes_one {ids : List ℕ} (hids : ∀ id ∈ ids, id < 2^64) :
    ∃ d, readNodes reg maxRowKeyCount store (.one c) w p none (.ofIds ids) false = .ok d ∧
      ∀ id, d.get? id =
        if id ∈ ids then rowOf (versions reg store c w (serializeUint64 id false false))
        else none := by
  obtain ⟨d,hd,hget⟩ := readByteRows_spec reg (.one c) w hp (namesDecodable_one w hc) maxRowKeyCount
    ((NodeSelection.ofIds ids).toRows maxRowKeyCount false) valid_ofIds (fun _ => hmax) none
  simp only [rowResult_one reg store c w _ hc] at hget
  exact readNodes_ofIds (fun rows => readByteRows reg p store (.one c) w maxRowKeyCount rows none)
    hids hd hget

end HBase

namespace Vast

/-- The service keeps the order of the table, or no version was written twice. -/
def Determined (a : Arrangement) (table : List StoredCell) : Prop :=
  a = .storage ∨ Distinct table

variable {a : Arrangement} (ha : Determined a store)
include ha

omit hc in
theorem sortByTime_of_arrives {k : Bytes} {l : List StoredCell}
    (hl : Arrives a l ((versionsIn k c store).filter (timePredicate w))) :
    sortByTime l = sortByTime ((versionsIn k c store).filter (timePredicate w)) := by
  rcases ha with ha | ha
  · rw [hl.2 ha]
  · refine sortByTime_eq hl.1 ?_
    have hne : (versionsIn k c store).Pairwise fun x y => versionOf x ≠ versionOf y :=
      (List.pairwise_map.mp ha).sublist List.filter_sublist
    refine (hne.sublist List.filter_sublist).imp_of_mem fun {x y} hx hy hxy ht => hxy ?_
    obtain ⟨_,hxk,hxc⟩ := mem_versionsIn.mp (List.mem_filter.mp hx).1
    obtain ⟨_,hyk,hyc⟩ := mem_versionsIn.mp (List.mem_filter.mp hy).1
    simp only [versionOf,Version.mk.injEq]
    exact ⟨hxk.trans hyk.symm,hxc.trans hyc.symm,ht⟩

theorem rowResult_versions {k : Bytes} {l : List StoredCell}
    (hl : Arrives a l (rowCells reg store (.one c) w k)) :
    rowResult reg (.one c) l = rowOf (versions reg store c w k) := by
  rw [rowCells_one reg store hc] at hl
  have hsort := sortByTime_of_arrives store w ha hl
  rw [rowResult_one reg fun x hx =>
    (mem_versionsIn.mp (List.mem_filter.mp (hl.1.mem_iff.mp hx)).1).2]
  simp only [rowOf,versions,← hsort,List.map_eq_nil_iff,sortByTime_eq_nil]

include hmax

theorem readNode_one (id : ℕ) :
    readNode reg maxRowKeyCount store (.one c) w a id false =
      .ok (.cells (versions reg store c w (serializeUint64 id false false))) := by
  obtain ⟨l,hl,hread⟩ := readByteRow_spec reg a store hmax (serializeUint64_isValidUTF8 id false)
    (show Columns.one c ≠ .many [] by simp) fun x hx _ => namesDecodable_one hc w x hx
  rw [rowResult_versions hc store w ha hl] at hread
  exact hread.trans (congrArg Except.ok (getD_rowOf _))

theorem readNodes_one {ids : List ℕ} (hids : ∀ id ∈ ids, id < 2^64) (hnodup : ids.Nodup) :
    ∃ d, readNodes reg maxRowKeyCount store (.one c) w a none (.ofIds ids) false = .ok d ∧
      ∀ id, d.get? id =
        if id ∈ ids then rowOf (versions reg store c w (serializeUint64 id false false))
        else none := by
  have hkeys : ∀ ks ∈ ((NodeSelection.ofIds ids).toRows maxRowKeyCount false).rowKeys, ks.Nodup := by
    rintro _ ⟨⟩
    refine List.Nodup.map (serializeUint64_injective false false) ?_
    unfold NodeSelection.sortIds
    split
    · exact (List.perm_insertionSort _ ids).nodup_iff.mpr hnodup
    · exact hnodup
  obtain ⟨d,hd,hget⟩ := readByteRows_spec reg a store maxRowKeyCount
    ((NodeSelection.ofIds ids).toRows maxRowKeyCount false) valid_ofIds (fun _ => hmax)
    (NodeSelection.encodable_toRows _ _ _) hkeys (show Columns.one c ≠ .many [] by simp)
    (namesDecodable_one hc w)
  refine readNodes_ofIds (fun rows => readByteRows reg a store maxRowKeyCount rows (.one c) w none)
    hids hd (g := fun k => rowOf (versions reg store c w k)) fun k => ?_
  obtain ⟨l,hl,hrow⟩ := hget k
  rw [hrow]
  split at hl
  · rename_i hsel
    rw [if_pos hsel,rowResult_versions hc store w ha hl]
  · rename_i hsel
    rw [if_neg hsel,hl.1.eq_nil,rowResult,if_pos rfl]

end Vast

end Clients

/-- The reads of an attribute show of every node these cells, alone and among others. -/
structure Client.Shows {V : Type} (client : Client V) (c : Column) (w : Window)
    (versions : ℕ → List (Cell V)) : Prop where
  readNode : ∀ id, client.readNode id (.one c) w = .ok (.cells (versions id))
  readNodes : ∀ ids : List ℕ, ids.Nodup → (∀ id ∈ ids, id < 2^64) →
    ∃ d, client.readNodes ids (.one c) w = .ok d ∧
      ∀ id ∈ ids, d.get? id = rowOf (versions id)

/-- On HBase responses keep rows whole; on VAST no two orders of a row's cells can be told apart. -/
def Service.Consistent (store : List StoredCell) : Service → Prop
  | .bigTable => True
  | .hbase p => p.KeepsRows store
  | .vast a => Vast.Determined a store

def Service.versions {V : Type} (reg : Registry V) (store : List StoredCell) (c : Column) (w : Window)
    (b : Service) (id : ℕ) : List (Cell V) :=
  match b with
  | .bigTable => BigTable.versions reg store c w (serializeUint64 id false false)
  | .hbase _ => HBase.versions reg store c w (serializeUint64 id false false)
  | .vast _ => Vast.versions reg store c w (serializeUint64 id false false)

theorem Service.mem_versions {V : Type} {reg : Registry V} {store : List StoredCell} {c : Column}
    {w : Window} {b : Service} {id : ℕ} {y : Cell V} (h : y ∈ b.versions reg store c w id) :
    ∃ x ∈ store, x.rowKey = serializeUint64 id false false ∧ x.column = c ∧
      y.value = reg.deserialize c x.value := by
  cases b with
  | bigTable | hbase p =>
    obtain ⟨x,hx,rfl⟩ := List.mem_map.mp h
    have hx' := of_decide_eq_true (List.mem_filter.mp hx).2
    exact ⟨x,(List.mem_filter.mp hx).1,hx'.1,hx'.2.1,rfl⟩
  | vast a =>
    obtain ⟨x,hx,rfl⟩ := List.mem_map.mp h
    obtain ⟨hx,hk,hcol⟩ :=
      Vast.mem_versionsIn.mp (List.mem_filter.mp ((List.mem_insertionSort _).mp hx)).1
    exact ⟨x,hx,hk,hcol,rfl⟩

theorem Service.shows {V : Type} {reg : Registry V} {maxRowKeyCount : ℕ} (hmax : 0 < maxRowKeyCount)
    (tableMeta : Option V) {store : List StoredCell} {b : Service} (hb : b.Consistent store)
    {c : Column} (hc : reg.registered c = true) (w : Window) :
    (b.client reg maxRowKeyCount tableMeta store).Shows c w (b.versions reg store c w) := by
  cases b with
  | bigTable =>
    refine ⟨BigTable.readNode_one hc store w,fun ids _ hids => ?_⟩
    obtain ⟨d,hd,hget⟩ := BigTable.readNodes_one hc hmax store w hids
    exact ⟨d,hd,fun id hid => (hget id).trans (if_pos hid)⟩
  | hbase p =>
    refine ⟨HBase.readNode_one hc hmax store w hb,fun ids _ hids => ?_⟩
    obtain ⟨d,hd,hget⟩ := HBase.readNodes_one hc hmax store w hb hids
    exact ⟨d,hd,fun id hid => (hget id).trans (if_pos hid)⟩
  | vast a =>
    refine ⟨Vast.readNode_one hc hmax store w hb,fun ids hnodup hids => ?_⟩
    obtain ⟨d,hd,hget⟩ := Vast.readNodes_one hc hmax store w hb hids hnodup
    exact ⟨d,hd,fun id hid => (hget id).trans (if_pos hid)⟩

end KvdbClient
