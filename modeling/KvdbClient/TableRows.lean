import KvdbClient.HBasePaging
import KvdbClient.RootExtension

/-! The rows of a table with its version and its meta, as a client reads them on the three
services. -/
namespace KvdbClient

/-- `read_table_version`, whose `except` also sees the `KeyError` of the read. -/
def readTableVersion {V : Type} (client : Client V) : Except RootError (Option V) := do
  match client.readByteRow TableVersion.key .all .unbounded with
  | .error (.unknownKey _) => return none
  | .error e => throw (.read e)
  | .ok (.cells _) => return none
  | .ok (.columns d) =>
    match d.get? TableVersion.version with
    | none => return none
    | some l => return some (← (RowData.cells l).firstValue)

def rowOfTable (store : List StoredCell) (k : Bytes) : List StoredCell :=
  store.filter fun x => x.rowKey = k

/-- The row has no columns without an attribute on BigTable, comes in one response with decodable names
on HBase, and has no cells to be sorted on VAST. -/
def Service.Plain {V : Type} (reg : Registry V) (store : List StoredCell) (k : Bytes) : Service → Prop
  | .bigTable => ∀ x ∈ rowOfTable store k, reg.registered x.column = true
  | .hbase p => p.KeepsRows store ∧ ∀ x ∈ rowOfTable store k, x.column.Decodable
  | .vast _ => (rowOfTable store k).length ≤ 1 ∧ ∀ x ∈ rowOfTable store k, x.column.Decodable

section Rows

variable {V : Type} {reg : Registry V} {store : List StoredCell} {k : Bytes} {c : Column}

/-- The values a read returns of a column, if it has any. -/
def valuesOf (reg : Registry V) (c : Column) (cells : List StoredCell) : Option (List V) :=
  if cells.filter (fun x => x.column = c) = [] then none
  else some ((cells.filter fun x => x.column = c).map fun x => reg.deserialize c x.value)

theorem BigTable.readByteRow_all (h : ∀ x ∈ rowOfTable store k, reg.registered x.column = true) :
    ∃ d, readByteRow reg store k .all .unbounded = .ok (.columns d) ∧
      ∀ c, (d.get? c).map (List.map KvdbClient.Cell.value) = valuesOf reg c (rowOfTable store k) := by
  have hall : (getTimeRangeFilter .unbounded).apply (rowCells store k) = rowCells store k := by
    simp [getTimeRangeFilter,RowFilter.apply,Window.unbounded]
  have hreg : Registered reg store (getTimeRangeFilter .unbounded) k := fun x hx => by
    rw [hall] at hx
    obtain ⟨y,hy,rfl⟩ := List.mem_map.mp hx
    exact h y hy
  have hcells : rowCells store k = (rowOfTable store k).map ofStored := rfl
  rw [readByteRow_spec rfl hreg,rowResult,hall,hcells]
  by_cases hnil : rowOfTable store k = []
  · exact ⟨_,by rw [hnil]; rfl,fun c => by
      simp [hnil,valuesOf,deserializeColumnDict,Dict.get?_mapValues]⟩
  · rw [if_neg (by simpa using hnil)]
    refine ⟨_,rfl,fun c => ?_⟩
    have hfilter : ((rowOfTable store k).map ofStored).filter (fun x => x.column = c) =
        ((rowOfTable store k).filter fun x => x.column = c).map ofStored := by
      rw [List.filter_map]
      rfl
    rw [deserializeColumnDict,Dict.get?_mapValues,rowToColumnDict,Dict.get?_mapValues,Dict.get?_group,
      hfilter,valuesOf]
    by_cases hc : (rowOfTable store k).filter (fun x => x.column = c) = []
    · rw [hc]
      rfl
    · rw [if_neg hc,if_neg (by simpa using hc)]
      simp only [Option.map_some,List.map_map]
      rfl

theorem HBase.rowCells_all : rowCells store .all .unbounded k = rowOfTable store k := by
  refine List.filter_congr fun x _ => ?_
  simp [ScannerSpec.Admits,scannerSpec,Columns.toList,Window.unbounded]

variable (reg k) in
theorem HBase.readByteRow_all {p : Paging} (hp : p.KeepsRows store) {maxRowKeyCount : ℕ}
    (hmax : 0 < maxRowKeyCount) :
    ∃ d, readByteRow reg p store .all .unbounded maxRowKeyCount k =
        ((decodeNames (rowOfTable store k)).map fun _ => .columns d) ∧
      ∀ c, reg.registered c = true →
        (d.get? c).map (List.map Cell.value) = valuesOf reg c (rowOfTable store k) := by
  rw [readByteRow_spec reg .all .unbounded hp hmax,rowResult,rowCells_all]
  by_cases hnil : rowOfTable store k = []
  · exact ⟨_,by rw [if_pos hnil]; rfl,fun c _ => by simp [hnil,valuesOf]⟩
  · obtain ⟨d,hrow,hview⟩ := RowData.exists_of_view_inl
      (view_parseRow_columns reg (rowOfTable store k))
    rw [if_neg hnil,show singleColumn .all = false from rfl,hrow]
    refine ⟨_,rfl,fun c hc => ?_⟩
    have hget := congrFun hview c
    rw [filter_known hc] at hget
    rw [Dict.get?_mapValues,hget,valuesOf]
    split
    · rfl
    · simp [deserializeCell,parseCell]

theorem Vast.rowCells_all :
    rowCells reg store .all .unbounded k = HBase.known reg (rowOfTable store k) := by
  rw [rowCells,HBase.known,rowOfTable,List.filter_filter]
  refine List.filter_congr fun x _ => Bool.eq_iff_iff.mpr ?_
  simp only [Columns.Requests,Columns.toList,timePredicate_unbounded,decide_eq_true_eq,
    Bool.and_eq_true]
  simp [and_comm]

theorem Vast.sortRows_of_perm {l cells : List StoredCell} (h : l.Perm cells)
    (hshort : cells.length ≤ 1) : sortRows l = cells := by
  have hperm : (sortRows l).Perm cells := (List.perm_insertionSort _ l).trans h
  match cells, hshort with
  | [], _ => exact hperm.eq_nil
  | [x], _ => exact List.perm_singleton.mp hperm

theorem Vast.readByteRow_all {a : Arrangement} (h : (rowOfTable store k).length ≤ 1)
    (hnames : ∀ x ∈ rowOfTable store k, x.column.Decodable) (hk : k.toByteArray.IsValidUTF8)
    {maxRowKeyCount : ℕ} (hmax : 0 < maxRowKeyCount) :
    ∃ d, readByteRow reg a store maxRowKeyCount k .all .unbounded = .ok (.columns d) ∧
      ∀ c, reg.registered c = true →
        (d.get? c).map (List.map Cell.value) = valuesOf reg c (rowOfTable store k) := by
  obtain ⟨l,hl,hread⟩ := readByteRow_spec reg a store hmax hk (show Columns.all ≠ .many [] by simp)
    fun x hx hrow _ (_ : timePredicate .unbounded x = true) =>
      hnames x (List.mem_filter.mpr ⟨hx,decide_eq_true hrow⟩)
  have hsorted : sortRows l = HBase.known reg (rowOfTable store k) :=
    sortRows_of_perm (rowCells_all ▸ hl.1) ((List.length_filter_le _ _).trans h)
  have hdata : (rowResult reg .all l).getD (rowData reg .all []) =
      .columns (columnDict reg (HBase.known reg (rowOfTable store k))) := by
    rw [rowResult]
    split
    · rename_i hnil
      rw [← hsorted,hnil]
      rfl
    · rw [hsorted]
      rfl
  refine ⟨_,hread.trans (congrArg Except.ok hdata),fun c hc => ?_⟩
  rw [columnDict,Dict.get?_mapValues,Dict.get?_group,HBase.filter_known hc,valuesOf]
  split
  · rfl
  · simp only [Option.map_some,List.map_map,Function.comp_def]

/-- A row that is read without restrictions has its stored values. -/
theorem Service.readByteRow_all {b : Service} (hb : b.Plain reg store k)
    (hk : k.toByteArray.IsValidUTF8) {maxRowKeyCount : ℕ} (hmax : 0 < maxRowKeyCount)
    (tableMeta : Option V) :
    ∃ d, (b.client reg maxRowKeyCount tableMeta store).readByteRow k .all .unbounded =
        .ok (.columns d) ∧
      ∀ c, reg.registered c = true →
        (d.get? c).map (List.map Cell.value) = valuesOf reg c (rowOfTable store k) := by
  cases b with
  | bigTable =>
    obtain ⟨d,hd,hget⟩ := BigTable.readByteRow_all hb
    exact ⟨d,hd,fun c _ => hget c⟩
  | hbase p =>
    obtain ⟨d,hd,hget⟩ := HBase.readByteRow_all reg k hb.1 hmax
    exact ⟨d,by rw [decodeNames_of_decodable hb.2] at hd; exact hd,hget⟩
  | vast a => exact Vast.readByteRow_all hb.1 hb.2 hk hmax

def newestOf (reg : Registry V) (c : Column) (cells : List StoredCell) : Option V :=
  (cells.find? fun x => x.column = c).map fun x => reg.deserialize c x.value

theorem newestOf_eq (reg : Registry V) (c : Column) (cells : List StoredCell) :
    newestOf reg c cells = (valuesOf reg c cells).bind List.head? := by
  rw [newestOf,valuesOf,← List.head?_filter]
  cases cells.filter fun x => x.column = c <;> rfl

theorem firstValue_of_values {l : List (Cell V)} {cells : List StoredCell}
    (h : some (l.map Cell.value) = valuesOf reg c cells) :
    ∃ v, (RowData.cells l).firstValue = .ok v ∧ newestOf reg c cells = some v := by
  cases l with
  | nil =>
    rw [valuesOf] at h
    split at h
    · cases h
    · rename_i hne
      exact absurd (List.map_eq_nil_iff.mp (Option.some.inj h).symm) hne
  | cons x l =>
    refine ⟨x.value,rfl,?_⟩
    rw [newestOf_eq,← h]
    rfl

theorem readTableMeta_eq {b : Service} (hb : b.Plain reg store TableMeta.key) {maxRowKeyCount : ℕ}
    (hmax : 0 < maxRowKeyCount) (hreg : reg.registered TableMeta.metaColumn = true)
    (tableMeta : Option V) :
    RootExtension.readTableMeta
        (RootExtension.init (b.client reg maxRowKeyCount tableMeta store)) =
      .ok (newestOf reg TableMeta.metaColumn (rowOfTable store TableMeta.key)) := by
  obtain ⟨d,hd,hget⟩ := Service.readByteRow_all hb (isValidUTF8_encodeUtf8 _) hmax tableMeta
  have hvalues := hget _ hreg
  simp only [RootExtension.readTableMeta,RootExtension.init,hd,liftRead]
  cases hl : d.get? TableMeta.metaColumn with
  | none =>
    rw [hl] at hvalues
    rw [newestOf_eq,← hvalues]
    simp [hl,bind,Except.bind,pure,Except.pure]
  | some l =>
    rw [hl] at hvalues
    obtain ⟨v,hv,hnewest⟩ := firstValue_of_values hvalues
    simp [hl,hv,hnewest,bind,Except.bind,pure,Except.pure]

theorem readTableVersion_eq {b : Service} (hb : b.Plain reg store TableVersion.key)
    {maxRowKeyCount : ℕ} (hmax : 0 < maxRowKeyCount)
    (hreg : reg.registered TableVersion.version = true) (tableMeta : Option V) :
    readTableVersion (b.client reg maxRowKeyCount tableMeta store) =
      .ok (newestOf reg TableVersion.version (rowOfTable store TableVersion.key)) := by
  obtain ⟨d,hd,hget⟩ := Service.readByteRow_all hb (isValidUTF8_encodeUtf8 _) hmax tableMeta
  have hvalues := hget _ hreg
  simp only [readTableVersion,hd]
  cases hl : d.get? TableVersion.version with
  | none =>
    rw [hl] at hvalues
    rw [newestOf_eq,← hvalues]
    rfl
  | some l =>
    rw [hl] at hvalues
    obtain ⟨v,hv,hnewest⟩ := firstValue_of_values hvalues
    simp [hv,hnewest,bind,Except.bind,pure,Except.pure]

end Rows

end KvdbClient
