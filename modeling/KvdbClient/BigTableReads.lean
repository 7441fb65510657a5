import KvdbClient.BigTableRows
import KvdbClient.StoredCells

/-! Reads of the BigTable client: `bigtable/utils.py` and `bigtable/client.py`. -/
namespace KvdbClient
namespace BigTable

/-- `RowFilterUnion`. -/
def unionOf : List RowFilter → RowFilter
  | [] => .blockAll
  | [f] => f
  | f :: fs => .union f (unionOf fs)

/-- `_get_column_filter`: the filter of one attribute, or the union of several. -/
def getColumnFilter (columns : List Column) : RowFilter := unionOf (columns.map exactColumnFilter)

/-- `_get_user_filter`: the whole input, if it has a `user` cell with the value. -/
def getUserFilter (userId : Text) : RowFilter :=
  .conditional
    (.chain (.columnQualifierRegex OperationLogs.userId.key)
      (.chain (exactValueFilter (encodeUtf8 userId)) (.cellsRowLimit 1)))
    .passAll .blockAll

def getTimeRangeFilter (w : Window) : RowFilter :=
  .timestampRange (w.startTime.map fun t => getCompatibleTimeStamp t false)
    (w.endTime.map fun t => getCompatibleTimeStamp t w.endTimeInclusive)

/-- The column filter, if there is one, comes before the time filter, the user filter after it. -/
def getTimeRangeAndColumnFilter (columns : Columns) (w : Window) (userId : Option Text) :
    Except ReadError RowFilter :=
  let withUser f := match userId with
    | none => f
    | some u => .chain f (getUserFilter u)
  match columns.toList with
  | none => .ok (withUser (getTimeRangeFilter w))
  | some [] => .error .emptyColumns
  | some cs => .ok (withUser (.chain (getColumnFilter cs) (getTimeRangeFilter w)))

theorem exists_filter {columns : Columns} (h : columns ≠ .many []) (w : Window)
    (userId : Option Text) : ∃ f, getTimeRangeAndColumnFilter columns w userId = .ok f := by
  cases columns with
  | all | one c => exact ⟨_,rfl⟩
  | many cs =>
    cases cs with
    | nil => exact absurd rfl h
    | cons c cs => exact ⟨_,rfl⟩

def ofStored (c : StoredCell) : Cell := ⟨c.column,c.timestamp,c.value⟩

def rowCells (store : List StoredCell) (k : Bytes) : List Cell :=
  (store.filter fun c => c.rowKey = k).map ofStored

/-- `read_rows`: the selected rows of which the filter lets a cell through. -/
def readRows (store : List StoredCell) (selects : Bytes → Bool) (f : RowFilter) :
    Dict Bytes (List Cell) :=
  (((Dict.group (·.rowKey) store).filter fun k _ => selects k).mapValues fun _ cells =>
    f.apply (cells.map ofStored)).filter fun _ cells => !cells.isEmpty

/-- `row_to_column_dict` of a row whose columns all have attributes. -/
def rowToColumnDict (cells : List Cell) : Dict Column (List (KvdbClient.Cell Bytes)) :=
  (Dict.group (·.column) cells).mapValues fun _ l => l.map fun x => ⟨x.value,x.timestampMicros⟩

section Client

variable {V : Type} (reg : Registry V) (maxRowKeyCount : ℕ) (store : List StoredCell)

/-- The rows as column dictionaries, or what `from_key` raises for the first cell without an
attribute. -/
def toColumnDicts (rows : Dict Bytes (List Cell)) :
    Except ReadError (Dict Bytes (Dict Column (List (KvdbClient.Cell Bytes)))) :=
  match (rows.entries.flatMap Prod.snd).find? fun x => !reg.registered x.column with
  | some x => .error (.ofUnknown x.column)
  | none => .ok (rows.mapValues fun _ => rowToColumnDict)

/-- `_read`: by keys, in several queries if there are too many, or by a range. -/
def read (rowKeys : Option (List Bytes)) (range : Bytes → Bool) (f : RowFilter) :
    Except ReadError (Dict Bytes (Dict Column (List (KvdbClient.Cell Bytes)))) :=
  match rowKeys with
  | none => toColumnDicts reg (readRows store range f)
  | some [] => .ok .empty
  | some ks =>
    if maxRowKeyCount < ks.length then
      (chunked maxRowKeyCount ks).foldlM (fun combined chunk =>
        (toColumnDicts reg (readRows store (fun k => k ∈ chunk) f)).map combined.update) .empty
    else toColumnDicts reg (readRows store (fun k => k ∈ ks) f)

def deserializeColumnDict (d : Dict Column (List (KvdbClient.Cell Bytes))) :
    Dict Column (List (KvdbClient.Cell V)) :=
  d.mapValues fun c l => l.map fun x => ⟨reg.deserialize c x.value,x.timestamp⟩

/-- What a read returns of a row: for one attribute `column_dict.get(columns, [])`. -/
def rowData (columns : Columns) (d : Dict Column (List (KvdbClient.Cell Bytes))) : RowData V :=
  match columns with
  | .one c => .cells (((deserializeColumnDict reg d).get? c).getD [])
  | _ => .columns (deserializeColumnDict reg d)

/-- The row argument of a query: no range is needed when there are row keys. -/
def queryRange (rows : RowSelection) : Except ReadError (Bytes → Bool) :=
  match rows.rowKeys, rows.startKey, rows.endKey with
  | some _, _, _ => .ok fun _ => false
  | none, some s, some e => .ok fun k => InRange s e rows.endKeyInclusive k
  | _, _, _ => .error .precondition

def readByteRows (rows : RowSelection) (columns : Columns) (w : Window) (userId : Option Text) :
    Except ReadError (Dict Bytes (RowData V)) := do
  let range ← queryRange rows
  let f ← getTimeRangeAndColumnFilter columns w userId
  let d ← read reg maxRowKeyCount store rows.rowKeys range f
  return d.mapValues fun _ => rowData reg columns

/-- `_read_byte_row`: an absent row reads as no cells or no columns. -/
def readByteRow (rowKey : Bytes) (columns : Columns) (w : Window) :
    Except ReadError (RowData V) := do
  let f ← getTimeRangeAndColumnFilter columns w none
  let d ← toColumnDicts reg (readRows store (fun k => k = rowKey) f)
  return ((d.get? rowKey).map (rowData reg columns)).getD (rowData reg columns .empty)

/-- What a read returns of one row, by the filter's view of it. -/
def rowResult (columns : Columns) (f : RowFilter) (k : Bytes) : Option (RowData V) :=
  if f.apply (rowCells store k) = [] then none
  else some (rowData reg columns (rowToColumnDict (f.apply (rowCells store k))))

variable {reg store} {f : RowFilter}

theorem get?_readRows (selects : Bytes → Bool) (k : Bytes) :
    (readRows store selects f).get? k =
      if selects k = true ∧ f.apply (rowCells store k) ≠ [] then some (f.apply (rowCells store k))
      else none := by
  have hgroup := Dict.get?_group (fun c : StoredCell => c.rowKey) store k
  simp only [readRows,Dict.get?_filter,Dict.get?_mapValues,hgroup]
  by_cases hnil : store.filter (fun c => c.rowKey = k) = []
  · simp [rowCells,hnil,apply_nil]
  · by_cases hs : selects k = true
    · by_cases hf : f.apply (rowCells store k) = []
      · simp [rowCells,hnil,hs] at hf ⊢
        simp [hf]
      · simp [rowCells,hnil,hs] at hf ⊢
        simp [hf]
    · simp [hnil,hs]

/-- Every cell the filter lets through has an attribute. -/
def Registered (reg : Registry V) (store : List StoredCell) (f : RowFilter) (k : Bytes) : Prop :=
  ∀ x ∈ f.apply (rowCells store k), reg.registered x.column = true

theorem registered_of_store (h : ∀ c ∈ store, reg.registered c.column = true) (k : Bytes) :
    Registered reg store f k := fun x hx => by
  obtain ⟨c,hc,rfl⟩ := List.mem_map.mp (mem_of_mem_apply hx)
  exact h c (List.mem_filter.mp hc).1

theorem exists_cell_of_rowResult {columns : Columns} {k : Bytes}
    (h : rowResult reg store columns f k ≠ none) : ∃ c ∈ store, c.rowKey = k := by
  by_contra hno
  have hnil : rowCells store k = [] := by
    rw [rowCells,List.map_eq_nil_iff,List.filter_eq_nil_iff]
    exact fun c hc hk => hno ⟨c,hc,of_decide_eq_true hk⟩
  exact h (by rw [rowResult,hnil,apply_nil,if_pos rfl])

theorem toColumnDicts_readRows {selects : Bytes → Bool}
    (h : ∀ k, selects k = true → Registered reg store f k) :
    toColumnDicts reg (readRows store selects f) =
      .ok ((readRows store selects f).mapValues fun _ => rowToColumnDict) := by
  have hfind : ((readRows store selects f).entries.flatMap Prod.snd).find?
      (fun x => !reg.registered x.column) = none := by
    refine List.find?_eq_none.mpr fun x hx => ?_
    obtain ⟨⟨k,cells⟩,he,hx⟩ := List.mem_flatMap.mp hx
    have hk := Dict.get?_eq_some.mpr he
    rw [get?_readRows] at hk
    split at hk
    · rename_i hsel
      cases hk
      simp [h k hsel.1 x hx]
    · cases hk
  rw [toColumnDicts,hfind]

variable (reg store f) in
theorem toColumnDicts_get? (selects : Bytes → Bool)
    (h : ∀ k, selects k = true → Registered reg store f k) :
    ∃ d, toColumnDicts reg (readRows store selects f) = .ok d ∧ ∀ k columns,
      (d.get? k).map (rowData reg columns) =
        if selects k then rowResult reg store columns f k else none := by
  refine ⟨_,toColumnDicts_readRows h,fun k columns => ?_⟩
  rw [Dict.get?_mapValues,get?_readRows,rowResult]
  by_cases hs : selects k = true <;> by_cases hf : f.apply (rowCells store k) = [] <;> simp [hs,hf]

theorem foldlM_toColumnDicts (chunks : List (List Bytes))
    (h : ∀ k ∈ chunks.flatten, Registered reg store f k)
    (d : Dict Bytes (Dict Column (List (KvdbClient.Cell Bytes)))) :
    ∃ d', chunks.foldlM (fun combined chunk =>
        (toColumnDicts reg (readRows store (fun k => k ∈ chunk) f)).map combined.update) d = .ok d' ∧
      ∀ k columns, (d'.get? k).map (rowData reg columns) =
        (if k ∈ chunks.flatten then rowResult reg store columns f k else none).or
          ((d.get? k).map (rowData reg columns)) := by
  induction chunks generalizing d with
  | nil => exact ⟨d,rfl,by simp⟩
  | cons chunk chunks ih =>
    obtain ⟨e,he,hget⟩ := toColumnDicts_get? reg store f (fun k => k ∈ chunk)
      (by simpa using fun k hk => h k (by simp [hk]))
    obtain ⟨d',hd,hget'⟩ := ih (fun k hk => h k (by simp [hk])) (d.update e)
    refine ⟨d',?_,fun k columns => ?_⟩
    · rw [List.foldlM_cons,he]
      exact hd
    · rw [hget',Dict.get?_update,Option.map_or,hget]
      by_cases hc : k ∈ chunk <;> by_cases hcs : k ∈ chunks.flatten <;>
        cases rowResult reg store columns f k <;> simp [hc,hcs]

theorem read_keys {maxRowKeyCount : ℕ} (hmax : 0 < maxRowKeyCount) (ks : List Bytes)
    (range : Bytes → Bool) (h : ∀ k ∈ ks, Registered reg store f k) :
    ∃ d, read reg maxRowKeyCount store (some ks) range f = .ok d ∧ ∀ k columns,
      (d.get? k).map (rowData reg columns) =
        if k ∈ ks then rowResult reg store columns f k else none := by
  cases ks with
  | nil => exact ⟨_,rfl,by simp⟩
  | cons k ks =>
    simp only [read]
    split
    · have hflat := flatten_chunked hmax (k :: ks)
      obtain ⟨d,hd,hget⟩ := foldlM_toColumnDicts (chunked maxRowKeyCount (k :: ks))
        (by rwa [hflat]) .empty
      refine ⟨d,hd,fun k' columns => ?_⟩
      rw [hget,hflat]
      simp
    · obtain ⟨d,hd,hget⟩ := toColumnDicts_get? reg store f (fun k' => k' ∈ k :: ks)
        (fun k' hk => h k' (of_decide_eq_true hk))
      exact ⟨d,hd,fun k' columns => by simpa using hget k' columns⟩

/-- A read returns of every selected row what the filter lets through. -/
theorem readByteRows_spec (maxRowKeyCount : ℕ) (rows : RowSelection) (hvalid : rows.Valid)
    (hmax : rows.rowKeys ≠ none → 0 < maxRowKeyCount) {columns : Columns} {w : Window}
    {userId : Option Text}
    (hf : getTimeRangeAndColumnFilter columns w userId = .ok f)
    (h : ∀ k, rows.selects k = true → Registered reg store f k) :
    ∃ d, readByteRows reg maxRowKeyCount store rows columns w userId = .ok d ∧
      ∀ k, d.get? k = if rows.selects k then rowResult reg store columns f k else none := by
  suffices ∃ range d, queryRange rows = .ok range ∧
      read reg maxRowKeyCount store rows.rowKeys range f = .ok d ∧
      ∀ k, (d.get? k).map (rowData reg columns) =
        if rows.selects k then rowResult reg store columns f k else none by
    obtain ⟨range,d,hr,hd,hget⟩ := this
    refine ⟨d.mapValues fun _ => rowData reg columns,?_,fun k => ?_⟩
    · simp [readByteRows,hr,hf,hd,bind,Except.bind,pure,Except.pure]
    · rw [Dict.get?_mapValues,hget]
  rcases hvalid.keys_or_range with ⟨ks,s,e,inclusive,rfl⟩ | ⟨s,e,inclusive,rfl⟩
  · have hmem : ∀ k ∈ ks, Registered reg store f k := fun k hk => h k (decide_eq_true hk)
    obtain ⟨d,hd,hget⟩ := read_keys (hmax (by simp)) ks (fun _ => false) hmem
    exact ⟨_,d,rfl,hd,fun k => by simpa [RowSelection.selects] using hget k columns⟩
  · obtain ⟨d,hd,hget⟩ := toColumnDicts_get? _ _ _ _ h
    exact ⟨_,d,rfl,hd,fun k => hget k columns⟩

theorem readByteRow_spec {columns : Columns} {w : Window} {k : Bytes}
    (hf : getTimeRangeAndColumnFilter columns w none = .ok f) (h : Registered reg store f k) :
    readByteRow reg store k columns w =
      .ok ((rowResult reg store columns f k).getD (rowData reg columns .empty)) := by
  obtain ⟨d,hd,hget⟩ := toColumnDicts_get? reg store f (fun k' => k' = k)
    (fun k' hk => of_decide_eq_true hk ▸ h)
  have := hget k columns
  simp only [decide_true,if_true] at this
  simp [readByteRow,hf,hd,this,bind,Except.bind,pure,Except.pure]

end Client

end BigTable
end KvdbClient
