import KvdbClient.HBaseServer
import KvdbClient.PageMerge
import KvdbClient.StoredCells

/-! Reads of the HBase client through the REST scanner: `hbase/utils.py` and `hbase/client.py`.
The base64 and JSON wrapping of requests and responses is left out. -/
namespace KvdbClient
namespace HBase

/-- `get_hbase_compatible_time_stamp`: rounding up goes past whole milliseconds too. -/
def getHbaseCompatibleTimeStamp (timeStamp : ℤ) (roundUp : Bool) : ℤ :=
  let microSGap := timeStamp % 1000
  if microSGap = 0 then if roundUp then timeStamp + 1000 else timeStamp
  else if roundUp then timeStamp + (1000 - microSGap) else timeStamp - microSGap

structure ScannerSpec where
  startRow : Bytes
  endRow : Bytes
  column : List Column
  startTime : Option ℤ
  endTime : Option ℤ

/-- A scanner without columns looks at all of them. Rows and times start at the lower bound and end
before the upper one. -/
def ScannerSpec.Admits (spec : ScannerSpec) (c : StoredCell) : Prop :=
  (spec.column = [] ∨ c.column ∈ spec.column) ∧ (∀ t ∈ spec.startTime, t ≤ c.timestamp) ∧
    ∀ t ∈ spec.endTime, c.timestamp < t

instance (spec : ScannerSpec) (c : StoredCell) : Decidable (spec.Admits c) :=
  inferInstanceAs (Decidable (_ ∧ _ ∧ _))

/-- The cells a scanner delivers, in the order of the store. -/
def scan (spec : ScannerSpec) (store : List StoredCell) : List StoredCell :=
  store.filter fun c => InRange spec.startRow spec.endRow false c.rowKey ∧ spec.Admits c

/-- How the server cuts the cells of a scan into responses. -/
structure Paging where
  pages : List StoredCell → List (List StoredCell)
  flatten_pages : ∀ cells, (pages cells).flatten = cells

def Paging.whole : Paging := ⟨fun cells => [cells],fun _ => by simp⟩

def Paging.KeepsRows (p : Paging) (store : List StoredCell) : Prop :=
  ∀ spec, PageMerge.Unbroken StoredCell.rowKey (fun _ => true) (p.pages (scan spec store))

theorem Paging.whole_keepsRows (store : List StoredCell) : Paging.whole.KeepsRows store :=
  fun _ => List.pairwise_singleton _ _

section Client

variable {V : Type} (reg : Registry V)

/-- What the row loop of `parse_cell_response` makes of decoded names: cells without an attribute are
skipped. For a single column only the cells of the first one are kept. -/
def parseRow (singleColumn : Bool) (cells : List StoredCell) : RowData Bytes :=
  let columnDict := (Dict.group (·.column) (cells.filter fun c => reg.registered c.column)).mapValues
    fun _ l => l.map fun c => (⟨c.value,hbaseTsToDatetime c.timestamp⟩ : Cell Bytes)
  match singleColumn, columnDict.entries with
  | true, e :: _ => .cells e.2
  | _, _ => .columns columnDict

/-- `parse_cell_response` of one response: every name is decoded, also those without an attribute. -/
def parseCellResponse (singleColumn : Bool) (page : List StoredCell) :
    Except ReadError (Dict Bytes (RowData Bytes)) := do
  decodeNames page
  return PageMerge.single StoredCell.rowKey (parseRow reg singleColumn) page

def scannerSpec (startKey endKey : Bytes) (endKeyInclusive : Bool) (columns : Columns) (w : Window) :
    ScannerSpec where
  startRow := startKey
  endRow := if endKeyInclusive then endKey ++ [0] else endKey
  column := columns.toList.getD []
  startTime := w.startTime.map fun t => datetimeToHbaseTs (getHbaseCompatibleTimeStamp t false)
  endTime := w.endTime.map fun t =>
    datetimeToHbaseTs (getHbaseCompatibleTimeStamp t w.endTimeInclusive)

/-- `isinstance(columns, _Attribute)`. -/
def singleColumn : Columns → Bool
  | .one _ => true
  | _ => false

/-- The loop over the responses: `result.update(parsed)`. -/
def mergeResponses (singleColumn : Bool) (pages : List (List StoredCell)) :
    Except ReadError (Dict Bytes (RowData Bytes)) :=
  pages.foldlM (fun result page => (parseCellResponse reg singleColumn page).map result.update) .empty

/-- `_PartialRowAdapter` of a row with decoded names. -/
def partialRowAdapter (cells : List StoredCell) : Families (Cell Bytes) :=
  byFamily StoredCell.column (fun c => ⟨c.value,hbaseTsToDatetime c.timestamp⟩) cells

/-- `_ConsumableRows` of the rows of all responses, whose names are decoded row after row: a row that
comes again replaces the earlier. -/
def consumableRows (pages : List (List StoredCell)) :
    Except ReadError (Dict Bytes (Families (Cell Bytes))) := do
  decodeNames pages.flatten
  return PageMerge.merge StoredCell.rowKey partialRowAdapter pages

variable (p : Paging) (store : List StoredCell) (columns : Columns) (w : Window)

/-- `read_all_rows`: a scanner without bounds, columns and times. -/
def readAllRows : Except ReadError (Dict Bytes (Families (Cell Bytes))) :=
  consumableRows (p.pages store)

def fetchRowsByRange (startKey endKey : Bytes) (endKeyInclusive : Bool) :
    Except ReadError (Dict Bytes (RowData Bytes)) :=
  mergeResponses reg (singleColumn columns)
    (p.pages (scan (scannerSpec startKey endKey endKeyInclusive columns w) store))

/-- `_fetch_rows_by_keys`: one scan from the least to the greatest key. -/
def fetchRowsByKeys (rowKeys : List Bytes) : Except ReadError (Dict Bytes (RowData Bytes)) :=
  let sortedKeys := rowKeys.insertionSort (· ≤ ·)
  match sortedKeys.head?, sortedKeys.getLast? with
  | some least, some greatest => do
    let allRows ← fetchRowsByRange reg p store columns w least greatest true
    return allRows.filter fun k _ => k ∈ rowKeys
  | _, _ => .ok .empty

def deserializeCell (c : Column) (x : Cell Bytes) : Cell V := ⟨reg.deserialize c x.value,x.timestamp⟩

/-- The deserializing loop of `_read_byte_rows`. Cells without their column only occur when one
attribute is asked for. -/
def deserializeRow : RowData Bytes → RowData V
  | .columns d => .columns (d.mapValues fun c l => l.map (deserializeCell reg c))
  | .cells l =>
    match columns with
    | .one c => .cells (l.map (deserializeCell reg c))
    | _ => .cells []

/-- `_read_byte_rows`; `user_id` is a parameter the function does not use. -/
def readByteRows (maxRowKeyCount : ℕ) (rows : RowSelection) (_userId : Option Text) :
    Except ReadError (Dict Bytes (RowData V)) :=
  match rows.rowKeys, rows.startKey, rows.endKey with
  | some ks, _, _ => do
    let rows ← (chunked maxRowKeyCount ks).foldlM (fun (rows : Dict Bytes (RowData Bytes)) batch =>
      (fetchRowsByKeys reg p store columns w batch).map rows.update) .empty
    return rows.mapValues fun _ => deserializeRow reg columns
  | none, some s, some e => do
    let rows ← fetchRowsByRange reg p store columns w s e rows.endKeyInclusive
    return rows.mapValues fun _ => deserializeRow reg columns
  | _, _, _ => .error .precondition

def readByteRow (maxRowKeyCount : ℕ) (rowKey : Bytes) : Except ReadError (RowData V) := do
  let rows ← readByteRows reg p store columns w maxRowKeyCount (.ofKeys [rowKey]) none
  return (rows.get? rowKey).getD (if singleColumn columns then .cells [] else .columns .empty)

def rowCells (k : Bytes) : List StoredCell :=
  store.filter fun c => c.rowKey = k ∧ (scannerSpec [] [] false columns w).Admits c

def rowResult (k : Bytes) : Option (RowData V) :=
  if rowCells store columns w k = [] then none
  else some (deserializeRow reg columns
    (parseRow reg (singleColumn columns) (rowCells store columns w k)))

variable {p store}

theorem exists_cell_of_rowResult {reg : Registry V} {columns : Columns} {w : Window} {k : Bytes}
    (h : rowResult reg store columns w k ≠ none) : ∃ c ∈ store, c.rowKey = k := by
  by_contra hno
  have hnil : rowCells store columns w k = [] :=
    List.filter_eq_nil_iff.mpr fun c hc hk => hno ⟨c,hc,(of_decide_eq_true hk).1⟩
  exact h (by rw [rowResult,hnil,if_pos rfl])

/-- The appended zero byte makes the exclusive end of a scan an inclusive one. -/
theorem lt_append_zero (k e : Bytes) : k < e ++ [0] ↔ k ≤ e := by
  induction e generalizing k with
  | nil =>
    cases k with
    | nil => simp
    | cons b k => simp [List.cons_lt_cons_iff]
  | cons a e ih =>
    cases k with
    | nil => simp
    | cons b k => rw [List.cons_append,List.cons_lt_cons_iff,List.cons_le_cons_iff,ih]

theorem inRange_scan (s e : Bytes) (inclusive : Bool) (k : Bytes) :
    InRange s (if inclusive then e ++ [0] else e) false k ↔ InRange s e inclusive k := by
  cases inclusive
  · rfl
  · simp [InRange,lt_append_zero]

theorem members_scan (s e : Bytes) (inclusive : Bool) (k : Bytes) :
    PageMerge.members StoredCell.rowKey k (scan (scannerSpec s e inclusive columns w) store) =
      if InRange s e inclusive k then rowCells store columns w k else [] := by
  rw [PageMerge.members,scan,List.filter_filter]
  split
  · rename_i hk
    refine List.filter_congr fun c _ => ?_
    rw [Bool.eq_iff_iff]
    simp only [Bool.and_eq_true,decide_eq_true_eq]
    refine and_congr_right fun hc => ⟨fun h => h.2,fun h => ⟨?_,h⟩⟩
    rw [hc]
    exact (inRange_scan s e inclusive k).mpr hk
  · rename_i hk
    refine List.filter_eq_nil_iff.mpr fun c _ h => hk ?_
    simp only [Bool.and_eq_true,decide_eq_true_eq] at h
    rw [← h.1]
    exact (inRange_scan s e inclusive c.rowKey).mp h.2.1

theorem mergeResponses_eq (singleColumn : Bool) (pages : List (List StoredCell)) :
    mergeResponses reg singleColumn pages = (decodeNames pages.flatten).map fun _ =>
      PageMerge.merge StoredCell.rowKey (parseRow reg singleColumn) pages := by
  have hpage : ∀ page, parseCellResponse reg singleColumn page = (decodeNames page).map fun _ =>
      PageMerge.single StoredCell.rowKey (parseRow reg singleColumn) page := fun page => by
    rw [parseCellResponse]
    cases decodeNames page <;> rfl
  rw [mergeResponses,foldlM_decodeNames hpage,List.flatMap_id']
  rfl

theorem readAllRows_eq : readAllRows p store = (decodeNames store).map fun _ =>
    PageMerge.merge StoredCell.rowKey partialRowAdapter (p.pages store) := by
  rw [readAllRows,consumableRows,p.flatten_pages]
  cases decodeNames store <;> rfl

variable (p store) in
/-- The rows of a scan with decoded names. -/
def scannedRows (startKey endKey : Bytes) (endKeyInclusive : Bool) : Dict Bytes (RowData Bytes) :=
  PageMerge.merge StoredCell.rowKey (parseRow reg (singleColumn columns))
    (p.pages (scan (scannerSpec startKey endKey endKeyInclusive columns w) store))

theorem fetchRowsByRange_eq (s e : Bytes) (inclusive : Bool) :
    fetchRowsByRange reg p store columns w s e inclusive =
      (decodeNames (scan (scannerSpec s e inclusive columns w) store)).map fun _ =>
        scannedRows reg p store columns w s e inclusive := by
  rw [fetchRowsByRange,mergeResponses_eq,p.flatten_pages]
  rfl

theorem get?_scannedRows (hp : p.KeepsRows store) (s e : Bytes) (inclusive : Bool) (k : Bytes) :
    (scannedRows reg p store columns w s e inclusive).get? k =
      if InRange s e inclusive k ∧ rowCells store columns w k ≠ [] then
        some (parseRow reg (singleColumn columns) (rowCells store columns w k))
      else none := by
  rw [scannedRows,PageMerge.get?_merge_of_unbroken (hp _),p.flatten_pages,
    PageMerge.get?_single,members_scan]
  by_cases hk : InRange s e inclusive k <;> by_cases hc : rowCells store columns w k = [] <;>
    simp [hk,hc]

theorem mem_keys_scannedRows {s e k : Bytes} {inclusive : Bool} :
    k ∈ (scannedRows reg p store columns w s e inclusive).keys ↔
      InRange s e inclusive k ∧ rowCells store columns w k ≠ [] := by
  rw [scannedRows,PageMerge.mem_keys_merge,p.flatten_pages,members_scan]
  by_cases hk : InRange s e inclusive k <;> simp [hk]

def Spans (ks : List Bytes) (k : Bytes) : Prop := (∃ a ∈ ks, a ≤ k) ∧ ∃ b ∈ ks, k ≤ b

instance (ks : List Bytes) (k : Bytes) : Decidable (Spans ks k) :=
  inferInstanceAs (Decidable ((∃ a ∈ ks, _) ∧ ∃ b ∈ ks, _))

theorem spans_of_mem {ks : List Bytes} {k : Bytes} (h : k ∈ ks) : Spans ks k :=
  ⟨⟨k,h,List.le_refl k⟩,k,h,List.le_refl k⟩

theorem inRange_sorted_iff {ks : List Bytes} {least greatest k : Bytes}
    (hl : (ks.insertionSort (· ≤ ·)).head? = some least)
    (hg : (ks.insertionSort (· ≤ ·)).getLast? = some greatest) :
    InRange least greatest true k ↔ Spans ks k := by
  have hsorted : (ks.insertionSort (· ≤ ·)).Pairwise (· ≤ ·) := List.pairwise_insertionSort _ _
  have hmem : ∀ a, a ∈ ks ↔ a ∈ ks.insertionSort (· ≤ ·) := fun a => (List.mem_insertionSort _).symm
  simp only [Spans,hmem]
  generalize ks.insertionSort (· ≤ ·) = sorted at hl hg hsorted
  obtain ⟨rest,hrest⟩ := List.head?_eq_some_iff.mp hl
  obtain ⟨front,hfront⟩ := List.getLast?_eq_some_iff.mp hg
  have hleast : ∀ a ∈ sorted, least ≤ a := fun a ha => by
    rw [hrest] at ha hsorted
    rcases List.mem_cons.mp ha with rfl | ha
    · exact List.le_refl _
    · exact (List.pairwise_cons.mp hsorted).1 a ha
  have hgreatest : ∀ b ∈ sorted, b ≤ greatest := fun b hb => by
    rw [hfront] at hb hsorted
    rcases List.mem_append.mp hb with hb | hb
    · exact (List.pairwise_append.mp hsorted).2.2 b hb greatest (List.mem_singleton.mpr rfl)
    · rw [List.mem_singleton.mp hb]
      exact List.le_refl _
  constructor
  · rintro ⟨hlk,hkg⟩
    exact ⟨⟨least,hrest ▸ List.mem_cons_self,hlk⟩,greatest,by simp [hfront],hkg⟩
  · rintro ⟨⟨a,ha,hak⟩,b,hb,hkb⟩
    exact ⟨List.le_trans (hleast a ha) hak,List.le_trans hkb (hgreatest b hb)⟩

variable (store) in
/-- The cells that the scan for a batch of keys delivers. -/
def spanned (ks : List Bytes) : List StoredCell :=
  store.filter fun c => Spans ks c.rowKey ∧ (scannerSpec [] [] false columns w).Admits c

variable (p store) in
/-- The rows of a batch with decoded names. -/
def keyedRows (ks : List Bytes) : Dict Bytes (RowData Bytes) :=
  let sortedKeys := ks.insertionSort (· ≤ ·)
  match sortedKeys.head?, sortedKeys.getLast? with
  | some least, some greatest =>
    (scannedRows reg p store columns w least greatest true).filter fun k _ => k ∈ ks
  | _, _ => .empty

theorem eq_nil_of_sorted {ks : List Bytes} (h : ∀ least greatest,
    (ks.insertionSort (· ≤ ·)).head? = some least →
      (ks.insertionSort (· ≤ ·)).getLast? = some greatest → False) : ks = [] := by
  refine List.eq_nil_iff_forall_not_mem.mpr fun k hk => ?_
  have hmem : k ∈ ks.insertionSort (· ≤ ·) := (List.mem_insertionSort _).mpr hk
  obtain ⟨least,hl⟩ := Option.ne_none_iff_exists'.mp fun hnil =>
    List.ne_nil_of_mem hmem (List.head?_eq_none_iff.mp hnil)
  obtain ⟨greatest,hg⟩ := Option.ne_none_iff_exists'.mp fun hnil =>
    List.ne_nil_of_mem hmem (List.getLast?_eq_none_iff.mp hnil)
  exact h least greatest hl hg

variable (p store) in
theorem fetchRowsByKeys_eq (ks : List Bytes) :
    fetchRowsByKeys reg p store columns w ks =
      (decodeNames (spanned store columns w ks)).map fun _ => keyedRows reg p store columns w ks := by
  simp only [fetchRowsByKeys,keyedRows]
  split
  · rename_i least greatest hl hg
    have hscan : scan (scannerSpec least greatest true columns w) store = spanned store columns w ks :=
      List.filter_congr fun c _ => by
        have hrange := (inRange_scan least greatest true c.rowKey).trans (inRange_sorted_iff hl hg)
        exact decide_eq_decide.mpr (and_congr_left fun _ => hrange)
    rw [fetchRowsByRange_eq,hscan]
    cases decodeNames (spanned store columns w ks) <;> rfl
  · rename_i hne
    obtain rfl := eq_nil_of_sorted fun least greatest hl hg => hne least greatest hl hg
    have hnil : spanned store columns w [] = [] :=
      List.filter_eq_nil_iff.mpr fun c _ h => by simp [Spans] at h
    rw [hnil]
    rfl

variable (p store) in
theorem exists_range_keyedRows (ks : List Bytes) :
    ∃ s e, (∀ k ∈ ks, InRange s e true k) ∧ ∀ k, (keyedRows reg p store columns w ks).get? k =
      if k ∈ ks then (scannedRows reg p store columns w s e true).get? k else none := by
  simp only [keyedRows]
  split
  · rename_i least greatest hl hg
    refine ⟨least,greatest,fun k hk => (inRange_sorted_iff hl hg).mpr (spans_of_mem hk),fun k => ?_⟩
    rw [Dict.get?_filter]
    cases (scannedRows reg p store columns w least greatest true).get? k <;>
      by_cases hk : k ∈ ks <;> simp [hk,Option.filter]
  · rename_i hne
    obtain rfl := eq_nil_of_sorted fun least greatest hl hg => hne least greatest hl hg
    exact ⟨[],[],by simp,by simp⟩

theorem get?_keyedRows (hp : p.KeepsRows store) (ks : List Bytes) (k : Bytes) :
    (keyedRows reg p store columns w ks).get? k =
      if k ∈ ks ∧ rowCells store columns w k ≠ [] then
        some (parseRow reg (singleColumn columns) (rowCells store columns w k))
      else none := by
  obtain ⟨s,e,hrange,hget⟩ := exists_range_keyedRows reg p store columns w ks
  rw [hget,get?_scannedRows reg columns w hp]
  by_cases hk : k ∈ ks
  · simp [hk,hrange k hk]
  · simp [hk]

theorem mem_keys_keyedRows {ks : List Bytes} {k : Bytes} :
    k ∈ (keyedRows reg p store columns w ks).keys ↔ k ∈ ks ∧ rowCells store columns w k ≠ [] := by
  obtain ⟨s,e,hrange,hget⟩ := exists_range_keyedRows reg p store columns w ks
  rw [Dict.mem_keys_iff,hget]
  by_cases hk : k ∈ ks
  · simp only [hk,if_true,true_and]
    rw [← Dict.mem_keys_iff,mem_keys_scannedRows]
    exact and_iff_right (hrange k hk)
  · simp [hk]

variable (store) in
def scanned (maxRowKeyCount : ℕ) (rows : RowSelection) : List StoredCell :=
  match rows.rowKeys, rows.startKey, rows.endKey with
  | some ks, _, _ => (chunked maxRowKeyCount ks).flatMap (spanned store columns w)
  | none, some s, some e => scan (scannerSpec s e rows.endKeyInclusive columns w) store
  | _, _, _ => []

/-- The rows of a read whose scans deliver decodable names only. -/
theorem readByteRows_eq (maxRowKeyCount : ℕ) (rows : RowSelection) (hvalid : rows.Valid)
    (hmax : rows.rowKeys ≠ none → 0 < maxRowKeyCount) (userId : Option Text) :
    ∃ d, readByteRows reg p store columns w maxRowKeyCount rows userId =
        ((decodeNames (scanned store columns w maxRowKeyCount rows)).map fun _ => d) ∧
      (∀ k, k ∈ d.keys ↔ rows.selects k = true ∧ rowCells store columns w k ≠ []) ∧
      (p.KeepsRows store → ∀ k, d.get? k =
        if rows.selects k then rowResult reg store columns w k else none) := by
  rcases hvalid.keys_or_range with ⟨ks,s,e,inclusive,rfl⟩ | ⟨s,e,inclusive,rfl⟩
  · have hfold := foldlM_decodeNames (fetchRowsByKeys_eq reg p store columns w)
      (chunked maxRowKeyCount ks) .empty
    refine ⟨(((chunked maxRowKeyCount ks).map (keyedRows reg p store columns w)).foldl Dict.update
      .empty).mapValues fun _ => deserializeRow reg columns,?_,fun k => ?_,fun hp k => ?_⟩
    · simp only [readByteRows,hfold,scanned,List.foldl_map]
      cases decodeNames ((chunked maxRowKeyCount ks).flatMap (spanned store columns w)) <;> rfl
    · rw [Dict.mem_keys_mapValues,Dict.mem_keys_foldl_update]
      simp only [RowSelection.selects,decide_eq_true_eq,List.mem_map,exists_exists_and_eq_and,
        mem_keys_keyedRows,← and_assoc,exists_and_right,← List.mem_flatten,
        flatten_chunked (hmax (by simp))]
      simp [Dict.keys,Dict.empty]
    · have hkeys := Dict.get?_foldl_update (keyedRows reg p store columns w) k
        (if rowCells store columns w k = [] then none
          else some (parseRow reg (singleColumn columns) (rowCells store columns w k)))
        (chunked maxRowKeyCount ks) (fun chunk _ => by
          rw [get?_keyedRows reg columns w hp]
          by_cases hk : k ∈ chunk <;> simp [hk]) .empty
      rw [flatten_chunked (hmax (by simp))] at hkeys
      rw [Dict.get?_mapValues,hkeys,rowResult]
      by_cases hk : k ∈ ks <;> by_cases hc : rowCells store columns w k = [] <;>
        simp [RowSelection.selects,hk,hc]
  · refine ⟨(scannedRows reg p store columns w s e inclusive).mapValues fun _ =>
      deserializeRow reg columns,?_,fun k => ?_,fun hp k => ?_⟩
    · simp only [readByteRows,fetchRowsByRange_eq,scanned]
      cases decodeNames (scan (scannerSpec s e inclusive columns w) store) <;> rfl
    · rw [Dict.mem_keys_mapValues,mem_keys_scannedRows]
      simp only [RowSelection.selects,decide_eq_true_eq]
    · rw [Dict.get?_mapValues,get?_scannedRows reg columns w hp,rowResult]
      by_cases hk : InRange s e inclusive k <;> by_cases hc : rowCells store columns w k = [] <;>
        simp [RowSelection.selects,hk,hc]

variable (store) in
def NamesDecodable : Prop :=
  ∀ c ∈ store, (scannerSpec [] [] false columns w).Admits c → c.column.Decodable

variable {reg} in
theorem namesDecodable_of_registered (h : ∀ c ∈ store, reg.registered c.column = true) :
    NamesDecodable store columns w := fun c hc _ => reg.decodable _ (h c hc)

variable {reg} in
theorem namesDecodable_one {c : Column} (hc : reg.registered c = true) :
    NamesDecodable store (.one c) w := fun x _ hx => by
  have hcolumn : x.column = c := by simpa [scannerSpec,Columns.toList] using hx.1
  exact hcolumn ▸ reg.decodable c hc

variable {columns w} in
theorem NamesDecodable.scanned (h : NamesDecodable store columns w) (maxRowKeyCount : ℕ)
    (rows : RowSelection) :
    decodeNames (scanned store columns w maxRowKeyCount rows) = .ok () := by
  refine decodeNames_of_decodable fun c hc => ?_
  rw [HBase.scanned] at hc
  split at hc
  · obtain ⟨batch,-,hc⟩ := List.mem_flatMap.mp hc
    obtain ⟨hc,hadmits⟩ := List.mem_filter.mp hc
    exact h c hc (of_decide_eq_true hadmits).2
  · obtain ⟨hc,hadmits⟩ := List.mem_filter.mp hc
    exact h c hc (of_decide_eq_true hadmits).2
  · cases hc

variable (p) in
theorem mem_keys_readByteRows (hnames : NamesDecodable store columns w) (maxRowKeyCount : ℕ)
    (rows : RowSelection) (hvalid : rows.Valid) (hmax : rows.rowKeys ≠ none → 0 < maxRowKeyCount)
    (userId : Option Text) :
    ∃ d, readByteRows reg p store columns w maxRowKeyCount rows userId = .ok d ∧
      ∀ k, k ∈ d.keys ↔ rows.selects k = true ∧ rowCells store columns w k ≠ [] := by
  obtain ⟨d,hd,hkeys,-⟩ := readByteRows_eq (p := p) reg columns w maxRowKeyCount rows hvalid hmax userId
  exact ⟨d,by rw [hd,hnames.scanned]; rfl,hkeys⟩

/-- A read returns of every selected row what the columns and the window admit. -/
theorem readByteRows_spec (hp : p.KeepsRows store) (hnames : NamesDecodable store columns w)
    (maxRowKeyCount : ℕ) (rows : RowSelection) (hvalid : rows.Valid)
    (hmax : rows.rowKeys ≠ none → 0 < maxRowKeyCount) (userId : Option Text) :
    ∃ d, readByteRows reg p store columns w maxRowKeyCount rows userId = .ok d ∧
      ∀ k, d.get? k = if rows.selects k then rowResult reg store columns w k else none := by
  obtain ⟨d,hd,-,hget⟩ := readByteRows_eq (p := p) reg columns w maxRowKeyCount rows hvalid hmax userId
  exact ⟨d,by rw [hd,hnames.scanned]; rfl,hget hp⟩

theorem spanned_singleton (k : Bytes) : spanned store columns w [k] = rowCells store columns w k := by
  refine List.filter_congr fun c _ => decide_eq_decide.mpr (and_congr_left fun _ => ?_)
  simp only [Spans,List.mem_singleton,exists_eq_left]
  exact ⟨fun h => List.le_antisymm h.2 h.1,fun h => h ▸ ⟨List.le_refl _,List.le_refl _⟩⟩

theorem readByteRow_eq {maxRowKeyCount : ℕ} (hmax : 0 < maxRowKeyCount) (k : Bytes) :
    readByteRow reg p store columns w maxRowKeyCount k =
      (decodeNames (rowCells store columns w k)).map fun _ =>
        ((((scannedRows reg p store columns w k k true).get? k).map (deserializeRow reg columns)).getD
          (if singleColumn columns then .cells [] else .columns .empty)) := by
  have hkeyed : (keyedRows reg p store columns w [k]).get? k =
      (scannedRows reg p store columns w k k true).get? k := by
    have hsort : [k].insertionSort (· ≤ ·) = [k] := rfl
    simp only [keyedRows,hsort,List.head?_cons,List.getLast?_singleton,Dict.get?_filter,
      List.mem_singleton,decide_true]
    cases (scannedRows reg p store columns w k k true).get? k <;> rfl
  simp only [readByteRow,readByteRows,RowSelection.ofKeys,chunked_singleton hmax,List.foldlM_cons,
    List.foldlM_nil,fetchRowsByKeys_eq,spanned_singleton]
  cases decodeNames (rowCells store columns w k) with
  | error e => rfl
  | ok u =>
    simp only [bind,Except.bind,Except.map,pure,Except.pure]
    rw [Dict.get?_mapValues,Dict.get?_update,Dict.get?_empty,Option.or_none,hkeyed]

/-- The names of all cells of the row are decoded, also of those without an attribute. -/
theorem readByteRow_spec (hp : p.KeepsRows store) {maxRowKeyCount : ℕ} (hmax : 0 < maxRowKeyCount)
    (k : Bytes) :
    readByteRow reg p store columns w maxRowKeyCount k =
      (decodeNames (rowCells store columns w k)).map fun _ => (rowResult reg store columns w k).getD
        (if singleColumn columns then .cells [] else .columns .empty) := by
  rw [readByteRow_eq reg columns w hmax,get?_scannedRows reg columns w hp,rowResult]
  have hself : InRange k k true k := ⟨List.le_refl k,List.le_refl k⟩
  by_cases hc : rowCells store columns w k = [] <;> simp [hself,hc]

theorem readByteRow_ok (hp : p.KeepsRows store) (hnames : NamesDecodable store columns w)
    {maxRowKeyCount : ℕ} (hmax : 0 < maxRowKeyCount) (k : Bytes) :
    readByteRow reg p store columns w maxRowKeyCount k = .ok ((rowResult reg store columns w k).getD
      (if singleColumn columns then .cells [] else .columns .empty)) := by
  rw [readByteRow_spec reg columns w hp hmax,decodeNames_of_decodable fun c hc => ?_]
  · rfl
  · obtain ⟨hc,hadmits⟩ := List.mem_filter.mp hc
    exact hnames c hc (of_decide_eq_true hadmits).2

end Client

end HBase
end KvdbClient
