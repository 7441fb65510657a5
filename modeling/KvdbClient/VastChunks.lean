import KvdbClient.ExceptLists
import KvdbClient.VastReads

/-! Key reads of the VAST client: one query for every `MAX_ROW_KEY_COUNT` keys, against one query
for all of them. -/
namespace KvdbClient

/-- The same cells, column by column, in some order. -/
def RowData.SameCells {V : Type} : RowData V → RowData V → Prop
  | .columns d, .columns e => ∀ c, Option.Rel List.Perm (d.get? c) (e.get? c)
  | .cells l, .cells m => l.Perm m
  | _, _ => False

def RowData.count {V : Type} (c : Column) : RowData V → ℕ
  | .columns d => ((d.get? c).getD []).length
  | .cells l => l.length

namespace Vast

section Client

variable {V : Type} (reg : Registry V) (a : Arrangement) (table : List StoredCell)

/-- The row has the same cells in both; also in the same order, if the service keeps the table's. -/
def SameRow (x y : Option (RowData V)) : Prop :=
  Option.Rel RowData.SameCells x y ∧ (a = .storage → x = y)

variable {a table}

theorem get?_columnDict (l : List StoredCell) (c : Column) :
    (columnDict reg l).get? c = if l.filter (fun x => x.column = c) = [] then none else
      some ((l.filter fun x => x.column = c).map fun x => ⟨reg.deserialize c x.value,x.timestamp⟩) := by
  rw [columnDict,Dict.get?_mapValues,Dict.get?_group]
  split <;> rfl

theorem encodeRowKey_error {k : Bytes} (h : ¬ k.toByteArray.IsValidUTF8) :
    ∃ e, encodeRowKey k = .error e := ⟨_,if_neg h⟩

variable (a table) in
theorem selectRowsOnce_error {ks : List Bytes} (h : ∃ k ∈ ks, ¬ k.toByteArray.IsValidUTF8)
    (columns : Columns) (w : Window) :
    ∃ e, selectRowsOnce a table (.ofKeys ks) columns w = .error e := by
  obtain ⟨k,hk,hinvalid⟩ := h
  obtain ⟨e,he,-⟩ := ExceptLists.mapM_error (f := encodeRowKey) (P := fun _ => True)
    (fun _ _ _ _ => trivial) ⟨k,hk,encodeRowKey_error hinvalid⟩
  refine ⟨e,?_⟩
  simp only [selectRowsOnce,buildPredicate,rowKeyPredicate,RowSelection.ofKeys,he]
  rfl

theorem selectRows_ofKeys (maxRowKeyCount : ℕ) (ks : List Bytes) (columns : Columns) (w : Window) :
    selectRows a table maxRowKeyCount (.ofKeys ks) columns w =
      ((chunked maxRowKeyCount ks).mapM fun chunk =>
        selectRowsOnce a table (.ofKeys chunk) columns w) >>= fun parts => .ok parts.flatten := rfl

variable (a table) in
theorem selectRows_error {maxRowKeyCount : ℕ} (hmax : 0 < maxRowKeyCount) {ks : List Bytes}
    (h : ∃ k ∈ ks, ¬ k.toByteArray.IsValidUTF8) (columns : Columns) (w : Window) :
    ∃ e, selectRows a table maxRowKeyCount (.ofKeys ks) columns w = .error e := by
  obtain ⟨k,hk,hinvalid⟩ := h
  rw [← flatten_chunked hmax ks] at hk
  obtain ⟨chunk,hchunk,hk⟩ := List.mem_flatten.mp hk
  obtain ⟨e,he,-⟩ := ExceptLists.mapM_error
    (f := fun chunk => selectRowsOnce a table (.ofKeys chunk) columns w) (P := fun _ => True)
    (fun _ _ _ _ => trivial) ⟨chunk,hchunk,selectRowsOnce_error a table ⟨k,hk,hinvalid⟩ columns w⟩
  refine ⟨e,?_⟩
  rw [selectRows_ofKeys,he]
  rfl

/-- Once the rows are selected, only the columns and the names can fail. -/
theorem readByteRows_ofKeys (maxRowKeyCount : ℕ) (ks : List Bytes) (columns : Columns) (w : Window) :
    readByteRows reg a table maxRowKeyCount (.ofKeys ks) columns w none =
      (do let rawRows ← selectRows a table maxRowKeyCount (.ofKeys ks) columns w
          rowsToColumnDicts reg columns (← normalizeColumns columns) rawRows) := by
  rw [readByteRows,if_neg fun h => Option.some_ne_none _ h.1]
  rfl

theorem readByteRows_of_rowKeys (maxRowKeyCount : ℕ) {rows : RowSelection} {ks : List Bytes}
    (h : rows.rowKeys = some ks) (columns : Columns) (w : Window) :
    readByteRows reg a table maxRowKeyCount rows columns w none =
      readByteRows reg a table maxRowKeyCount (.ofKeys ks) columns w none := by
  obtain ⟨rowKeys,startKey,endKey,inclusive⟩ := rows
  cases h
  rw [readByteRows_ofKeys,readByteRows,if_neg fun h => Option.some_ne_none _ h.1]
  rfl

variable (a table)

def queried (ks : List Bytes) (columns : Columns) (w : Window) : List StoredCell :=
  table.filter fun x => x.rowKey ∈ ks ∧ Queried columns x.column ∧ timePredicate w x = true

/-- A read of row keys whose names can be decoded returns the cells of a row once for every run that
names it. -/
theorem readByteRows_copies {maxRowKeyCount : ℕ} (hmax : 0 < maxRowKeyCount) {ks : List Bytes}
    (hvalid : ∀ k ∈ ks, k.toByteArray.IsValidUTF8) {columns : Columns} (hcols : columns ≠ .many [])
    (w : Window) :
    ∃ raw d, readByteRows reg a table maxRowKeyCount (.ofKeys ks) columns w none =
        ((decodeNames raw).map fun _ => d) ∧
      (∀ x, x ∈ raw ↔ x ∈ queried table ks columns w) ∧
      ∀ k, ∃ l, d.get? k = rowResult reg columns l ∧
        Arrives a l (List.replicate ((chunked maxRowKeyCount ks).countP fun chunk => k ∈ chunk)
          (rowCells reg table columns w k)).flatten := by
  obtain ⟨parts,hparts,hmem,harrives⟩ := selectChunks_copies reg a table hcols w
    (chunked maxRowKeyCount ks) (by rwa [flatten_chunked hmax ks])
  refine ⟨sortRows parts.flatten,columnDicts reg columns columns.toList parts.flatten,?_,fun x => ?_,
    fun k => ⟨_,get?_columnDicts reg columns parts.flatten k,harrives k⟩⟩
  · rw [readByteRows_ofKeys,selectRows_ofKeys,hparts,normalizeColumns_eq hcols]
    exact rowsToColumnDicts_eq reg columns columns.toList parts.flatten
  · rw [mem_sortRows,hmem,flatten_chunked hmax,queried,List.mem_filter,decide_eq_true_eq]

theorem countP_chunked_pos_iff {maxRowKeyCount : ℕ} (hmax : 0 < maxRowKeyCount) {ks : List Bytes}
    {k : Bytes} : 0 < ((chunked maxRowKeyCount ks).countP fun chunk => k ∈ chunk) ↔ k ∈ ks := by
  rw [List.countP_pos_iff]
  simp only [decide_eq_true_eq]
  rw [← List.mem_flatten,flatten_chunked hmax]

end Client

section Example

private def key : Bytes := encodeUtf8 [ 'k']

private def stored : List StoredCell := [⟨key,Hierarchy.newParent,0,[1]⟩]

end Example

end Vast
end KvdbClient
