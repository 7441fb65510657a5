import KvdbClient.StableSort
import KvdbClient.StoredCells

/-! Reads of the VAST client: `vast/utils.py` and `vast/client.py`. A `utf8` value of the table is
kept as its bytes, which is also how VAST compares it. -/
namespace KvdbClient
namespace Vast

/-- `get_vast_compatible_time_stamp` of a datetime in UTC. -/
def getVastCompatibleTimeStamp (timeStamp : ℤ) (roundUp : Bool) : ℤ :=
  let microsecondGap := timeStamp % 1000
  if microsecondGap = 0 then if roundUp then timeStamp + 1000 else timeStamp
  else if roundUp then timeStamp + (1000 - microsecondGap) else timeStamp - microsecondGap

/-- `encode_row_key`: strict UTF-8 decoding. -/
def encodeRowKey (k : Bytes) : Except ReadError Bytes :=
  if k.toByteArray.IsValidUTF8 then .ok k else .error (.undecodableKey k)

abbrev Predicate := StoredCell → Bool

def rowKeyPredicate (rows : RowSelection) : Except ReadError Predicate :=
  match rows.rowKeys, rows.startKey, rows.endKey with
  | some ks, _, _ => do
    let ks ← ks.mapM encodeRowKey
    return fun c => c.rowKey ∈ ks
  | none, some s, some e => do
    let s ← encodeRowKey s
    let e ← encodeRowKey e
    return fun c => InRange s e rows.endKeyInclusive c.rowKey
  | _, _, _ => .ok fun _ => true

def normalizeColumns (columns : Columns) : Except ReadError (Option (List Column)) :=
  match columns.toList with
  | some [] => .error .emptyColumns
  | cs => .ok cs

/-- Only a single column is pushed down. -/
def columnPredicate (columns : Columns) : Except ReadError Predicate := do
  match ← normalizeColumns columns with
  | some [c] => return fun x => x.column = c
  | _ => return fun _ => true

def timePredicate (w : Window) : Predicate := fun x =>
  (∀ t ∈ w.startTime, getVastCompatibleTimeStamp t false ≤ x.timestamp) ∧
    ∀ t ∈ w.endTime, if w.endTimeInclusive then x.timestamp ≤ getVastCompatibleTimeStamp t false
      else x.timestamp < getVastCompatibleTimeStamp t false

def userPredicate (userId : Text) : Predicate := fun x =>
  x.column = OperationLogs.userId.toColumn ∧ x.value = OperationLogs.userId.serialize userId

def buildPredicate (rows : RowSelection) (columns : Columns) (w : Window) :
    Except ReadError Predicate := do
  let byRow ← rowKeyPredicate rows
  let byColumn ← columnPredicate columns
  return fun x => byRow x && byColumn x && timePredicate w x

/-- The order in which the service returns the table rows of a query. -/
structure Arrangement where
  arrange : List StoredCell → List StoredCell
  perm : ∀ l, (arrange l).Perm l

def Arrangement.storage : Arrangement := ⟨id,List.Perm.refl⟩

def select (a : Arrangement) (table : List StoredCell) (p : Predicate) : List StoredCell :=
  a.arrange (table.filter p)

/-- The tuple `rows_to_column_dicts` sorts by. -/
def sortKey (c : StoredCell) : Lex (List ℕ × Lex (List ℕ × Lex (List ℕ × ℤ))) :=
  toLex (c.rowKey.map UInt8.toNat,toLex (c.column.familyId.map Char.toNat,
    toLex (c.column.key.map UInt8.toNat,c.timestamp)))

/-- `sorted(..., reverse=True)`, which leaves equal elements in their order. -/
def sortRows (rows : List StoredCell) : List StoredCell :=
  rows.insertionSort fun a b => sortKey b ≤ sortKey a

def versionsIn (k : Bytes) (c : Column) (l : List StoredCell) : List StoredCell :=
  l.filter fun x => x.rowKey = k ∧ x.column = c

def sortByTime (l : List StoredCell) : List StoredCell :=
  l.insertionSort fun a b => b.timestamp ≤ a.timestamp

theorem sortRows_versionsIn (k : Bytes) (c : Column) (l : List StoredCell) :
    sortRows (versionsIn k c l) = sortByTime (versionsIn k c l) := by
  refine StableSort.insertionSort_congr fun x hx y hy => ?_
  obtain ⟨hxk,hxc⟩ := of_decide_eq_true (List.mem_filter.mp hx).2
  obtain ⟨hyk,hyc⟩ := of_decide_eq_true (List.mem_filter.mp hy).2
  simp [sortKey,Prod.Lex.toLex_le_toLex,hxk,hyk,hxc,hyc]

theorem timePredicate_unbounded (x : StoredCell) : timePredicate .unbounded x = true := by
  simp [timePredicate,Window.unbounded]

theorem mem_versionsIn {k : Bytes} {c : Column} {l : List StoredCell} {x : StoredCell} :
    x ∈ versionsIn k c l ↔ x ∈ l ∧ x.rowKey = k ∧ x.column = c := by
  simp [versionsIn]

theorem sortByTime_eq_nil {l : List StoredCell} : sortByTime l = [] ↔ l = [] := by
  rw [← List.length_eq_zero_iff,sortByTime,List.length_insertionSort,List.length_eq_zero_iff]

section Client

variable {V : Type} (reg : Registry V)

def columnDict (cells : List StoredCell) : Dict Column (List (Cell V)) :=
  (Dict.group (·.column) cells).mapValues fun c l => l.map fun x =>
    ⟨reg.deserialize c x.value,x.timestamp⟩

/-- The loop of `rows_to_column_dicts` skips the cells without an attribute and those not wanted. -/
def kept (wanted : Option (List Column)) (rows : List StoredCell) : List StoredCell :=
  rows.filter fun x => reg.registered x.column ∧ ∀ cs ∈ wanted, x.column ∈ cs

/-- What is returned of one row: for one attribute `column_dict.get(single_column, [])`. -/
def rowData (columns : Columns) (cells : List StoredCell) : RowData V :=
  match columns with
  | .one c => .cells (((columnDict reg cells).get? c).getD [])
  | _ => .columns (columnDict reg cells)

def columnDicts (columns : Columns) (wanted : Option (List Column)) (rows : List StoredCell) :
    Dict Bytes (RowData V) :=
  (Dict.group (·.rowKey) (kept reg wanted (sortRows rows))).mapValues fun _ => rowData reg columns

/-- `except KeyError` is for the cells without an attribute, whose name `from_key` decodes for its
report: a name that is not UTF-8 raises. -/
def rowsToColumnDicts (columns : Columns) (wanted : Option (List Column)) (rows : List StoredCell) :
    Except ReadError (Dict Bytes (RowData V)) :=
  match (sortRows rows).find? fun x => reg.registered x.column = false ∧ ¬ x.column.Decodable with
  | some x => .error (.undecodableName x.column)
  | none => .ok (columnDicts reg columns wanted rows)

variable (a : Arrangement) (table : List StoredCell)

def selectRowsOnce (rows : RowSelection) (columns : Columns) (w : Window) :
    Except ReadError (List StoredCell) := do
  return select a table (← buildPredicate rows columns w)

def matchingUserRowKeys (rows : RowSelection) (userId : Text) (w : Window) :
    Except ReadError (List Bytes) := do
  let byRow ← rowKeyPredicate rows
  let cells := select a table fun x => byRow x && timePredicate w x && userPredicate userId x
  return (cells.map (·.rowKey)).dedup.insertionSort (· ≤ ·)

/-- The row arguments after the user query: its keys take the place of keys and range. -/
def userSelection (rows : RowSelection) (w : Window) :
    Option Text → Except ReadError RowSelection
  | none => .ok rows
  | some u => do return .ofKeys (← matchingUserRowKeys a table rows u w)

/-- The table rows of a range, or of the row keys, some keys at a time. -/
def selectRows (maxRowKeyCount : ℕ) (rows : RowSelection) (columns : Columns) (w : Window) :
    Except ReadError (List StoredCell) :=
  match rows.rowKeys with
  | some ks => do
    let parts ← (chunked maxRowKeyCount ks).mapM fun chunk =>
      selectRowsOnce a table (.ofKeys chunk) columns w
    return parts.flatten
  | none => selectRowsOnce a table rows columns w

def readByteRows (maxRowKeyCount : ℕ) (rows : RowSelection) (columns : Columns) (w : Window)
    (userId : Option Text) : Except ReadError (Dict Bytes (RowData V)) :=
  if rows.rowKeys = none ∧ (rows.startKey = none ∨ rows.endKey = none) then .error .precondition
  else do
    let rows ← userSelection a table rows w userId
    let rawRows ← selectRows a table maxRowKeyCount rows columns w
    rowsToColumnDicts reg columns (← normalizeColumns columns) rawRows

def readByteRow (maxRowKeyCount : ℕ) (rowKey : Bytes) (columns : Columns) (w : Window) :
    Except ReadError (RowData V) := do
  let rows ← readByteRows reg a table maxRowKeyCount (.ofKeys [rowKey]) columns w none
  return (rows.get? rowKey).getD (rowData reg columns [])

def rowCells (columns : Columns) (w : Window) (k : Bytes) : List StoredCell :=
  table.filter fun x => x.rowKey = k ∧ reg.registered x.column ∧ columns.Requests x.column ∧
    timePredicate w x = true

def rowResult (columns : Columns) (cells : List StoredCell) : Option (RowData V) :=
  if cells = [] then none else some (rowData reg columns (sortRows cells))

variable {table a}

theorem filter_sortRows (p : Predicate) (l : List StoredCell) :
    (sortRows l).filter p = sortRows (l.filter p) := by
  have : Std.Total fun x y : StoredCell => sortKey y ≤ sortKey x := ⟨fun _ _ => le_total _ _⟩
  have : IsTrans StoredCell fun x y => sortKey y ≤ sortKey x :=
    ⟨fun _ _ _ hxy hyz => le_trans hyz hxy⟩
  exact StableSort.filter_insertionSort p l

theorem sortRows_eq_nil {l : List StoredCell} : sortRows l = [] ↔ l = [] := by
  rw [← List.length_eq_zero_iff,sortRows,List.length_insertionSort,List.length_eq_zero_iff]

def delivered (columns : Columns) (rows : List StoredCell) (k : Bytes) : List StoredCell :=
  (kept reg columns.toList rows).filter fun x => x.rowKey = k

/-- Every name is decoded: attributes have decodable ones. -/
theorem rowsToColumnDicts_eq (columns : Columns) (wanted : Option (List Column))
    (rows : List StoredCell) : rowsToColumnDicts reg columns wanted rows =
      (decodeNames (sortRows rows)).map fun _ => columnDicts reg columns wanted rows := by
  have hname : (fun x : StoredCell => decide (reg.registered x.column = false ∧ ¬ x.column.Decodable)) =
      fun x => decide ¬ x.column.Decodable := funext fun x => decide_eq_decide.mpr
    (and_iff_right_of_imp fun hnot => by
      cases hreg : reg.registered x.column with
      | false => rfl
      | true => exact absurd (reg.decodable _ hreg) hnot)
  rw [rowsToColumnDicts,decodeNames,hname]
  cases (sortRows rows).find? fun x => ¬ x.column.Decodable <;> rfl

theorem get?_columnDicts (columns : Columns) (rows : List StoredCell) (k : Bytes) :
    (columnDicts reg columns columns.toList rows).get? k =
      rowResult reg columns (delivered reg columns rows k) := by
  have hsort : (kept reg columns.toList (sortRows rows)).filter (fun x => x.rowKey = k) =
      sortRows (delivered reg columns rows k) := by
    rw [kept,filter_sortRows,filter_sortRows,delivered,kept]
  rw [columnDicts,Dict.get?_mapValues,Dict.get?_group,hsort,rowResult]
  by_cases h : delivered reg columns rows k = []
  · simp [h,sortRows_eq_nil]
  · simp [h,sortRows_eq_nil]

/-- The cells of a single column are queried, or all: the columns of a longer list are looked for in
the answer. -/
def Queried (columns : Columns) (c : Column) : Prop := ∀ c', columns.toList = some [c'] → c = c'

instance (columns : Columns) (c : Column) : Decidable (Queried columns c) :=
  match h : columns.toList with
  | some [c'] => decidable_of_iff (c = c') (by simp [Queried,h])
  | none | some [] | some (_ :: _ :: _) => isTrue (by simp [Queried,h])

theorem queried_of_requests {columns : Columns} {c : Column} (h : columns.Requests c) :
    Queried columns c := fun c' hc => by simpa using h [c'] hc

def Restricts (p : Predicate) (columns : Columns) (w : Window) (selects : Bytes → Bool) : Prop :=
  ∀ x, p x = true ↔ selects x.rowKey = true ∧ Queried columns x.column ∧ timePredicate w x = true

theorem delivered_filter {p : Predicate} {columns : Columns} {w : Window} {selects : Bytes → Bool}
    (hp : Restricts p columns w selects) (k : Bytes) :
    delivered reg columns (table.filter p) k =
      if selects k then rowCells reg table columns w k else [] := by
  rw [delivered,kept,List.filter_filter,List.filter_filter]
  have hone : ∀ x, (decide (x.rowKey = k) &&
      decide (reg.registered x.column = true ∧ ∀ cs ∈ columns.toList, x.column ∈ cs) && p x) = true ↔
      selects k = true ∧ x.rowKey = k ∧ reg.registered x.column = true ∧
        columns.Requests x.column ∧ timePredicate w x = true := by
    intro x
    simp only [Bool.and_eq_true,decide_eq_true_eq]
    constructor
    · rintro ⟨⟨rfl,hreg,hreq⟩,hpx⟩
      obtain ⟨hs,-,ht⟩ := (hp x).mp hpx
      exact ⟨hs,rfl,hreg,hreq,ht⟩
    · rintro ⟨hs,rfl,hreg,hreq,ht⟩
      exact ⟨⟨rfl,hreg,hreq⟩,(hp x).mpr ⟨hs,queried_of_requests hreq,ht⟩⟩
  split
  · rename_i hs
    refine List.filter_congr fun x _ => Bool.eq_iff_iff.mpr ?_
    rw [hone,decide_eq_true_eq]
    exact and_iff_right hs
  · rename_i hs
    exact List.filter_eq_nil_iff.mpr fun x _ hx => hs ((hone x).mp hx).1

theorem delivered_select {p : Predicate} {columns : Columns} {w : Window} {selects : Bytes → Bool}
    (hp : Restricts p columns w selects) (k : Bytes) :
    (delivered reg columns (select a table p) k).Perm
      (if selects k then rowCells reg table columns w k else []) := by
  rw [← delivered_filter reg hp]
  exact (((a.perm (table.filter p)).filter _).filter _)

theorem mapM_encodeRowKey {ks : List Bytes} (h : ∀ k ∈ ks, k.toByteArray.IsValidUTF8) :
    ks.mapM encodeRowKey = .ok ks := by
  induction ks with
  | nil => rfl
  | cons k ks ih =>
    rw [List.mapM_cons,encodeRowKey,if_pos (h k List.mem_cons_self),
      ih fun k hk => h k (List.mem_cons_of_mem _ hk)]
    rfl

def Encodable (rows : RowSelection) : Prop :=
  match rows.rowKeys, rows.startKey, rows.endKey with
  | some ks, _, _ => ∀ k ∈ ks, k.toByteArray.IsValidUTF8
  | none, some s, some e => s.toByteArray.IsValidUTF8 ∧ e.toByteArray.IsValidUTF8
  | _, _, _ => True

theorem rowKeyPredicate_eq {rows : RowSelection} (hvalid : rows.Valid) (h : Encodable rows) :
    rowKeyPredicate rows = .ok fun x => rows.selects x.rowKey := by
  rcases hvalid.keys_or_range with ⟨ks,s,e,inclusive,rfl⟩ | ⟨s,e,inclusive,rfl⟩
  · simp [rowKeyPredicate,mapM_encodeRowKey h,RowSelection.selects,bind,Except.bind,pure,Except.pure]
  · simp [rowKeyPredicate,encodeRowKey,h.1,h.2,RowSelection.selects,bind,Except.bind,pure,
      Except.pure]

theorem columnPredicate_eq {columns : Columns} (hcols : columns ≠ .many []) :
    ∃ q, columnPredicate columns = .ok q ∧ ∀ x, q x = true ↔ Queried columns x.column := by
  cases columns with
  | all => exact ⟨_,rfl,fun x => by simp [Queried,Columns.toList]⟩
  | one c => exact ⟨_,rfl,fun x => by simp [Queried,Columns.toList,eq_comm]⟩
  | many cs =>
    match cs with
    | [] => exact absurd rfl hcols
    | [c] => exact ⟨_,rfl,fun x => by simp [Queried,Columns.toList,eq_comm]⟩
    | _ :: _ :: _ => exact ⟨_,rfl,fun x => by simp [Queried,Columns.toList]⟩

theorem buildPredicate_eq (rows : RowSelection) (hvalid : rows.Valid) (h : Encodable rows)
    {columns : Columns} (hcols : columns ≠ .many []) (w : Window) :
    ∃ p, buildPredicate rows columns w = .ok p ∧ Restricts p columns w rows.selects := by
  obtain ⟨q,hq,hreq⟩ := columnPredicate_eq hcols
  refine ⟨_,by rw [buildPredicate,rowKeyPredicate_eq hvalid h,hq]; rfl,fun x => ?_⟩
  rw [Bool.and_eq_true,Bool.and_eq_true,hreq,and_assoc]

theorem normalizeColumns_eq {columns : Columns} (h : columns ≠ .many []) :
    normalizeColumns columns = .ok columns.toList := by
  cases columns with
  | all | one c => rfl
  | many cs =>
    cases cs with
    | nil => exact absurd rfl h
    | cons c cs => rfl

/-- The cells of a row arrive in some order, in that of the table if the service keeps it. -/
def Arrives (a : Arrangement) (l m : List StoredCell) : Prop :=
  l.Perm m ∧ (a = .storage → l = m)

theorem Arrives.append {l m l' m' : List StoredCell} (h : Arrives a l m) (h' : Arrives a l' m') :
    Arrives a (l ++ l') (m ++ m') :=
  ⟨h.1.append h'.1,fun ha => by rw [h.2 ha,h'.2 ha]⟩

theorem exists_cell {columns : Columns} {w : Window} {k : Bytes}
    (h : rowCells reg table columns w k ≠ []) : ∃ c ∈ table, c.rowKey = k := by
  obtain ⟨c,hc⟩ := List.exists_mem_of_ne_nil _ h
  have hc' := List.mem_filter.mp hc
  exact ⟨c,hc'.1,(of_decide_eq_true hc'.2).1⟩

theorem exists_cell_of_rowResult {columns : Columns} {w : Window} {k : Bytes} {l : List StoredCell}
    (hl : Arrives a l (rowCells reg table columns w k)) (h : rowResult reg columns l ≠ none) :
    ∃ c ∈ table, c.rowKey = k := by
  have hcells : rowCells reg table columns w k ≠ [] := fun hnil => by
    rw [hnil] at hl
    rw [hl.1.eq_nil,rowResult,if_pos rfl] at h
    exact h rfl
  exact exists_cell reg hcells

theorem mem_select {p : Predicate} {x : StoredCell} :
    x ∈ select a table p ↔ x ∈ table ∧ p x = true := by
  rw [select,(a.perm _).mem_iff,List.mem_filter]

variable (a table)

theorem arrives_select {p : Predicate} {columns : Columns} {w : Window} {selects : Bytes → Bool}
    (hp : Restricts p columns w selects) (k : Bytes) :
    Arrives a (delivered reg columns (select a table p) k)
      (if selects k then rowCells reg table columns w k else []) := by
  refine ⟨delivered_select reg hp k,?_⟩
  rintro rfl
  exact delivered_filter reg hp k

theorem delivered_append (columns : Columns) (l m : List StoredCell) (k : Bytes) :
    delivered reg columns (l ++ m) k = delivered reg columns l k ++ delivered reg columns m k := by
  simp only [delivered,kept,List.filter_append]

/-- The queries for runs of keys deliver a row once for every run that names it. -/
theorem selectChunks_copies {columns : Columns} (hcols : columns ≠ .many []) (w : Window)
    (chunks : List (List Bytes)) (h : ∀ k ∈ chunks.flatten, k.toByteArray.IsValidUTF8) :
    ∃ parts, chunks.mapM (fun chunk => selectRowsOnce a table (.ofKeys chunk) columns w) = .ok parts ∧
      (∀ x, x ∈ parts.flatten ↔ x ∈ table ∧ x.rowKey ∈ chunks.flatten ∧ Queried columns x.column ∧
        timePredicate w x = true) ∧
      ∀ k, Arrives a (delivered reg columns parts.flatten k)
        (List.replicate (chunks.countP fun chunk => k ∈ chunk)
          (rowCells reg table columns w k)).flatten := by
  induction chunks with
  | nil => exact ⟨[],rfl,by simp,fun k => by simp [Arrives,delivered,kept]⟩
  | cons chunk chunks ih =>
    rw [List.flatten_cons] at h
    obtain ⟨p,hp,hr⟩ := buildPredicate_eq (.ofKeys chunk) (Or.inl (by simp [RowSelection.ofKeys]))
      (fun k hk => h k (List.mem_append_left _ hk)) hcols w
    obtain ⟨parts,hparts,hmem,hrest⟩ := ih fun k hk => h k (List.mem_append_right _ hk)
    refine ⟨select a table p :: parts,?_,fun x => ?_,fun k => ?_⟩
    · rw [List.mapM_cons,selectRowsOnce,hp,hparts]
      rfl
    · rw [List.flatten_cons,List.mem_append,hmem,mem_select,hr,List.flatten_cons,List.mem_append]
      simp only [RowSelection.ofKeys,RowSelection.selects,decide_eq_true_eq]
      tauto
    · have hone := arrives_select reg a table hr k
      simp only [RowSelection.ofKeys,RowSelection.selects,decide_eq_true_eq] at hone
      have hboth := hone.append (hrest k)
      rw [List.flatten_cons,delivered_append]
      by_cases hk : k ∈ chunk
      · rw [List.countP_cons_of_pos (by simpa using hk),List.replicate_succ,List.flatten_cons]
        simpa only [hk,if_true] using hboth
      · rw [List.countP_cons_of_neg (by simpa using hk)]
        simpa only [hk,if_false,List.nil_append] using hboth

theorem countP_of_nodup {chunks : List (List Bytes)} (h : chunks.flatten.Nodup) (k : Bytes) :
    (chunks.countP fun chunk => k ∈ chunk) = if k ∈ chunks.flatten then 1 else 0 := by
  induction chunks with
  | nil => rfl
  | cons chunk chunks ih =>
    rw [List.flatten_cons,List.nodup_append] at h
    rw [List.flatten_cons]
    by_cases hk : k ∈ chunk
    · have hnot : k ∉ chunks.flatten := fun hm => h.2.2 k hk k hm rfl
      rw [List.countP_cons_of_pos (by simpa using hk),ih h.2.1,if_neg hnot,
        if_pos (List.mem_append_left _ hk)]
    · rw [List.countP_cons_of_neg (by simpa using hk),ih h.2.1]
      simp only [List.mem_append,hk,false_or]

theorem selectChunks {columns : Columns} (hcols : columns ≠ .many []) (w : Window)
    (chunks : List (List Bytes)) (h : ∀ k ∈ chunks.flatten, k.toByteArray.IsValidUTF8)
    (hnodup : chunks.flatten.Nodup) :
    ∃ parts, chunks.mapM (fun chunk => selectRowsOnce a table (.ofKeys chunk) columns w) = .ok parts ∧
      (∀ x, x ∈ parts.flatten ↔ x ∈ table ∧ x.rowKey ∈ chunks.flatten ∧ Queried columns x.column ∧
        timePredicate w x = true) ∧
      ∀ k, Arrives a (delivered reg columns parts.flatten k)
        (if k ∈ chunks.flatten then rowCells reg table columns w k else []) := by
  obtain ⟨parts,hparts,hmem,harrives⟩ := selectChunks_copies reg a table hcols w chunks h
  refine ⟨parts,hparts,hmem,fun k => ?_⟩
  have hk := harrives k
  rw [countP_of_nodup hnodup] at hk
  split at hk
  · rename_i hmem
    simpa only [hmem,if_true,List.replicate_one,List.flatten_singleton] using hk
  · rename_i hmem
    simpa only [hmem,if_false,List.replicate_zero,List.flatten_nil] using hk

theorem selectRows_spec {maxRowKeyCount : ℕ} (rows : RowSelection) (hvalid : rows.Valid)
    (hmax : rows.rowKeys ≠ none → 0 < maxRowKeyCount) (henc : Encodable rows)
    (hnodup : ∀ ks ∈ rows.rowKeys, ks.Nodup)
    {columns : Columns} (hcols : columns ≠ .many []) (w : Window) :
    ∃ raw, selectRows a table maxRowKeyCount rows columns w = .ok raw ∧
      (∀ x, x ∈ raw ↔ x ∈ table ∧ rows.selects x.rowKey = true ∧ Queried columns x.column ∧
        timePredicate w x = true) ∧
      ∀ k, Arrives a (delivered reg columns raw k)
        (if rows.selects k then rowCells reg table columns w k else []) := by
  obtain ⟨rowKeys,startKey,endKey,inclusive⟩ := rows
  cases rowKeys with
  | some ks =>
    have hflat := flatten_chunked (hmax (by simp)) ks
    obtain ⟨parts,hparts,hmem,harrives⟩ := selectChunks reg a table hcols w
      (chunked maxRowKeyCount ks) (by rwa [hflat]) (by rw [hflat]; exact hnodup ks rfl)
    refine ⟨parts.flatten,by simp only [selectRows,hparts]; rfl,fun x => ?_,fun k => ?_⟩
    · rw [hmem,hflat]
      simp [RowSelection.selects]
    · have := harrives k
      rw [hflat] at this
      simpa [RowSelection.selects] using this
  | none =>
    obtain ⟨p,hp,hr⟩ := buildPredicate_eq _ hvalid henc hcols w
    exact ⟨select a table p,by simp only [selectRows,selectRowsOnce,hp]; rfl,
      fun x => mem_select.trans (and_congr_right fun _ => hr x),arrives_select reg a table hr⟩

/-- A read of a range, or of distinct keys: the cells that the queries deliver, and what is returned
when all of their names can be decoded. -/
theorem readByteRows_eq (maxRowKeyCount : ℕ) (rows : RowSelection) (hvalid : rows.Valid)
    (hmax : rows.rowKeys ≠ none → 0 < maxRowKeyCount) (henc : Encodable rows)
    (hnodup : ∀ ks ∈ rows.rowKeys, ks.Nodup)
    {columns : Columns} (hcols : columns ≠ .many []) (w : Window) :
    ∃ raw d, readByteRows reg a table maxRowKeyCount rows columns w none =
        ((decodeNames (sortRows raw)).map fun _ => d) ∧
      (∀ x, x ∈ raw ↔ x ∈ table ∧ rows.selects x.rowKey = true ∧ Queried columns x.column ∧
        timePredicate w x = true) ∧
      ∀ k, ∃ l, Arrives a l (if rows.selects k then rowCells reg table columns w k else []) ∧
        d.get? k = rowResult reg columns l := by
  obtain ⟨raw,hraw,hmem,harrives⟩ := selectRows_spec reg a table rows hvalid hmax henc hnodup hcols w
  refine ⟨raw,columnDicts reg columns columns.toList raw,?_,hmem,fun k =>
    ⟨_,harrives k,get?_columnDicts reg columns raw k⟩⟩
  simp only [readByteRows,if_neg (RowSelection.valid_iff.mp hvalid),userSelection,
    normalizeColumns_eq hcols]
  simp only [bind,Except.bind,hraw,rowsToColumnDicts_eq]

def NamesDecodable (columns : Columns) (w : Window) : Prop :=
  ∀ x ∈ table, Queried columns x.column → timePredicate w x = true → x.column.Decodable

variable {reg a table}

theorem namesDecodable_of_registered (h : ∀ x ∈ table, reg.registered x.column = true)
    (columns : Columns) (w : Window) : NamesDecodable table columns w :=
  fun x hx _ _ => reg.decodable _ (h x hx)

theorem namesDecodable_one {c : Column} (hc : reg.registered c = true) (w : Window) :
    NamesDecodable table (.one c) w := fun x _ hx _ => by
  rw [hx c rfl]
  exact reg.decodable c hc

theorem mem_sortRows {l : List StoredCell} {x : StoredCell} : x ∈ sortRows l ↔ x ∈ l :=
  List.mem_insertionSort _

variable (reg a table)

/-- A read of a range, or of distinct keys, returns of every selected row its cells. -/
theorem readByteRows_spec (maxRowKeyCount : ℕ) (rows : RowSelection) (hvalid : rows.Valid)
    (hmax : rows.rowKeys ≠ none → 0 < maxRowKeyCount) (henc : Encodable rows)
    (hnodup : ∀ ks ∈ rows.rowKeys, ks.Nodup)
    {columns : Columns} (hcols : columns ≠ .many []) {w : Window}
    (hnames : NamesDecodable table columns w) :
    ∃ d, readByteRows reg a table maxRowKeyCount rows columns w none = .ok d ∧
      ∀ k, ∃ l, Arrives a l (if rows.selects k then rowCells reg table columns w k else []) ∧
        d.get? k = rowResult reg columns l := by
  obtain ⟨raw,d,hd,hmem,hget⟩ := readByteRows_eq reg a table maxRowKeyCount rows hvalid hmax henc
    hnodup hcols w
  refine ⟨d,?_,hget⟩
  rw [hd,decodeNames_of_decodable fun x hx => ?_]
  · rfl
  · obtain ⟨hx,-,hq,ht⟩ := (hmem x).mp (mem_sortRows.mp hx)
    exact hnames x hx hq ht

/-- The names of all cells that are queried of the row are decoded. -/
theorem readByteRow_eq {maxRowKeyCount : ℕ} (hmax : 0 < maxRowKeyCount) {k : Bytes}
    (hk : k.toByteArray.IsValidUTF8) {columns : Columns} (hcols : columns ≠ .many []) (w : Window) :
    ∃ raw l, readByteRow reg a table maxRowKeyCount k columns w =
        ((decodeNames raw).map fun _ => (rowResult reg columns l).getD (rowData reg columns [])) ∧
      (∀ x, x ∈ raw ↔ x ∈ table ∧ x.rowKey = k ∧ Queried columns x.column ∧
        timePredicate w x = true) ∧
      Arrives a l (rowCells reg table columns w k) := by
  obtain ⟨raw,d,hd,hmem,hget⟩ := readByteRows_eq reg a table maxRowKeyCount (.ofKeys [k])
    (Or.inl (by simp [RowSelection.ofKeys])) (fun _ => hmax)
    (by simpa [Encodable,RowSelection.ofKeys] using hk)
    (by simp [RowSelection.ofKeys]) hcols w
  obtain ⟨l,hl,hrow⟩ := hget k
  simp only [RowSelection.ofKeys,RowSelection.selects,List.mem_singleton,decide_true,if_true] at hl
  refine ⟨sortRows raw,l,?_,fun x => ?_,hl⟩
  · rw [readByteRow,hd,← hrow]
    cases decodeNames (sortRows raw) <;> rfl
  · rw [mem_sortRows,hmem]
    simp [RowSelection.ofKeys,RowSelection.selects]

theorem readByteRow_spec {maxRowKeyCount : ℕ} (hmax : 0 < maxRowKeyCount) {k : Bytes}
    (hk : k.toByteArray.IsValidUTF8) {columns : Columns} (hcols : columns ≠ .many []) {w : Window}
    (hnames : ∀ x ∈ table, x.rowKey = k → Queried columns x.column → timePredicate w x = true →
      x.column.Decodable) :
    ∃ l, Arrives a l (rowCells reg table columns w k) ∧
      readByteRow reg a table maxRowKeyCount k columns w =
        .ok ((rowResult reg columns l).getD (rowData reg columns [])) := by
  obtain ⟨raw,l,hread,hmem,hl⟩ := readByteRow_eq reg a table hmax hk hcols w
  refine ⟨l,hl,?_⟩
  rw [hread,decodeNames_of_decodable fun x hx => ?_]
  · rfl
  · obtain ⟨hx,hrow,hq,ht⟩ := (hmem x).mp hx
    exact hnames x hx hrow hq ht

theorem rowResult_one {k : Bytes} {c : Column} {l : List StoredCell}
    (hl : ∀ x ∈ l, x.rowKey = k ∧ x.column = c) :
    rowResult reg (.one c) l = if l = [] then none else
      some (.cells ((sortByTime l).map fun x => ⟨reg.deserialize c x.value,x.timestamp⟩)) := by
  have hall : versionsIn k c l = l := List.filter_eq_self.mpr fun x hx => decide_eq_true (hl x hx)
  have hsort : sortRows l = sortByTime l := by
    have := sortRows_versionsIn k c l
    rwa [hall] at this
  have hcolumn : (sortByTime l).filter (fun x => x.column = c) = sortByTime l :=
    List.filter_eq_self.mpr fun x hx =>
      decide_eq_true (hl x ((List.mem_insertionSort _).mp hx)).2
  rw [rowResult]
  split
  · rfl
  · rename_i hne
    have hdata : ((columnDict reg (sortByTime l)).get? c).getD [] =
        (sortByTime l).map fun x => ⟨reg.deserialize c x.value,x.timestamp⟩ := by
      rw [columnDict,Dict.get?_mapValues,Dict.get?_group]
      simp [hcolumn,sortByTime_eq_nil,hne]
    rw [hsort]
    exact congrArg (fun l => some (RowData.cells l)) hdata

theorem rowCells_one {c : Column} (hc : reg.registered c = true) (w : Window) (k : Bytes) :
    rowCells reg table (.one c) w k = (versionsIn k c table).filter (timePredicate w) := by
  rw [rowCells,versionsIn,List.filter_filter]
  refine List.filter_congr fun x _ => Bool.eq_iff_iff.mpr ?_
  simp only [Columns.Requests,Columns.toList,Option.mem_def,Option.some.injEq,forall_eq',
    List.mem_singleton,decide_eq_true_eq,Bool.and_eq_true]
  constructor
  · rintro ⟨hrow,_,hcolumn,ht⟩
    exact ⟨ht,hrow,hcolumn⟩
  · rintro ⟨ht,hrow,hcolumn⟩
    exact ⟨hrow,hcolumn ▸ hc,hcolumn,ht⟩

/-- A read of one attribute of a row returns its cells sorted by time. -/
theorem readByteRow_one {maxRowKeyCount : ℕ} (hmax : 0 < maxRowKeyCount) {k : Bytes}
    (hk : k.toByteArray.IsValidUTF8) {c : Column} (hc : reg.registered c = true) (w : Window) :
    ∃ l, Arrives a l ((versionsIn k c table).filter (timePredicate w)) ∧
      readByteRow reg a table maxRowKeyCount k (.one c) w =
        .ok (.cells ((sortByTime l).map fun x => ⟨reg.deserialize c x.value,x.timestamp⟩)) := by
  obtain ⟨l,hl,hread⟩ := readByteRow_spec reg a table hmax hk (show Columns.one c ≠ .many [] by simp)
    fun x hx _ hq ht => namesDecodable_one hc w x hx hq ht
  rw [rowCells_one reg table hc] at hl
  refine ⟨l,hl,hread.trans (congrArg Except.ok ?_)⟩
  rw [rowResult_one reg fun x hx =>
    (mem_versionsIn.mp (List.mem_filter.mp (hl.1.mem_iff.mp hx)).1).2]
  split
  · rename_i hnil
    rw [hnil]
    rfl
  · rfl

end Client

end Vast
end KvdbClient
