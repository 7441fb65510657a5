import KvdbClient.AttributeRegistry

/-! Reads of nodes with `attr_keys=False`: columns under their qualifiers, without their families. -/
namespace KvdbClient

/-- `{k.key: v for k, v in data.items()}`. -/
def byKey {β : Type} (d : Dict Column β) : Dict Bytes β :=
  d.entries.foldl (fun r e => r.set e.1.key e.2) .empty

/-- An error of the read, or `AttributeError` for a row that is a list of cells. -/
inductive ItemsError
  | read (e : ReadError)
  | noItems
  deriving DecidableEq

def RowData.items {V : Type} : RowData V → Except ItemsError (Dict Column (List (Cell V)))
  | .columns d => .ok d
  | .cells _ => .error .noItems

/-- `read_nodes` with `attr_keys=False`. -/
def readNodesByKey {V : Type}
    (readByteRows : RowSelection → Except ReadError (Dict Bytes (RowData V)))
    (maxRowKeyCount : ℕ) (s : NodeSelection) (fakeEdges : Bool) :
    Except ItemsError (Dict ℕ (Dict Bytes (List (Cell V)))) := do
  let rows ← (readByteRows (s.toRows maxRowKeyCount fakeEdges)).mapError .read
  rows.entries.foldlM (fun r e => do
    return r.set (← (deserializeUint64 e.1 fakeEdges).mapError .read) (byKey (← e.2.items))) .empty

/-- The row under qualifiers has as many columns as under attributes, with the same cells. -/
def KeepsColumns {β : Type} (d : Dict Column β) (e : Dict Bytes β) : Prop :=
  e.entries.length = d.entries.length ∧ ∀ c l, d.get? c = some l → e.get? c.key = some l

section Keys

variable {β : Type}

theorem mem_keys_foldl_key (es : List (Column × β)) (r : Dict Bytes β) (k : Bytes) :
    k ∈ (es.foldl (fun r e => r.set e.1.key e.2) r).keys ↔
      k ∈ es.map (fun e => e.1.key) ∨ k ∈ r.keys := by
  induction es generalizing r with
  | nil => simp
  | cons e es ih =>
    have hset : k ∈ (r.set e.1.key e.2).keys ↔ k = e.1.key ∨ k ∈ r.keys := Dict.mem_keys_assign
    rw [List.foldl_cons,ih,hset,List.map_cons,List.mem_cons]
    tauto

theorem map_key_keys (d : Dict Column β) : d.keys.map Column.key = d.entries.map fun e => e.1.key :=
  List.map_map

theorem mem_keys_byKey {d : Dict Column β} {k : Bytes} :
    k ∈ (byKey d).keys ↔ k ∈ d.keys.map Column.key := by
  rw [byKey,mem_keys_foldl_key,map_key_keys]
  exact or_iff_left (List.not_mem_nil (a := k))

theorem get?_foldl_key {es : List (Column × β)} (h : (es.map fun e => e.1.key).Nodup)
    {e : Column × β} (he : e ∈ es) (r : Dict Bytes β) :
    (es.foldl (fun r e => r.set e.1.key e.2) r).get? e.1.key = some e.2 := by
  have hkept : ∀ (es : List (Column × β)) (r : Dict Bytes β) (k : Bytes),
      k ∉ es.map (fun e => e.1.key) →
        (es.foldl (fun r e => r.set e.1.key e.2) r).get? k = r.get? k := by
    intro es
    induction es with
    | nil => exact fun _ _ _ => rfl
    | cons e es ih =>
      intro r k hk
      rw [List.map_cons,List.mem_cons,not_or] at hk
      rw [List.foldl_cons,ih _ _ hk.2,Dict.get?_set,if_neg (Ne.symm hk.1)]
  induction es generalizing r with
  | nil => cases he
  | cons e' es ih =>
    rw [List.map_cons,List.nodup_cons] at h
    rw [List.foldl_cons]
    rcases List.mem_cons.mp he with rfl | he
    · rw [hkept _ _ _ h.1,Dict.get?_set,if_pos rfl]
    · exact ih h.2 he _

/-- Nothing is lost exactly when no two columns have the same qualifier. -/
theorem keepsColumns_byKey_iff (d : Dict Column β) :
    KeepsColumns d (byKey d) ↔ Set.InjOn Column.key {c | c ∈ d.keys} := by
  have hnodup : (d.keys.map Column.key).Nodup ↔ Set.InjOn Column.key {c | c ∈ d.keys} :=
    List.nodup_map_iff_inj_on d.nodup
  rw [← hnodup]
  constructor
  · rintro ⟨hlength,-⟩
    have hsub : (byKey d).keys.Subperm (d.keys.map Column.key) :=
      (byKey d).nodup.subperm fun k hk => mem_keys_byKey.mp hk
    have hperm : (byKey d).keys.Perm (d.keys.map Column.key) := hsub.perm_of_length_le (by
      simp only [Dict.keys,List.length_map] at hlength ⊢
      omega)
    exact hperm.nodup_iff.mp (byKey d).nodup
  · intro h
    refine ⟨?_,fun c l hget => ?_⟩
    · have hperm : (byKey d).keys.Perm (d.keys.map Column.key) :=
        (List.perm_ext_iff_of_nodup (byKey d).nodup h).mpr fun k => mem_keys_byKey
      simpa [Dict.keys] using hperm.length_eq
    · exact get?_foldl_key (map_key_keys d ▸ h) (Dict.get?_eq_some.mp hget) .empty

end Keys

section Reads

variable {V : Type}

def IsByKey (x : RowData V) (e : Dict Bytes (List (Cell V))) : Prop :=
  ∃ d, x = .columns d ∧ e = byKey d

theorem foldlM_byKey {fakeEdges : Bool} (es : List (Bytes × RowData V))
    (hcolumns : ∀ e ∈ es, ∃ d, e.2 = .columns d) {r out : Dict ℕ (RowData V)}
    {r' : Dict ℕ (Dict Bytes (List (Cell V)))}
    (hr : ∀ id, Option.Rel IsByKey (r.get? id) (r'.get? id))
    (hout : es.foldlM (fun r e => do return r.set (← deserializeUint64 e.1 fakeEdges) e.2) r =
      .ok out) :
    ∃ out', es.foldlM (fun r e => do
        return r.set (← (deserializeUint64 e.1 fakeEdges).mapError ItemsError.read)
          (byKey (← e.2.items))) r' = .ok out' ∧
      ∀ id, Option.Rel IsByKey (out.get? id) (out'.get? id) := by
  induction es generalizing r r' with
  | nil =>
    cases hout
    exact ⟨r',rfl,hr⟩
  | cons e es ih =>
    obtain ⟨d,hd⟩ := hcolumns e List.mem_cons_self
    rw [List.foldlM_cons] at hout ⊢
    cases hid : deserializeUint64 e.1 fakeEdges with
    | error err =>
      rw [hid] at hout
      cases hout
    | ok id =>
      rw [hid] at hout
      rw [hd]
      refine ih (fun e he => hcolumns e (List.mem_cons_of_mem _ he)) (fun id' => ?_) hout
      rw [Dict.get?_set,Dict.get?_set]
      split
      · exact Option.Rel.some ⟨d,hd,rfl⟩
      · exact hr id'

/-- Without attributes as keys a read returns the same rows, each of them re-keyed. -/
theorem readNodesByKey_spec {readByteRows : RowSelection → Except ReadError (Dict Bytes (RowData V))}
    {maxRowKeyCount : ℕ} {s : NodeSelection} {fakeEdges : Bool} {d : Dict Bytes (RowData V)}
    (hd : readByteRows (s.toRows maxRowKeyCount fakeEdges) = .ok d)
    (hcolumns : ∀ k x, d.get? k = some x → ∃ e, x = .columns e) {r : Dict ℕ (RowData V)}
    (hr : readNodes readByteRows maxRowKeyCount s fakeEdges = .ok r) :
    ∃ r', readNodesByKey readByteRows maxRowKeyCount s fakeEdges = .ok r' ∧
      ∀ id, Option.Rel IsByKey (r.get? id) (r'.get? id) := by
  simp only [readNodes,hd,bind,Except.bind] at hr
  simp only [readNodesByKey,hd,Except.mapError,bind,Except.bind]
  exact foldlM_byKey d.entries (fun e he => hcolumns e.1 e.2 (Dict.get?_eq_some.mpr he))
    (fun _ => Option.Rel.none) hr

def KeepsRow (x : RowData V) (e : Dict Bytes (List (Cell V))) : Prop :=
  ∃ d, x = .columns d ∧ KeepsColumns d e

/-- A read of nodes without attributes as keys keeps every row of the read with them. -/
def KeepsRowsByKey (readByteRows : RowSelection → Except ReadError (Dict Bytes (RowData V)))
    (maxRowKeyCount : ℕ) (s : NodeSelection) (fakeEdges : Bool) : Prop :=
  ∀ r, readNodes readByteRows maxRowKeyCount s fakeEdges = .ok r →
    ∃ r', readNodesByKey readByteRows maxRowKeyCount s fakeEdges = .ok r' ∧
      ∀ id, Option.Rel KeepsRow (r.get? id) (r'.get? id)

/-- Of these cells a dictionary of their columns is returned, if there are any. -/
def HasColumns (cells : List StoredCell) (r : Option (RowData V)) : Prop :=
  if cells = [] then r = none
  else ∃ d, r = some (.columns d) ∧ ∀ c, c ∈ d.keys ↔ ∃ x ∈ cells, x.column = c

theorem HasColumns.columns {cells : List StoredCell} {x : RowData V} (h : HasColumns cells (some x)) :
    ∃ d, x = .columns d ∧ ∀ c, c ∈ d.keys ↔ ∃ x ∈ cells, x.column = c := by
  rw [HasColumns] at h
  split at h
  · cases h
  · obtain ⟨d,hd,hkeys⟩ := h
    exact ⟨d,Option.some.inj hd,hkeys⟩

theorem HasColumns.nil {cells : List StoredCell} (h : HasColumns (V := V) cells none) : cells = [] := by
  by_contra hne
  rw [HasColumns,if_neg hne] at h
  obtain ⟨d,hd,-⟩ := h
  cases hd

theorem keepsRow_iff {cells : List StoredCell} {d : Dict Column (List (Cell V))}
    (h : ∀ c, c ∈ d.keys ↔ ∃ x ∈ cells, x.column = c) :
    KeepsRow (.columns d) (byKey d) ↔ Set.InjOn Column.key {c | ∃ x ∈ cells, x.column = c} := by
  have hset : {c | c ∈ d.keys} = {c | ∃ x ∈ cells, x.column = c} := Set.ext h
  rw [← hset,← keepsColumns_byKey_iff]
  constructor
  · rintro ⟨_,⟨⟩,hkeeps⟩
    exact hkeeps
  · exact fun hkeeps => ⟨d,rfl,hkeeps⟩

theorem rel_keepsRow_iff {cells : List StoredCell} {x : Option (RowData V)}
    {e : Option (Dict Bytes (List (Cell V)))} (hrel : Option.Rel IsByKey x e)
    (h : HasColumns cells x) :
    Option.Rel KeepsRow x e ↔ Set.InjOn Column.key {c | ∃ x ∈ cells, x.column = c} := by
  rcases hrel with ⟨hbyKey⟩ | _
  · obtain ⟨d,rfl,hkeys⟩ := h.columns
    obtain ⟨_,⟨⟩,rfl⟩ := hbyKey
    rw [← keepsRow_iff hkeys]
    constructor
    · rintro ⟨hkeeps⟩
      exact hkeeps
    · exact fun hkeeps => Option.Rel.some hkeeps
  · refine iff_of_true Option.Rel.none ?_
    rw [h.nil]
    rintro c ⟨x,hx,-⟩
    cases hx

theorem mem_keys_group {α β : Type} {column : α → Column} {l : List α} {f : Column → List α → β}
    {c : Column} : c ∈ ((Dict.group column l).mapValues f).keys ↔ ∃ x ∈ l, column x = c := by
  rw [Dict.mem_keys_mapValues,Dict.mem_keys_iff,Dict.get?_group]
  split
  · rename_i hnil
    simpa using List.filter_eq_nil_iff.mp hnil
  · rename_i hne
    obtain ⟨x,hx⟩ := List.exists_mem_of_ne_nil _ hne
    obtain ⟨hx,hc⟩ := List.mem_filter.mp hx
    exact iff_of_true ⟨_,rfl⟩ ⟨x,hx,of_decide_eq_true hc⟩

end Reads

section Clients

variable {V : Type} {reg : Registry V} {content : List StoredCell} {maxRowKeyCount : ℕ}
  {rows : RowSelection} {columns : Columns} {w : Window} {userId : Option Text}

def Columns.AreListed (columns : Columns) : Prop := ∀ c, columns ≠ .one c

namespace BigTable

theorem apply_getUserFilter (u : Text) (cells : List Cell) :
    ((∃ x ∈ cells, x.column.key = OperationLogs.userId.key ∧ x.value = encodeUtf8 u) ∧
      (getUserFilter u).apply cells = cells) ∨
    (¬ (∃ x ∈ cells, x.column.key = OperationLogs.userId.key ∧ x.value = encodeUtf8 u) ∧
      (getUserFilter u).apply cells = []) := by
  rw [← matches_getUserFilter,Matches,getUserFilter,RowFilter.apply]
  split
  · exact Or.inr ⟨fun h => h rfl,rfl⟩
  · rename_i hpredicate
    by_cases hnil : cells = []
    · rw [hnil,apply_nil] at hpredicate
      exact absurd rfl hpredicate
    · exact Or.inl ⟨hnil,rfl⟩

def HasUserCell (content : List StoredCell) (columns : Columns) (w : Window) (k : Bytes) (u : Text) :
    Prop :=
  ∃ x ∈ matching content columns w k, x.column.key = OperationLogs.userId.key ∧ x.value = encodeUtf8 u

theorem mem_keys_rowToColumnDict {cells : List Cell} {c : Column} :
    c ∈ (deserializeColumnDict reg (rowToColumnDict cells)).keys ↔ ∃ x ∈ cells, x.column = c := by
  rw [deserializeColumnDict,Dict.mem_keys_mapValues,rowToColumnDict,mem_keys_group]

theorem exists_mem_apply (hw : w.EndSet) {f : RowFilter}
    (hf : getTimeRangeAndColumnFilter columns w none = .ok f) {k : Bytes} {P : Column → Bytes → Prop} :
    (∃ x ∈ f.apply (rowCells (inMicros content) k), P x.column x.value) ↔
      ∃ x ∈ matching content columns w k, P x.column x.value := by
  simp only [mem_apply_iff hw hf]
  constructor
  · rintro ⟨_,⟨y,hy,rfl⟩,hP⟩
    exact ⟨y,hy,hP⟩
  · rintro ⟨y,hy,hP⟩
    exact ⟨_,⟨y,hy,rfl⟩,hP⟩

variable (reg) in
theorem rowResult_hasColumns (hw : w.EndSet) (hlisted : columns.AreListed) (hcols : columns ≠ .many [])
    {f : RowFilter} (hf : getTimeRangeAndColumnFilter columns w userId = .ok f) (k : Bytes) :
    ((∀ u ∈ userId, HasUserCell content columns w k u) →
      HasColumns (matching content columns w k) (rowResult reg (inMicros content) columns f k)) ∧
    (¬ (∀ u ∈ userId, HasUserCell content columns w k u) →
      rowResult reg (inMicros content) columns f k = none) := by
  have hplain : ∀ g, getTimeRangeAndColumnFilter columns w none = .ok g →
      HasColumns (matching content columns w k) (rowResult reg (inMicros content) columns g k) := by
    intro g hg
    rw [HasColumns,rowResult]
    by_cases hnil : matching content columns w k = []
    · rw [if_pos hnil,if_pos ((apply_eq_nil_iff hw hg).mpr hnil)]
    · rw [if_neg hnil,if_neg fun h => hnil ((apply_eq_nil_iff hw hg).mp h)]
      cases columns with
      | one c => exact absurd rfl (hlisted c)
      | all | many => exact ⟨_,rfl,fun c =>
          mem_keys_rowToColumnDict.trans (exists_mem_apply hw hg (P := fun c' _ => c' = c))⟩
  cases userId with
  | none => exact ⟨fun _ => hplain f hf,fun h => absurd (fun u hu => by cases hu) h⟩
  | some u =>
    obtain ⟨g,hg,hchain⟩ := getTimeRangeAndColumnFilter_user u w hcols
    obtain rfl : f = .chain g (getUserFilter u) := Except.ok.inj (hf.symm.trans hchain)
    have huser : (∀ u' ∈ some u, HasUserCell content columns w k u') ↔
        ∃ x ∈ g.apply (rowCells (inMicros content) k),
          x.column.key = OperationLogs.userId.key ∧ x.value = encodeUtf8 u := by
      rw [exists_mem_apply hw hg (P := fun c v => c.key = OperationLogs.userId.key ∧ v = encodeUtf8 u)]
      simp only [Option.mem_def,Option.some.injEq,forall_eq']
      rfl
    rw [huser,rowResult,apply_chain]
    rcases apply_getUserFilter u (g.apply (rowCells (inMicros content) k)) with ⟨h,happly⟩ | ⟨h,happly⟩
    · rw [happly]
      exact ⟨fun _ => hplain g hg,fun hnot => absurd h hnot⟩
    · rw [happly]
      exact ⟨fun hyes => absurd hyes h,fun _ => if_pos rfl⟩

end BigTable

theorem HBase.rowResult_hasColumns (hlisted : columns.AreListed)
    (hreg : ∀ x ∈ content, reg.registered x.column = true) (k : Bytes) :
    HasColumns (matching content columns.orAll w k) (rowResult reg content columns w k) := by
  rw [HasColumns,rowResult,rowCells_eq_matching]
  by_cases hnil : matching content columns.orAll w k = []
  · rw [if_pos hnil,if_pos hnil]
  · rw [if_neg hnil,if_neg hnil]
    have hknown : (matching content columns.orAll w k).filter (fun c => reg.registered c.column) =
        matching content columns.orAll w k :=
      List.filter_eq_self.mpr fun x hx => hreg x (List.mem_filter.mp hx).1
    cases columns with
    | one c => exact absurd rfl (hlisted c)
    | all | many =>
      refine ⟨_,rfl,fun c => ?_⟩
      rw [Dict.mem_keys_mapValues,hknown,mem_keys_group]

namespace Vast

variable {a : Arrangement}

theorem rowResult_hasColumns (hlisted : columns.AreListed)
    (hreg : ∀ x ∈ content, reg.registered x.column = true) {k : Bytes} {l : List StoredCell}
    (hl : ∀ x, x ∈ l ↔ x ∈ rowCells reg (inMicros content) columns w k) :
    HasColumns (matching content columns w k) (rowResult reg columns l) := by
  have hcells : ∀ x, x ∈ l ↔ ∃ y ∈ matching content columns w k, micros y = x := fun x => by
    rw [hl,mem_rowCells_inMicros hreg]
  have hnil : l = [] ↔ matching content columns w k = [] := by
    simp only [List.eq_nil_iff_forall_not_mem,hcells]
    exact ⟨fun h y hy => h _ ⟨y,hy,rfl⟩,fun h _ ⟨y,hy,_⟩ => h y hy⟩
  rw [HasColumns,rowResult,if_congr hnil rfl rfl]
  split
  · rfl
  · cases columns with
    | one c => exact absurd rfl (hlisted c)
    | all | many =>
      refine ⟨_,rfl,fun c => ?_⟩
      rw [columnDict,mem_keys_group]
      simp only [sortRows,List.mem_insertionSort,hcells]
      constructor
      · rintro ⟨_,⟨y,hy,rfl⟩,hc⟩
        exact ⟨y,hy,hc⟩
      · rintro ⟨y,hy,hc⟩
        exact ⟨_,⟨y,hy,rfl⟩,hc⟩

theorem readByteRows_hasColumns (hlisted : columns.AreListed) (hcols : columns ≠ .many [])
    (hreg : ∀ x ∈ content, reg.registered x.column = true) (hmax : 0 < maxRowKeyCount)
    (hvalid : rows.Valid) (henc : Encodable rows) :
    ∃ d, readByteRows reg a (inMicros content) maxRowKeyCount rows columns w none = .ok d ∧
      ∀ k, (rows.selects k = true → HasColumns (matching content columns w k) (d.get? k)) ∧
        (¬ rows.selects k = true → d.get? k = none) := by
  obtain ⟨d,hd,hget⟩ := readByteRows_cells reg a (inMicros content) hcols
    (namesDecodable_of_registered (registered_inMicros hreg) columns w) hmax hvalid henc
  refine ⟨d,hd,fun k => ?_⟩
  obtain ⟨l,hk,hl⟩ := hget k
  rw [hk]
  refine ⟨fun hsel => rowResult_hasColumns hlisted hreg fun x => (hl x).trans (and_iff_right hsel),
    fun hsel => ?_⟩
  rw [List.eq_nil_iff_forall_not_mem.mpr fun x hx => hsel ((hl x).mp hx).1]
  rfl

theorem readByteRows_emptyColumns (table : List StoredCell) :
    ∃ e, readByteRows reg a table maxRowKeyCount rows (.many []) w userId = .error e := by
  rw [readByteRows]
  split
  · exact ⟨_,rfl⟩
  · cases hrows : userSelection a table rows w userId with
    | error e => exact ⟨e,rfl⟩
    | ok rows' =>
      cases hraw : selectRows a table maxRowKeyCount rows' (.many []) w with
      | error e => exact ⟨e,by simp only [bind,Except.bind,hraw]⟩
      | ok raw => exact ⟨.emptyColumns,by simp only [bind,Except.bind,hraw]; rfl⟩

end Vast

theorem BigTable.readByteRows_emptyColumns (store : List StoredCell) :
    ∃ e, readByteRows reg maxRowKeyCount store rows (.many []) w userId = .error e := by
  rw [readByteRows]
  cases hrange : queryRange rows with
  | error e => exact ⟨e,rfl⟩
  | ok range => exact ⟨.emptyColumns,rfl⟩

end Clients

namespace Service

/-- No empty list for HBase, for which it stands for all columns. -/
def asked (columns : Columns) : Service → Columns
  | .hbase _ => columns.orAll
  | .bigTable | .vast _ => columns

/-- Which rows the service looks for when it is given a user. -/
def Passes (content : List StoredCell) (columns : Columns) (w : Window) (userId : Option Text)
    (k : Bytes) : Service → Prop
  | .bigTable => ∀ u ∈ userId, BigTable.HasUserCell content columns w k u
  | .hbase _ => True
  | .vast _ => ∀ u ∈ userId, HasUser content w k u

def KeepsRowsOf (content : List StoredCell) : Service → Prop
  | .hbase p => p.KeepsRows content
  | .bigTable | .vast _ => True

section Rows

variable {V : Type} {reg : Registry V} {content : List StoredCell} {maxRowKeyCount : ℕ}
  {rows : RowSelection} {columns : Columns} {w : Window} {userId : Option Text} {b : Service}

theorem asked_cases (columns : Columns) (b : Service) :
    (∀ (reg : Registry V) maxRowKeyCount store w userId rows,
      ∃ e, b.readByteRows reg maxRowKeyCount store columns w userId rows = .error e) ∧
        columns = .many [] ∧ b.asked columns = columns ∨
    columns ≠ .many [] ∨ ∃ p, b = .hbase p := by
  by_cases hcols : columns = .many []
  · subst hcols
    cases b with
    | bigTable => exact Or.inl ⟨fun _ _ store _ _ _ =>
        BigTable.readByteRows_emptyColumns store,rfl,rfl⟩
    | hbase p => exact Or.inr (Or.inr ⟨p,rfl⟩)
    | vast a => exact Or.inl ⟨fun _ _ store _ _ _ => Vast.readByteRows_emptyColumns store,rfl,rfl⟩
  · exact Or.inr (Or.inl hcols)

variable (w userId) in
/-- A read returns the rows it selects and that pass the user, with the columns of their matching
cells. -/
theorem readByteRows_hasColumns (hw : b = .bigTable → w.EndSet) (hb : b.KeepsRowsOf content)
    (hlisted : columns.AreListed)
    (hcols : columns ≠ .many [] ∨ ∃ p, b = .hbase p)
    (hreg : ∀ x ∈ content, reg.registered x.column = true) (hmax : 0 < maxRowKeyCount)
    (hvalid : rows.Valid) (henc : Vast.Encodable rows)
    (htext : ∀ x ∈ content, rows.selects x.rowKey = true → x.rowKey.toByteArray.IsValidUTF8) :
    ∃ d, b.readByteRows reg maxRowKeyCount (b.table content) columns w userId rows = .ok d ∧
      ∀ k, (rows.selects k = true ∧ b.Passes content columns w userId k →
          HasColumns (matching content (b.asked columns) w k) (d.get? k)) ∧
        (¬ (rows.selects k = true ∧ b.Passes content columns w userId k) → d.get? k = none) := by
  cases b with
  | bigTable =>
    have hcols : columns ≠ .many [] := hcols.resolve_right fun ⟨_,h⟩ => by cases h
    obtain ⟨f,hf⟩ := BigTable.exists_filter hcols w userId
    obtain ⟨d,hd,hget⟩ := BigTable.readByteRows_spec maxRowKeyCount rows hvalid (fun _ => hmax) hf
      fun k _ => BigTable.registered_of_store (registered_inMicros hreg) k
    refine ⟨d,hd,fun k => ?_⟩
    obtain ⟨hyes,hno⟩ := BigTable.rowResult_hasColumns reg (hw rfl) hlisted hcols hf k
    rw [hget]
    by_cases hsel : rows.selects k = true
    · rw [if_pos hsel]
      exact ⟨fun h => hyes h.2,fun h => hno fun hpass => h ⟨hsel,hpass⟩⟩
    · rw [if_neg hsel]
      exact ⟨fun h => absurd h.1 hsel,fun _ => rfl⟩
  | hbase p =>
    obtain ⟨d,hd,hget⟩ := HBase.readByteRows_spec reg columns w hb
      (HBase.namesDecodable_of_registered columns w hreg) maxRowKeyCount rows hvalid (fun _ => hmax)
      userId
    refine ⟨d,hd,fun k => ?_⟩
    rw [hget]
    by_cases hsel : rows.selects k = true
    · rw [if_pos hsel]
      exact ⟨fun _ => HBase.rowResult_hasColumns hlisted hreg k,fun h => absurd ⟨hsel,trivial⟩ h⟩
    · rw [if_neg hsel]
      exact ⟨fun h => absurd h.1 hsel,fun _ => rfl⟩
  | vast a =>
    have hcols : columns ≠ .many [] := hcols.resolve_right fun ⟨_,h⟩ => by cases h
    cases userId with
    | none =>
      obtain ⟨d,hd,hget⟩ := Vast.readByteRows_hasColumns (a := a) (w := w) hlisted hcols hreg hmax
        hvalid henc
      have hpass : ∀ k, Passes content columns w none k (.vast a) := fun k u hu => by cases hu
      refine ⟨d,hd,fun k => ⟨fun h => (hget k).1 h.1,fun h => (hget k).2 fun hsel => h ⟨hsel,hpass k⟩⟩⟩
    | some u =>
      obtain ⟨ks,-,hmem,hread⟩ := Vast.readByteRows_some reg content maxRowKeyCount columns w u a
        hvalid henc
      have hks : Vast.Encodable (.ofKeys ks) := fun k hk => by
        obtain ⟨hsel,x,hx,rfl,-⟩ := (hmem k).mp hk
        exact htext x hx hsel
      obtain ⟨d,hd,hget⟩ := Vast.readByteRows_hasColumns (a := a) (w := w) hlisted hcols hreg hmax
        (Or.inl (by simp [RowSelection.ofKeys])) hks
      have hiff : ∀ k, (RowSelection.ofKeys ks).selects k = true ↔
          rows.selects k = true ∧ Passes content columns w (some u) k (.vast a) := fun k => by
        simp only [RowSelection.ofKeys,RowSelection.selects,decide_eq_true_eq,hmem,Passes,
          Option.mem_def,Option.some.injEq,forall_eq']
      refine ⟨d,hread.trans hd,fun k => ?_⟩
      rw [← hiff]
      exact hget k

end Rows

section Nodes

variable {V : Type} {reg : Registry V} {content : List StoredCell} {maxRowKeyCount : ℕ}
  {s : NodeSelection} {fakeEdges : Bool}

theorem exists_id_of_toRows (h : OfKinds reg content) (hs : s.Valid)
    (hstart : ∀ i ∈ s.startId, i < 2^64) (hend : ∀ i ∈ s.endId, i < 2^64) {x : StoredCell}
    (hx : x ∈ content) (hsel : (s.toRows maxRowKeyCount fakeEdges).selects x.rowKey = true) :
    ∃ id < 2^64, x.rowKey = serializeUint64 id false fakeEdges := by
  obtain ⟨startId,endId,inclusive,nodeIds⟩ := s
  cases nodeIds with
  | some ids =>
    simp only [NodeSelection.toRows,RowSelection.selects,Option.map_some,decide_eq_true_eq,
      List.mem_map] at hsel
    obtain ⟨id,-,hid⟩ := hsel
    exact ⟨id,lt_of_stored h hx hid.symm,hid.symm⟩
  | none =>
    cases startId with
    | none => simp [NodeSelection.Valid] at hs
    | some startId =>
      cases endId with
      | none => simp [NodeSelection.Valid] at hs
      | some endId =>
        exact exists_id_of_selects h (hstart _ rfl) (hend _ rfl) hx hsel

variable {columns : Columns} {w : Window} {userId : Option Text} {b : Service}

variable (maxRowKeyCount fakeEdges columns w userId) in
theorem readNodes_hasColumns (h : OfKinds reg content) (hs : s.Valid)
    (hstart : ∀ i ∈ s.startId, i < 2^64) (hend : ∀ i ∈ s.endId, i < 2^64)
    (hlisted : columns.AreListed) (hcols : columns ≠ .many [] ∨ ∃ p, b = .hbase p)
    (hw : b = .bigTable → w.EndSet) (hb : b.KeepsRowsOf content) (hmax : 0 < maxRowKeyCount) :
    ∃ r r', KvdbClient.readNodes
        (b.readByteRows reg maxRowKeyCount (b.table content) columns w userId) maxRowKeyCount s
        fakeEdges = .ok r ∧
      readNodesByKey (b.readByteRows reg maxRowKeyCount (b.table content) columns w userId)
        maxRowKeyCount s fakeEdges = .ok r' ∧
      ∀ id, Option.Rel IsByKey (r.get? id) (r'.get? id) ∧
        ((s.toRows maxRowKeyCount fakeEdges).selects (serializeUint64 id false fakeEdges) = true ∧
            b.Passes content columns w userId (serializeUint64 id false fakeEdges) →
          HasColumns (matching content (b.asked columns) w (serializeUint64 id false fakeEdges))
            (r.get? id)) ∧
        (¬ ((s.toRows maxRowKeyCount fakeEdges).selects (serializeUint64 id false fakeEdges) = true ∧
            b.Passes content columns w userId (serializeUint64 id false fakeEdges)) →
          r.get? id = none) := by
  have hid : ∀ x ∈ content, (s.toRows maxRowKeyCount fakeEdges).selects x.rowKey = true →
      ∃ id < 2^64, x.rowKey = serializeUint64 id false fakeEdges := fun x hx hsel =>
    exists_id_of_toRows h hs hstart hend hx hsel
  obtain ⟨d,hd,hget⟩ := readByteRows_hasColumns w userId hw hb hlisted hcols
    h.registered hmax (hs.toRows maxRowKeyCount fakeEdges) (s.encodable_toRows _ _)
    fun x hx hsel => by
      obtain ⟨id,-,hkey⟩ := hid x hx hsel
      rw [hkey]
      exact serializeUint64_isValidUTF8 id fakeEdges
  have hsome : ∀ k x, d.get? k = some x → (s.toRows maxRowKeyCount fakeEdges).selects k = true ∧
      HasColumns (matching content (b.asked columns) w k) (some x) := fun k x hx => by
    by_cases hk : (s.toRows maxRowKeyCount fakeEdges).selects k = true ∧
        b.Passes content columns w userId k
    · exact ⟨hk.1,hx ▸ (hget k).1 hk⟩
    · rw [(hget k).2 hk] at hx
      cases hx
  obtain ⟨r,hr,hrid⟩ := readNodes_spec _ hd fun k hk => by
    obtain ⟨v,hv⟩ := Dict.mem_keys_iff.mp hk
    obtain ⟨hsel,hcolumns⟩ := hsome k v hv
    have hne : matching content (b.asked columns) w k ≠ [] := fun hnil => by
      rw [HasColumns,if_pos hnil] at hcolumns
      cases hcolumns
    obtain ⟨x,hx⟩ := List.exists_mem_of_ne_nil _ hne
    obtain ⟨hstored,hxk⟩ := List.mem_filter.mp hx
    obtain rfl := (of_decide_eq_true hxk).1
    exact hid x hstored hsel
  obtain ⟨r',hr',hrel⟩ := readNodesByKey_spec hd (fun k x hx => by
    obtain ⟨d',hd',-⟩ := (hsome k x hx).2.columns
    exact ⟨d',hd'⟩) hr
  refine ⟨r,r',hr,hr',fun id => ⟨hrel id,?_⟩⟩
  rw [hrid]
  exact hget _

/-- Reads without attributes as keys lose nothing exactly when no row they return has matching cells
in two columns of the same qualifier. Bigtable has to get the end of the window as one. -/
theorem keepsRowsByKey_iff (h : OfKinds reg content) (hs : s.Valid)
    (hstart : ∀ i ∈ s.startId, i < 2^64) (hend : ∀ i ∈ s.endId, i < 2^64)
    (hlisted : columns.AreListed) (hw : b = .bigTable → w.EndSet) (hb : b.KeepsRowsOf content)
    (hmax : 0 < maxRowKeyCount) :
    KeepsRowsByKey (b.readByteRows reg maxRowKeyCount (b.table content) columns w userId)
        maxRowKeyCount s fakeEdges ↔
      ∀ id, (s.toRows maxRowKeyCount fakeEdges).selects (serializeUint64 id false fakeEdges) = true →
        b.Passes content columns w userId (serializeUint64 id false fakeEdges) →
        Set.InjOn Column.key {c | ∃ x ∈ matching content (b.asked columns) w
          (serializeUint64 id false fakeEdges), x.column = c} := by
  rcases asked_cases (V := V) columns b with ⟨herror,rfl,hasked⟩ | hcols
  · refine iff_of_true ?_ ?_
    · intro r hr
      obtain ⟨e,he⟩ := herror reg maxRowKeyCount (b.table content) w userId
        (s.toRows maxRowKeyCount fakeEdges)
      simp only [KvdbClient.readNodes,he,bind,Except.bind] at hr
      cases hr
    · rintro id - - c ⟨x,hx,-⟩
      rw [hasked] at hx
      exact absurd (requests_of_mem_matching hx) (by simp [Columns.Requests,Columns.toList])
  obtain ⟨r,r',hr,hr',hrow⟩ := readNodes_hasColumns maxRowKeyCount fakeEdges columns w userId h hs
    hstart hend hlisted hcols hw hb hmax
  constructor
  · intro hkeeps id hsel hpass
    obtain ⟨out,hout,hkept⟩ := hkeeps r hr
    obtain rfl : out = r' := Except.ok.inj (hout.symm.trans hr')
    obtain ⟨hrel,hcolumns,-⟩ := hrow id
    exact (rel_keepsRow_iff hrel (hcolumns ⟨hsel,hpass⟩)).mp (hkept id)
  · intro hinj out hout
    obtain rfl : out = r := Except.ok.inj (hout.symm.trans hr)
    refine ⟨r',hr',fun id => ?_⟩
    obtain ⟨hrel,hcolumns,hnone⟩ := hrow id
    by_cases hk : (s.toRows maxRowKeyCount fakeEdges).selects (serializeUint64 id false fakeEdges) =
        true ∧ b.Passes content columns w userId (serializeUint64 id false fakeEdges)
    · exact (rel_keepsRow_iff hrel (hcolumns hk)).mpr (hinj id hk.1 hk.2)
    · rw [hnone hk] at hrel ⊢
      revert hrel
      generalize r'.get? id = e
      rintro ⟨⟩
      exact Option.Rel.none

end Nodes

section Examples

def nodeCells (columns : List Column) : List StoredCell :=
  columns.map fun c => ⟨serializeUint64 5 false false,c,1000,[1]⟩

def imported : Registry (Option Bytes) := (Attributes.ofProcess []).registry fun _ b => b

theorem ofKinds_nodeCells {columns : List Column} (h : ∀ c ∈ columns, imported.registered c = true) :
    OfKinds imported (nodeCells columns) where
  kind x hx := by
    obtain ⟨c,-,rfl⟩ := List.mem_map.mp hx
    exact ⟨.node 5,(by norm_num : 5 < 2^64),rfl⟩
  registered x hx := by
    obtain ⟨c,hc,rfl⟩ := List.mem_map.mp hx
    exact h c hc

def nodeColumns : List Column :=
  [NumPy.Hierarchy.child.toColumn,(AttributeArray.crossChunkEdge.getItem 3).toColumn,
    (AttributeArray.crossChunkEdge.getItem 4).toColumn]

theorem keepsRowsByKey_node : KeepsRowsByKey
    ((Service.vast .storage).readByteRows imported 1000 (inMicros (nodeCells nodeColumns)) .all
      .unbounded none) 1000 (.ofIds [5]) false := by
  have hdeclared : ∀ c ∈ nodeColumns, AttributeArray.DeclaredColumn c ∧
      c.key ≠ NumPy.Connectivity.fakeEdges.key ∧ c.key ≠ NumPy.Connectivity.affinity.key := by
    intro c hc
    simp only [nodeColumns,List.mem_cons,List.not_mem_nil,or_false] at hc
    rcases hc with rfl | rfl | rfl
    · exact ⟨Or.inl ⟨NumPy.Hierarchy.child.registered,by decide +kernel,rfl⟩,by decide +kernel⟩
    · exact ⟨Or.inr ⟨.crossChunkEdge,by decide,3,rfl⟩,by decide +kernel⟩
    · exact ⟨Or.inr ⟨.crossChunkEdge,by decide,4,rfl⟩,by decide +kernel⟩
  have hkinds : OfKinds imported (nodeCells nodeColumns) := ofKinds_nodeCells (by decide +kernel)
  refine (keepsRowsByKey_iff (b := .vast .storage) hkinds (Or.inl (by simp [NodeSelection.ofIds]))
    (by simp [NodeSelection.ofIds]) (by simp [NodeSelection.ofIds]) (fun c h => by cases h)
    (fun h => by cases h) trivial (by norm_num)).mpr fun id _ _ => ?_
  rintro c ⟨x,hx,rfl⟩ c' ⟨y,hy,rfl⟩ hkey
  obtain ⟨c,hc,rfl⟩ := List.mem_map.mp (List.mem_filter.mp hx).1
  obtain ⟨c',hc',rfl⟩ := List.mem_map.mp (List.mem_filter.mp hy).1
  obtain ⟨hd,hfake,haffinity⟩ := hdeclared c hc
  rcases AttributeArray.eq_of_declared_key hd (hdeclared c' hc').1 hkey with h | h | h
  · exact h
  · exact absurd h hfake
  · exact absurd h haffinity

def fakeEdgesColumns : List Column :=
  [NumPy.Connectivity.fakeEdgesCF3.toColumn,NumPy.Connectivity.fakeEdges.toColumn]

theorem fakeEdges_not_kept {b : Service} (hrows : b.KeepsRowsOf (nodeCells fakeEdgesColumns)) :
    ¬ KeepsRowsByKey
      (b.readByteRows imported 1000 (b.table (nodeCells fakeEdgesColumns)) .all .unbounded none) 1000
      (.ofIds [5]) false := by
  intro hkeeps
  have hpass : b.Passes (nodeCells fakeEdgesColumns) .all .unbounded none
      (serializeUint64 5 false false) := by
    cases b <;> simp [Passes]
  have hasked : b.asked .all = .all := by cases b <;> rfl
  have hkinds : OfKinds imported (nodeCells fakeEdgesColumns) :=
    ofKinds_nodeCells (by decide +kernel)
  obtain ⟨r,r',hr,hr',hrow⟩ := readNodes_hasColumns 1000 false .all .unbounded none (b := b)
    (s := .ofIds [5]) hkinds (Or.inl (by simp [NodeSelection.ofIds])) (by simp [NodeSelection.ofIds])
    (by simp [NodeSelection.ofIds]) (fun c h => by cases h) (Or.inl (by simp))
    (fun _ => Window.unbounded_endSet) hrows (by norm_num)
  obtain ⟨out,hout,hkept⟩ := hkeeps r hr
  obtain rfl : out = r' := Except.ok.inj (hout.symm.trans hr')
  obtain ⟨hrel,hcolumns,-⟩ := hrow 5
  have hinj := (rel_keepsRow_iff hrel (hcolumns ⟨by decide +kernel,hpass⟩)).mp (hkept 5)
  rw [hasked] at hinj
  have hmem : ∀ c ∈ fakeEdgesColumns, ∃ x ∈ matching (nodeCells fakeEdgesColumns) .all .unbounded
      (serializeUint64 5 false false), x.column = c := by decide +kernel
  have heq := hinj (hmem NumPy.Connectivity.fakeEdgesCF3.toColumn (by decide +kernel))
    (hmem NumPy.Connectivity.fakeEdges.toColumn (by decide +kernel)) rfl
  exact absurd heq (by decide +kernel)

/-- A row with both loses one of them on every service. -/
theorem not_keepsRowsByKey_fakeEdges :
    ¬ KeepsRowsByKey (readByteRows imported 1000 (inMicros (nodeCells fakeEdgesColumns)) .all
      .unbounded none .bigTable) 1000 (.ofIds [5]) false ∧
    ¬ KeepsRowsByKey (readByteRows imported 1000 (nodeCells fakeEdgesColumns) .all .unbounded none
      (.hbase .whole)) 1000 (.ofIds [5]) false ∧
    ¬ KeepsRowsByKey (readByteRows imported 1000 (inMicros (nodeCells fakeEdgesColumns)) .all
      .unbounded none (.vast .storage)) 1000 (.ofIds [5]) false :=
  ⟨fakeEdges_not_kept (b := .bigTable) trivial,
    fakeEdges_not_kept (b := .hbase .whole) (HBase.Paging.whole_keepsRows _),
    fakeEdges_not_kept (b := .vast .storage) trivial⟩

end Examples

end Service

end KvdbClient
