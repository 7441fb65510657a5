import KvdbClient.HBasePaging
import KvdbClient.UserFilter

/-! Reads of a list of row keys on BigTable and HBase against a lookup of every key by itself. -/
namespace KvdbClient

/-- HBase's scanner takes an empty list of columns for no restriction. -/
def Columns.orAll : Columns → Columns
  | .many [] => .all
  | cs => cs

theorem Columns.requests_orAll {cs : Columns} {c : Column} :
    cs.orAll.Requests c ↔ cs.toList.getD [] = [] ∨ c ∈ cs.toList.getD [] := by
  cases cs with
  | all | one c' => simp [orAll,toList,Requests]
  | many l =>
    cases l with
    | nil => simp [orAll,toList,Requests]
    | cons c' l => simp [orAll,toList,Requests]

def Columns.copies (columns : Columns) (c : Column) : ℕ :=
  match columns.toList with
  | none => 1
  | some cs => cs.count c

theorem Columns.copies_eq_zero_iff {columns : Columns} {c : Column} :
    columns.copies c = 0 ↔ ¬ columns.Requests c := by
  cases columns <;> simp [copies,Requests,toList,List.count_eq_zero]

abbrev RowView (V : Type) := (Column → Option (List (Cell V))) ⊕ List (Cell V)

section Lookup

variable {V : Type} (reg : Registry V) (content : List StoredCell) (columns : Columns) (w : Window)

def matching (k : Bytes) : List StoredCell :=
  content.filter fun x => x.rowKey = k ∧ columns.Requests x.column ∧ w.Contains (1000*x.timestamp)

def returned (x : StoredCell) : Cell V := ⟨reg.deserialize x.column x.value,1000*x.timestamp⟩

/-- Every cell once: under its column, or in the list of the one column asked for. -/
def viewOf (cells : List StoredCell) : RowView V :=
  match columns with
  | .one _ => .inr (cells.map (returned reg))
  | _ => .inl fun c => if cells.filter (fun x => x.column = c) = [] then none
      else some ((cells.filter fun x => x.column = c).map (returned reg))

/-- The row with all its matching cells, if it has any. -/
def pointLookup (k : Bytes) : Option (RowView V) :=
  if matching content columns w k = [] then none
  else some (viewOf reg columns (matching content columns w k))

/-- The row with those of its matching cells that have an attribute. -/
def knownLookup (k : Bytes) : Option (RowView V) :=
  if matching content columns w k = [] then none
  else some (viewOf reg columns (HBase.known reg (matching content columns w k)))

end Lookup

def BigTable.Distinct (columns : Columns) : Prop := ∀ cs, columns = .many cs → cs.Nodup

/-- The matching cells of a column, as often as it is asked for. -/
def copies (content : List StoredCell) (columns : Columns) (w : Window) (k : Bytes) (c : Column) :
    List StoredCell :=
  (List.replicate (columns.copies c)
    ((matching content columns w k).filter fun x => x.column = c)).flatten

section Copies

variable {content : List StoredCell} {columns : Columns} {w : Window} {k : Bytes} {c : Column}

theorem requests_of_mem_matching {x : StoredCell} (h : x ∈ matching content columns w k) :
    columns.Requests x.column :=
  (of_decide_eq_true (List.mem_filter.mp h).2).2.1

theorem mem_copies {x : StoredCell} :
    x ∈ copies content columns w k c ↔ x ∈ matching content columns w k ∧ x.column = c := by
  simp only [copies,List.mem_flatten,List.mem_replicate]
  constructor
  · rintro ⟨_,⟨_,rfl⟩,hx⟩
    simpa using hx
  · rintro ⟨hx,rfl⟩
    have hpos : columns.copies x.column ≠ 0 := fun h0 =>
      (Columns.copies_eq_zero_iff.mp h0) (requests_of_mem_matching hx)
    exact ⟨_,⟨hpos,rfl⟩,by simpa using hx⟩

theorem copies_eq (hd : BigTable.Distinct columns) :
    copies content columns w k c = (matching content columns w k).filter fun x => x.column = c := by
  by_cases hreq : columns.Requests c
  · have hone : columns.copies c = 1 := by
      cases columns with
      | all => rfl
      | one c' =>
        have hcc : c = c' := by simpa [Columns.Requests,Columns.toList] using hreq
        rw [hcc]
        exact List.count_singleton_self
      | many cs =>
        have hmem : c ∈ cs := by simpa [Columns.Requests,Columns.toList] using hreq
        exact List.count_eq_one_of_mem (hd cs rfl) hmem
    rw [copies,hone,List.replicate_one,List.flatten_singleton]
  · rw [copies,Columns.copies_eq_zero_iff.mpr hreq]
    refine (List.filter_eq_nil_iff.mpr fun x hx hc => hreq ?_).symm
    exact of_decide_eq_true hc ▸ requests_of_mem_matching hx

end Copies

section Backends

variable {V : Type} {reg : Registry V} {content : List StoredCell} {columns : Columns} {w : Window}
  {k : Bytes}

namespace BigTable

theorem apply_exactColumnFilter (c : Column) (cells : List Cell) :
    (exactColumnFilter c).apply cells = cells.filter fun x => x.column = c := by
  rw [exactColumnFilter,RowFilter.apply]
  refine List.filter_congr fun x _ => Bool.eq_iff_iff.mpr ?_
  simp only [decide_eq_true_eq,between_self_iff]
  cases c; cases x with
  | mk col _ _ => cases col; simp

/-- The union over columns lets the cells of a column through every time the column is listed. -/
theorem filter_apply_getColumnFilter (cs : List Column) (cells : List Cell) (c : Column) :
    ((getColumnFilter cs).apply cells).filter (fun x => x.column = c) =
      (List.replicate (cs.count c) (cells.filter fun x => x.column = c)).flatten := by
  have hone : ∀ c', (cells.filter fun x => x.column = c').filter (fun x => x.column = c) =
      if c' = c then cells.filter (fun x => x.column = c) else [] := fun c' => by
    rw [List.filter_filter]
    split
    · rename_i hc
      subst hc
      simp only [Bool.and_self]
    · rename_i hc
      refine List.filter_eq_nil_iff.mpr fun x _ hx => hc ?_
      simp only [Bool.and_eq_true,decide_eq_true_eq] at hx
      exact hx.2.symm.trans hx.1
  have hcopies : ∀ c' cs, (List.replicate (List.count c (c' :: cs))
      (cells.filter fun x => x.column = c)).flatten =
        (if c' = c then cells.filter (fun x => x.column = c) else []) ++
          (List.replicate (List.count c cs) (cells.filter fun x => x.column = c)).flatten := by
    intro c' cs
    by_cases hc : c' = c
    · subst hc
      rw [List.count_cons_self,List.replicate_succ,List.flatten_cons,if_pos rfl]
    · rw [List.count_cons_of_ne hc,if_neg hc,List.nil_append]
  induction cs with
  | nil => rfl
  | cons c' cs ih =>
    rw [hcopies]
    cases cs with
    | nil =>
      rw [getColumnFilter,List.map_singleton,unionOf,apply_exactColumnFilter,hone]
      simp
    | cons c'' cs =>
      simp only [getColumnFilter,List.map_cons,unionOf,RowFilter.apply,apply_exactColumnFilter,
        List.filter_append,hone] at ih ⊢
      rw [ih]

theorem filter_apply_timeRangeAndColumn {f : RowFilter}
    (hf : getTimeRangeAndColumnFilter columns w none = .ok f) (cells : List Cell) (c : Column) :
    (f.apply cells).filter (fun x => x.column = c) = (List.replicate (columns.copies c)
      (((getTimeRangeFilter w).apply cells).filter fun x => x.column = c)).flatten := by
  have hmany : ∀ cs : List Column,
      ((RowFilter.chain (getColumnFilter cs) (getTimeRangeFilter w)).apply cells).filter
        (fun x => x.column = c) = (List.replicate (cs.count c)
          (((getTimeRangeFilter w).apply cells).filter fun x => x.column = c)).flatten := by
    intro cs
    have hswap : ∀ l : List Cell, ((getTimeRangeFilter w).apply l).filter (fun x => x.column = c) =
        (getTimeRangeFilter w).apply (l.filter fun x => x.column = c) := fun l => by
      simp only [apply_getTimeRangeFilter,List.filter_filter,Bool.and_comm]
    have hcopies : ∀ n (l : List Cell), (getTimeRangeFilter w).apply (List.replicate n l).flatten =
        (List.replicate n ((getTimeRangeFilter w).apply l)).flatten := fun n l => by
      simp only [apply_getTimeRangeFilter,List.filter_flatten,List.map_replicate]
    rw [apply_chain,hswap,filter_apply_getColumnFilter,hcopies,hswap]
  cases columns with
  | all =>
    cases hf
    simp [Columns.copies,Columns.toList]
  | one c' =>
    cases hf
    exact hmany [c']
  | many cs =>
    cases cs with
    | nil => cases hf
    | cons c' cs =>
      cases hf
      exact hmany (c' :: cs)

def serverCell (x : StoredCell) : Cell := ⟨x.column,1000*x.timestamp,x.value⟩

theorem apply_getTimeRangeFilter_rowCells (hw : w.EndSet) :
    (getTimeRangeFilter w).apply (rowCells (inMicros content) k) =
      (content.filter fun x => x.rowKey = k ∧ w.Contains (1000*x.timestamp)).map serverCell := by
  have hcells : rowCells (inMicros content) k = (content.filter fun x => x.rowKey = k).map serverCell := by
    rw [rowCells,inMicros,List.filter_map,List.map_map]
    rfl
  rw [hcells,apply_getTimeRangeFilter,List.filter_map,List.filter_filter]
  refine congrArg (List.map serverCell) (List.filter_congr fun x _ => Bool.eq_iff_iff.mpr ?_)
  simp only [Function.comp_apply,serverCell,Bool.and_eq_true,decide_eq_true_eq,Window.passes_iff hw]
  exact and_comm

theorem filter_apply_matching (hw : w.EndSet) {f : RowFilter}
    (hf : getTimeRangeAndColumnFilter columns w none = .ok f) (c : Column) :
    (f.apply (rowCells (inMicros content) k)).filter (fun x => x.column = c) =
      (copies content columns w k c).map serverCell := by
  rw [filter_apply_timeRangeAndColumn hf,apply_getTimeRangeFilter_rowCells hw,List.filter_map,
    List.filter_filter,copies,List.map_flatten,List.map_replicate,matching,List.filter_filter]
  by_cases hreq : columns.Requests c
  · refine congrArg (fun l => (List.replicate (columns.copies c) (l.map serverCell)).flatten)
      (List.filter_congr fun x _ => Bool.eq_iff_iff.mpr ?_)
    have hcolumn : (decide ((serverCell x).column = c)) = true ↔ x.column = c := decide_eq_true_iff
    simp only [Function.comp_apply,Bool.and_eq_true,hcolumn,decide_eq_true_eq]
    constructor
    · rintro ⟨rfl,hk,ht⟩
      exact ⟨rfl,hk,hreq,ht⟩
    · rintro ⟨rfl,hk,_,ht⟩
      exact ⟨rfl,hk,ht⟩
  · rw [Columns.copies_eq_zero_iff.mpr hreq]
    rfl

theorem mem_apply_iff (hw : w.EndSet) {f : RowFilter}
    (hf : getTimeRangeAndColumnFilter columns w none = .ok f)
    {x : Cell} : x ∈ f.apply (rowCells (inMicros content) k) ↔
      ∃ y ∈ matching content columns w k, serverCell y = x := by
  simp only [mem_apply_requested hw hf,matching,List.mem_filter,decide_eq_true_eq]
  constructor
  · rintro ⟨y,hy,hk,hreq,ht,rfl⟩
    exact ⟨y,⟨hy,hk,hreq,ht⟩,rfl⟩
  · rintro ⟨y,⟨hy,hk,hreq,ht⟩,rfl⟩
    exact ⟨y,hy,hk,hreq,ht,rfl⟩

theorem apply_eq_nil_iff (hw : w.EndSet) {f : RowFilter}
    (hf : getTimeRangeAndColumnFilter columns w none = .ok f) :
    f.apply (rowCells (inMicros content) k) = [] ↔ matching content columns w k = [] := by
  simp only [List.eq_nil_iff_forall_not_mem,mem_apply_iff hw hf]
  constructor
  · exact fun h y hy => h _ ⟨y,hy,rfl⟩
  · rintro h _ ⟨y,hy,rfl⟩
    exact h y hy

theorem get?_columnDict (hw : w.EndSet) {f : RowFilter}
    (hf : getTimeRangeAndColumnFilter columns w none = .ok f) (c : Column) :
    (deserializeColumnDict reg (rowToColumnDict (f.apply (rowCells (inMicros content) k)))).get? c =
      if copies content columns w k c = [] then none
      else some ((copies content columns w k c).map (returned reg)) := by
  rw [deserializeColumnDict,Dict.get?_mapValues,rowToColumnDict,Dict.get?_mapValues,
    Dict.get?_group,filter_apply_matching hw hf]
  simp only [List.map_eq_nil_iff]
  split
  · rfl
  · simp only [Option.map_some,List.map_map]
    refine congrArg some (List.map_congr_left fun x hx => ?_)
    rw [← (mem_copies.mp hx).2]
    rfl

/-- A returned row shows every matching cell once. -/
theorem view_rowResult (hw : w.EndSet) (hd : Distinct columns) {f : RowFilter}
    (hf : getTimeRangeAndColumnFilter columns w none = .ok f) :
    (rowResult reg (inMicros content) columns f k).map RowData.view =
      pointLookup reg content columns w k := by
  rw [rowResult,pointLookup]
  by_cases hnil : matching content columns w k = []
  · rw [if_pos ((apply_eq_nil_iff hw hf).mpr hnil),if_pos hnil]
    rfl
  rw [if_neg fun h => hnil ((apply_eq_nil_iff hw hf).mp h),if_neg hnil]
  have hdict : ∀ c, (deserializeColumnDict reg (rowToColumnDict
      (f.apply (rowCells (inMicros content) k)))).get? c =
      if (matching content columns w k).filter (fun x => x.column = c) = [] then none
      else some (((matching content columns w k).filter fun x => x.column = c).map (returned reg)) := by
    intro c
    rw [get?_columnDict hw hf,copies_eq hd]
  cases columns with
  | all | many => exact congrArg (fun g => some (Sum.inl g)) (funext hdict)
  | one c =>
    have hall : (matching content (.one c) w k).filter (fun x => x.column = c) =
        matching content (.one c) w k := List.filter_eq_self.mpr fun x hx => by
      simpa [Columns.Requests,Columns.toList] using requests_of_mem_matching hx
    have hc := hdict c
    rw [hall,if_neg hnil] at hc
    simp only [Option.map_some,rowData,RowData.view,hc,Option.getD_some,viewOf]

section Errors

variable {store : List StoredCell} {f : RowFilter}

end Errors

theorem registered_iff (hw : w.EndSet) {f : RowFilter}
    (hf : getTimeRangeAndColumnFilter columns w none = .ok f) :
    Registered reg (inMicros content) f k ↔
      ∀ x ∈ matching content columns w k, reg.registered x.column = true := by
  simp only [Registered,mem_apply_iff hw hf]
  constructor
  · exact fun h y hy => h _ ⟨y,hy,rfl⟩
  · rintro h _ ⟨y,hy,rfl⟩
    exact h y hy

end BigTable

namespace HBase

theorem rowCells_eq_matching :
    rowCells content columns w k = matching content columns.orAll w k := by
  refine List.filter_congr fun x _ => Bool.eq_iff_iff.mpr ?_
  simp only [decide_eq_true_eq,admits_iff,lt_upper_iff,Columns.requests_orAll,Window.Contains]

theorem deserializeCell_parseCell (x : StoredCell) :
    deserializeCell reg x.column (parseCell x) = returned reg x := by
  rw [deserializeCell,parseCell,returned,hbaseTsToDatetime,mul_comm]

theorem view_deserialize_columns (hcols : singleColumn columns = false) (cells : List StoredCell) :
    (deserializeRow reg columns (parseRow reg (singleColumn columns) cells)).view =
      viewOf reg columns.orAll (known reg cells) := by
  obtain ⟨d,hrow,hget⟩ := RowData.exists_of_view_inl (view_parseRow_columns reg cells)
  rw [hcols,hrow]
  have hres : ∀ c, (d.mapValues fun c l => l.map (deserializeCell reg c)).get? c =
      if (known reg cells).filter (fun x => x.column = c) = [] then none
      else some (((known reg cells).filter fun x => x.column = c).map (returned reg)) := by
    intro c
    rw [Dict.get?_mapValues,congrFun hget c]
    split
    · rfl
    · simp only [Option.map_some,List.map_map]
      refine congrArg some (List.map_congr_left fun x hx => ?_)
      have hc : x.column = c := of_decide_eq_true (List.mem_filter.mp hx).2
      subst hc
      exact deserializeCell_parseCell x
  cases columns with
  | one c => cases hcols
  | all => exact congrArg Sum.inl (funext hres)
  | many cs =>
    cases cs with
    | nil => exact congrArg Sum.inl (funext hres)
    | cons c cs => exact congrArg Sum.inl (funext hres)

theorem view_rowResult (hone : ∀ c, columns = .one c → reg.registered c = true) :
    (rowResult reg content columns w k).map RowData.view =
      knownLookup reg content columns.orAll w k := by
  rw [rowResult,knownLookup,rowCells_eq_matching]
  by_cases hnil : matching content columns.orAll w k = []
  · rw [if_pos hnil,if_pos hnil]
    rfl
  rw [if_neg hnil,if_neg hnil,Option.map_some]
  cases columns with
  | all | many => exact congrArg some (view_deserialize_columns rfl _)
  | one c =>
    have hcolumn : ∀ x ∈ matching content (.one c) w k, x.column = c := fun x hx => by
      simpa [Columns.Requests,Columns.toList] using requests_of_mem_matching hx
    have hknown : known reg (matching content (.one c) w k) = matching content (.one c) w k :=
      known_of_column (hone c rfl) hcolumn
    have hne : matching content (.one c) w k ≠ [] := hnil
    have hview := view_parseRow_single reg hcolumn
    rw [hknown,if_neg hne] at hview
    change some (RowData.view (deserializeRow reg (.one c)
      (parseRow reg true (matching content (.one c) w k)))) = _
    rw [RowData.eq_cells_of_view hview]
    refine congrArg (fun l => some (Sum.inr l)) ?_
    change ((matching content (.one c) w k).map parseCell).map (deserializeCell reg c) =
      (known reg (matching content (.one c) w k)).map _
    rw [hknown,List.map_map]
    refine List.map_congr_left fun x hx => ?_
    rw [← hcolumn x hx]
    exact deserializeCell_parseCell x

end HBase

end Backends

section Example

end Example

end KvdbClient
