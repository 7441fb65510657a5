import KvdbClient.HBaseReads

/-! Scans whose responses cut rows in two: a later response replaces the part of a row that an
earlier one has delivered. -/
namespace KvdbClient
namespace HBase

theorem nil_of_length_filter {α : Type} (column : α → Column) {x : List α} (y : List α)
    (h : ∀ c, ((x ++ y).filter fun a => column a = c).length = (y.filter fun a => column a = c).length) :
    x = [] := by
  cases x with
  | nil => rfl
  | cons a x =>
    have := h (column a)
    simp only [List.filter_append,List.length_append] at this
    have hpos : 0 < ((a :: x).filter fun b => column b = column a).length := by simp
    omega

theorem length_eq_of_ite {α β : Type} {f : α → β} {l m : List α}
    (h : (if l = [] then none else some (l.map f)) = if m = [] then none else some (m.map f)) :
    l.length = m.length := by
  split at h <;> split at h
  · simp [*]
  · cases h
  · cases h
  · simpa using congrArg List.length (Option.some.inj h)

section Rows

variable {V : Type} (reg : Registry V)

def known (cells : List StoredCell) : List StoredCell := cells.filter fun c => reg.registered c.column

def parseCell (c : StoredCell) : Cell Bytes := ⟨c.value,hbaseTsToDatetime c.timestamp⟩

theorem known_append (l m : List StoredCell) : known reg (l ++ m) = known reg l ++ known reg m :=
  List.filter_append ..

variable {reg}

theorem filter_known {c : Column} (hc : reg.registered c = true) (cells : List StoredCell) :
    (known reg cells).filter (fun x => x.column = c) = cells.filter fun x => x.column = c := by
  rw [known,List.filter_filter]
  refine List.filter_congr fun x _ => ?_
  by_cases hx : x.column = c <;> simp [hx,hc]

theorem known_of_column {c : Column} (hc : reg.registered c = true) {cells : List StoredCell}
    (h : ∀ x ∈ cells, x.column = c) : known reg cells = cells :=
  List.filter_eq_self.mpr fun x hx => by rw [h x hx,hc]

variable (reg)

theorem view_parseRow_columns (cells : List StoredCell) :
    (parseRow reg false cells).view = .inl fun c =>
      if (known reg cells).filter (fun x => x.column = c) = [] then none
      else some (((known reg cells).filter fun x => x.column = c).map parseCell) := by
  refine congrArg Sum.inl (funext fun c => ?_)
  rw [Dict.get?_mapValues,Dict.get?_group,known]
  split <;> rfl

theorem parseRow_single_cases (cells : List StoredCell) :
    (∃ e t, ((Dict.group (·.column) (known reg cells)).mapValues
        fun _ l => l.map parseCell).entries = e :: t ∧ parseRow reg true cells = .cells e.2) ∨
      (∀ e t, ((Dict.group (·.column) (known reg cells)).mapValues
        fun _ l => l.map parseCell).entries ≠ e :: t) ∧
        parseRow reg true cells = .columns ((Dict.group (·.column) (known reg cells)).mapValues
          fun _ l => l.map parseCell) := by
  unfold parseRow
  dsimp only
  split
  · rename_i e t _ he
    exact Or.inl ⟨e,t,he,rfl⟩
  · rename_i hne
    exact Or.inr ⟨fun e t he => hne e t rfl he,rfl⟩

theorem view_parseRow_single {cells : List StoredCell} {c₀ : Column}
    (h : ∀ a ∈ cells, a.column = c₀) :
    (parseRow reg true cells).view =
      if known reg cells = [] then .inl fun _ => none else .inr ((known reg cells).map parseCell) := by
  have hall : (known reg cells).filter (fun x => x.column = c₀) = known reg cells :=
    List.filter_eq_self.mpr fun x hx => decide_eq_true (h x (List.mem_filter.mp hx).1)
  have hget : ∀ c, ((Dict.group (·.column) (known reg cells)).mapValues
      fun _ l => l.map parseCell).get? c = if c = c₀ ∧ known reg cells ≠ [] then
        some ((known reg cells).map parseCell) else none := fun c => by
    rw [Dict.get?_mapValues,Dict.get?_group]
    by_cases hc : c = c₀
    · rw [hc,hall]
      by_cases hnil : known reg cells = [] <;> simp [hnil]
    · have hnone : (known reg cells).filter (fun x => x.column = c) = [] :=
        List.filter_eq_nil_iff.mpr fun x hx hxc => hc
          ((of_decide_eq_true hxc).symm.trans (h x (List.mem_filter.mp hx).1))
      simp [hc,hnone]
  rcases parseRow_single_cases reg cells with ⟨e,t,he,hrow⟩ | ⟨hne,hrow⟩
  · have hmem := Dict.get?_eq_some.mpr (he ▸ List.mem_cons_self : (e.1,e.2) ∈ _)
    rw [hget] at hmem
    split at hmem
    · rename_i hc
      rw [if_neg hc.2,hrow]
      exact congrArg Sum.inr (Option.some.inj hmem).symm
    · cases hmem
  · rw [hrow]
    split
    · rename_i hnil
      exact congrArg Sum.inl (funext fun c => (hget c).trans (if_neg fun hc => hc.2 hnil))
    · rename_i hnil
      have hsome := hget c₀
      rw [if_pos ⟨rfl,hnil⟩,Dict.get?_eq_some] at hsome
      obtain ⟨e,t,he⟩ := List.exists_cons_of_ne_nil (List.ne_nil_of_mem hsome)
      exact absurd he (hne e t)

/-- A parsed row shows every cell with an attribute, and nothing else. -/
theorem observes_parseRow (columns : Columns) :
    PageMerge.Observes (fun a : StoredCell => ∀ c, columns = .one c → a.column = c)
      (fun a => reg.registered a.column) fun l => (parseRow reg (singleColumn columns) l).view where
  ignores x := by
    have hidem : (x.filter fun a => reg.registered a.column).filter
        (fun a => reg.registered a.column) = x.filter fun a => reg.registered a.column := by simp
    simp only [parseRow,hidem]
  detects x y hP heq := by
    cases columns with
    | one c₀ =>
      have hcolumn : ∀ a ∈ x ++ y, a.column = c₀ := fun a ha => hP a ha c₀ rfl
      simp only [singleColumn] at heq
      rw [view_parseRow_single reg hcolumn,view_parseRow_single reg fun a ha =>
        hcolumn a (List.mem_append_right _ ha),known_append] at heq
      by_contra hne
      change ¬ known reg x = [] at hne
      have hxy : known reg x ++ known reg y ≠ [] := fun h => hne (List.append_eq_nil_iff.mp h).1
      rw [if_neg hxy] at heq
      split at heq
      · cases heq
      · have := congrArg List.length (Sum.inr.inj heq)
        simp only [List.length_map,List.length_append] at this
        exact hne (List.length_eq_zero_iff.mp (by omega))
    | all | many cs =>
      simp only [singleColumn] at heq
      rw [view_parseRow_columns,view_parseRow_columns] at heq
      refine nil_of_length_filter StoredCell.column (known reg y) fun c => ?_
      have := length_eq_of_ite (congrFun (Sum.inl.inj heq) c)
      rwa [known_append] at this

theorem cells?_partialRowAdapter (cells : List StoredCell) (c : Column) :
    (partialRowAdapter cells).cells? c =
      if cells.filter (fun x => x.column = c) = [] then none
      else some ((cells.filter fun x => x.column = c).map parseCell) :=
  cells?_byFamily StoredCell.column parseCell cells c

theorem observes_partialRowAdapter :
    PageMerge.Observes (fun _ : StoredCell => True) (fun _ => true) fun l =>
      (partialRowAdapter l).cells? where
  ignores x := by simp
  detects x y _ heq := by
    simp only [List.filter_true]
    refine nil_of_length_filter StoredCell.column y fun c => ?_
    have := congrFun heq c
    rw [cells?_partialRowAdapter,cells?_partialRowAdapter] at this
    exact length_eq_of_ite this

end Rows

/-- What a caller can tell of the rows of a read. -/
def shownRows {V : Type} (d : Dict Bytes (RowData V)) (k : Bytes) :
    Option ((Column → Option (List (Cell V))) ⊕ List (Cell V)) :=
  (d.get? k).map RowData.view

/-- What a caller can tell of the rows of a full-table read. -/
def shownCells (d : Dict Bytes (Families (Cell Bytes))) (k : Bytes) :
    Option (Column → Option (List (Cell Bytes))) :=
  (d.get? k).map Families.cells?

section Scans

variable {V : Type} (reg : Registry V) (p : Paging) (store : List StoredCell)

/-- `_fetch_rows_by_range` returns every row, or raises, as it does when all cells come in one
response. -/
def FetchesWhole (columns : Columns) (w : Window) (startKey endKey : Bytes) (inclusive : Bool) : Prop :=
  (fetchRowsByRange reg p store columns w startKey endKey inclusive).map shownRows =
    (fetchRowsByRange reg .whole store columns w startKey endKey inclusive).map shownRows

/-- `read_all_rows` returns every row, or raises, as it does when all cells come in one response. -/
def ReadsWhole : Prop :=
  (readAllRows p store).map shownCells = (readAllRows .whole store).map shownCells

/-- The responses to a scan do not divide the cells with `keep` of a row from later ones. -/
def Unsplit (keep : StoredCell → Bool) (pages : List (List StoredCell)) : Prop :=
  PageMerge.Unbroken StoredCell.rowKey keep pages

theorem merge_whole {β : Type} (g : List StoredCell → β) (cells : List StoredCell) :
    PageMerge.merge StoredCell.rowKey g (Paging.whole.pages cells) =
      Dict.empty.update (PageMerge.single StoredCell.rowKey g cells) := rfl

theorem get?_merge_whole {β : Type} (g : List StoredCell → β) (cells : List StoredCell) (k : Bytes) :
    (PageMerge.merge StoredCell.rowKey g (Paging.whole.pages cells)).get? k =
      (PageMerge.single StoredCell.rowKey g (p.pages cells).flatten).get? k := by
  rw [merge_whole,Dict.get?_update,Dict.get?_empty,Option.or_none,p.flatten_pages]

/-- Reads that raise no name lose no cell exactly when no response goes on with a row of which an
earlier one had a cell: a cell with an attribute for `_fetch_rows_by_range`, any cell for
`read_all_rows`. A name that is not UTF-8 makes them raise however the cells are divided. -/
theorem scans_whole_iff :
    (∀ columns w startKey endKey inclusive,
      FetchesWhole reg p store columns w startKey endKey inclusive ↔
        Undecodable (scan (scannerSpec startKey endKey inclusive columns w) store) ∨
          Unsplit (fun c => reg.registered c.column)
            (p.pages (scan (scannerSpec startKey endKey inclusive columns w) store))) ∧
    (ReadsWhole p store ↔ Undecodable store ∨ Unsplit (fun _ => true) (p.pages store)) := by
  constructor
  · intro columns w startKey endKey inclusive
    have hagree : shownRows (scannedRows reg p store columns w startKey endKey inclusive) =
        shownRows (scannedRows reg .whole store columns w startKey endKey inclusive) ↔
          Unsplit (fun c => reg.registered c.column)
            (p.pages (scan (scannerSpec startKey endKey inclusive columns w) store)) := by
      rw [Unsplit,← PageMerge.agrees_iff_unbroken (observes_parseRow reg columns)]
      · rw [funext_iff]
        refine forall_congr' fun k => ?_
        rw [PageMerge.Agrees,shownRows,shownRows,scannedRows,scannedRows,get?_merge_whole p]
      · rintro a ha c rfl
        rw [p.flatten_pages] at ha
        rcases (of_decide_eq_true (List.mem_filter.mp ha).2).2.1 with hnil | hmem
        · cases hnil
        · exact List.mem_singleton.mp hmem
    rw [FetchesWhole,fetchRowsByRange_eq,fetchRowsByRange_eq,decodeNames_map_map,decodeNames_map_map,
      decodeNames_map_eq_iff,hagree]
  · have hagree : shownCells (PageMerge.merge StoredCell.rowKey partialRowAdapter (p.pages store)) =
        shownCells (PageMerge.merge StoredCell.rowKey partialRowAdapter (Paging.whole.pages store)) ↔
          Unsplit (fun _ => true) (p.pages store) := by
      rw [Unsplit,← PageMerge.agrees_iff_unbroken observes_partialRowAdapter _ fun _ _ => trivial]
      rw [funext_iff]
      refine forall_congr' fun k => ?_
      rw [PageMerge.Agrees,shownCells,shownCells,get?_merge_whole p]
    rw [ReadsWhole,readAllRows_eq,readAllRows_eq,decodeNames_map_map,decodeNames_map_map,
      decodeNames_map_eq_iff,hagree]

end Scans

def Paging.oneByOne : Paging := ⟨fun cells => cells.map fun c => [c],fun cells => by
  induction cells with
  | nil => rfl
  | cons c cells ih => simpa using ih⟩

def twoCells : List StoredCell :=
  [⟨[1],Hierarchy.newParent,5,[10]⟩,⟨[1],Hierarchy.parent,5,[20]⟩]

def parents : Registry Bytes :=
  .ofColumns [Hierarchy.newParent,Hierarchy.parent] (by decide +kernel)

/-- When the two cells of a row come in two responses, the first one is lost. -/
theorem splitRow_loses_cell :
    ¬ FetchesWhole parents .oneByOne twoCells .all .unbounded [1] [1] true ∧
      ¬ ReadsWhole .oneByOne twoCells := by
  constructor
  · intro h
    have hcell := congrArg (fun r => r.map fun d => (d [1]).map fun v =>
      v.elim (fun d => d Hierarchy.newParent) fun _ => none) h
    exact absurd hcell (by decide +kernel)
  · intro h
    have hcell := congrArg (fun r => r.map fun d => (d [1]).map fun d => d Hierarchy.newParent) h
    exact absurd hcell (by decide +kernel)

end HBase
end KvdbClient
