import KvdbClient.BigTableReads
import KvdbClient.HBasePaging
import KvdbClient.VastReads

/-! Reads of a full table, against the reads of its rows: every client converts cells twice. -/
namespace KvdbClient

/-- What a cell of `read_all_rows` has for a timestamp. -/
inductive Stamp
  | datetime (micros : ℤ)
  | integer (n : ℤ)
  deriving DecidableEq

structure RawCell where
  value : Bytes
  timestamp : Stamp
  deriving DecidableEq

def Cell.raw (x : Cell Bytes) : RawCell := ⟨x.value,.datetime x.timestamp⟩

/-- The cells of a full-table read, deserialized with the attribute, are those of a row read. -/
def SameCells {V : Type} (reg : Registry V) (c : Column) (raw : List RawCell) (l : List (Cell V)) :
    Prop :=
  raw.map (fun x => (reg.deserialize c x.value,x.timestamp)) =
    l.map fun x => (x.value,Stamp.datetime x.timestamp)

namespace BigTable

/-- `_CompatibleRow`: the timestamps stay integers. -/
def compatibleRow (cells : List Cell) : Families RawCell :=
  byFamily Cell.column (fun c => ⟨c.value,.integer c.timestampMicros⟩) cells

/-- `_ReadAllRowsResult` of the stream of rows. -/
def readAllRows (store : List StoredCell) : Dict Bytes (Families RawCell) :=
  (Dict.group (·.rowKey) store).mapValues fun _ l => compatibleRow (l.map ofStored)

end BigTable

namespace Vast

/-- `_PartialRowAdapter` sorts by the timestamp first. -/
def partialRowAdapter (cells : List StoredCell) : Families (Cell Bytes) :=
  byFamily StoredCell.column (fun c => ⟨c.value,c.timestamp⟩)
    (cells.insertionSort fun a b => b.timestamp ≤ a.timestamp)

/-- `_ReadAllRowsResult` of a query without a predicate. -/
def readAllRows (a : Arrangement) (table : List StoredCell) :
    Except ReadError (Dict Bytes (Families (Cell Bytes))) := do
  let rows ← selectRowsOnce a table ⟨none,none,none,false⟩ .all .unbounded
  return (Dict.group (·.rowKey) rows).mapValues fun _ => partialRowAdapter

end Vast

section BigTable

variable {V : Type} (reg : Registry V) (store : List StoredCell)

end BigTable

section HBase

variable {V : Type} (reg : Registry V) (store : List StoredCell) (p : HBase.Paging)

/-- The server keeps one cell for each version, and delivers the newest version first. -/
def NewestFirst (store : List StoredCell) : Prop :=
  store.Pairwise fun x y => x.rowKey = y.rowKey → x.column = y.column → y.timestamp < x.timestamp

/-- The part of a row in the last response that has one: of the full scan, and of the row's own. -/
def HBase.lastOfTable (k : Bytes) : List StoredCell :=
  PageMerge.lastPart StoredCell.rowKey k (p.pages store)

def HBase.lastOfRow (k : Bytes) : List StoredCell :=
  PageMerge.lastPart StoredCell.rowKey k (p.pages (scan (scannerSpec k k true .all .unbounded) store))

/-- The two last parts of a row have the same cells of each of its attributes, and some. -/
def HBase.SameParts : Prop :=
  ∀ k c, reg.registered c = true → (∃ x ∈ store, x.rowKey = k ∧ x.column = c) →
    (lastOfTable store p k).filter (fun x => x.column = c) ≠ [] ∧
    (lastOfTable store p k).filter (fun x => x.column = c) =
      (lastOfRow store p k).filter fun x => x.column = c

/-- The parts are the same whenever no response divides a row. -/
theorem HBase.sameParts_of_unsplit (htable : Unsplit (fun _ => true) (p.pages store))
    (hp : p.KeepsRows store) : SameParts reg store p := by
  intro k c _ hpresent
  have hall : lastOfTable store p k = store.filter fun x => x.rowKey = k := by
    rw [lastOfTable,PageMerge.lastPart_of_unbroken htable,p.flatten_pages]
    rfl
  have hone : lastOfRow store p k = store.filter fun x => x.rowKey = k := by
    rw [lastOfRow,PageMerge.lastPart_of_unbroken (hp _),p.flatten_pages,members_scan,
      if_pos ⟨List.le_refl k,List.le_refl k⟩]
    exact List.filter_congr fun x _ => by
      simp [ScannerSpec.Admits,scannerSpec,Columns.toList,Window.unbounded]
  obtain ⟨x,hx,hk,hc⟩ := hpresent
  rw [hall,hone]
  exact ⟨List.ne_nil_of_mem (List.mem_filter.mpr ⟨List.mem_filter.mpr ⟨hx,decide_eq_true hk⟩,
    decide_eq_true hc⟩),rfl⟩

def HBase.allRows : Dict Bytes (Families (Cell Bytes)) :=
  PageMerge.merge StoredCell.rowKey partialRowAdapter (p.pages store)

variable {store}

theorem NewestFirst.eq_of_timestamp (h : NewestFirst store) {x y : StoredCell} (hx : x ∈ store)
    (hy : y ∈ store) (hrow : x.rowKey = y.rowKey) (hcolumn : x.column = y.column)
    (ht : x.timestamp = y.timestamp) : x = y := by
  by_contra hne
  have hdistinct : store.Pairwise fun x y =>
      ¬ (x.rowKey = y.rowKey ∧ x.column = y.column ∧ x.timestamp = y.timestamp) :=
    h.imp fun hlt hsame => (hlt hsame.1 hsame.2.1).ne hsame.2.2.symm
  have : Std.Symm fun x y : StoredCell =>
      ¬ (x.rowKey = y.rowKey ∧ x.column = y.column ∧ x.timestamp = y.timestamp) :=
    ⟨fun a b hab hba => hab ⟨hba.1.symm,hba.2.1.symm,hba.2.2.symm⟩⟩
  exact hdistinct.forall hx hy hne ⟨hrow,hcolumn,ht⟩

theorem mem_of_part {k : Bytes} {c : Column} {l : List StoredCell}
    (hl : l.Sublist (store.filter fun x => x.rowKey = k)) {x : StoredCell}
    (hx : x ∈ l.filter fun x => x.column = c) : x ∈ store ∧ x.rowKey = k ∧ x.column = c := by
  have hx' := List.mem_filter.mp hx
  have hxl := List.mem_filter.mp (hl.subset hx'.1)
  exact ⟨hxl.1,of_decide_eq_true hxl.2,of_decide_eq_true hx'.2⟩

theorem NewestFirst.pairwise_part (h : NewestFirst store) {k : Bytes} {c : Column}
    {l : List StoredCell} (hl : l.Sublist (store.filter fun x => x.rowKey = k)) :
    (l.filter fun x => x.column = c).Pairwise fun x y => y.timestamp < x.timestamp := by
  have hnewest : (l.filter fun x => x.column = c).Pairwise fun x y =>
      x.rowKey = y.rowKey → x.column = y.column → y.timestamp < x.timestamp :=
    h.sublist ((List.filter_sublist.trans hl).trans List.filter_sublist)
  refine hnewest.imp_of_mem fun {x y} hx hy hxy => ?_
  obtain ⟨_,hxk,hxc⟩ := mem_of_part hl hx
  obtain ⟨_,hyk,hyc⟩ := mem_of_part hl hy
  exact hxy (hxk.trans hyk.symm) (hxc.trans hyc.symm)

variable {p reg}

end HBase

section Vast

variable {V : Type} (reg : Registry V) (a₁ a₂ : Vast.Arrangement) (table : List StoredCell)

theorem Vast.readAllRows_eq : readAllRows a₁ table =
    .ok ((Dict.group (·.rowKey) (select a₁ table fun _ => true)).mapValues fun _ =>
      partialRowAdapter) := by
  have hp : (fun x => true && true && timePredicate .unbounded x) = fun _ : StoredCell => true :=
    funext fun x => by simp [timePredicate_unbounded]
  simp only [readAllRows,selectRowsOnce,buildPredicate,rowKeyPredicate,columnPredicate,
    normalizeColumns,Columns.toList,bind,Except.bind,pure,Except.pure,hp]

variable {reg a₁ a₂ table}

end Vast

def oneCell : List StoredCell := [⟨[48],Hierarchy.parent,1000,[1]⟩]

end KvdbClient
