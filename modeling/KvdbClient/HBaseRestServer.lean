import KvdbClient.HBaseDeletes
import KvdbClient.HBaseRest

/-! The server behind the URLs and JSON bodies: what it makes of the requests about one column, and the
cells that its scanners go through. On an addressable row key a request does over HTTP what it does to
the table by itself. -/
namespace KvdbClient
namespace HBase.Rest

open Wire

section Server

abbrev Rows := Dict Bytes (Dict Column Versions)

abbrev Tables := Dict Text Rows

def versionsAt (rows : Rows) (k : Bytes) (c : Column) : Versions :=
  (((rows.get? k).getD .empty).get? c).getD .empty

/-- `_insert_cell`, into a column that may be new. -/
def insertVersion (rows : Rows) (k : Bytes) (c : Column) (v : Version) : Rows :=
  rows.set k (((rows.get? k).getD .empty).set c ((versionsAt rows k c).insertCell v))

def pop {κ β : Type} [DecidableEq κ] (d : Dict κ β) (k : κ) : Dict κ β := d.filter fun k' _ => k' ≠ k

/-- A row that is left without columns goes too. -/
def popColumn (rows : Rows) (k : Bytes) (c : Column) : Rows :=
  match rows.get? k with
  | none => rows
  | some row => if (pop row c).entries.isEmpty then pop rows k else rows.set k (pop row c)

variable (now : ℤ) (tables : Tables) (table : Text) (rowKey : Bytes) (colSpec : Text)
  (rowCells : List JsonCell)

/-- `_handle_check_and_put`: of two cells the first one is the check. Nothing comes back when the
server raises, here and below. -/
def handleCheckAndPut : Option (Bool × Tables) := do
  let check ← columnOf colSpec
  let (checkValue,putCell) ← match rowCells with
    | checkCell::putCell::_ =>
      (decodeValue checkCell.value).toOption.map fun v => (some v,some putCell)
    | rowCells => some (none,rowCells.head?)
  let rows := (tables.get? table).getD .empty
  if checks (versionsAt rows rowKey check) checkValue then
    match putCell with
    | none => return (true,tables.set table rows)
    | some putCell =>
      let put ← (receiveCell rowKey putCell).toOption
      return (true,tables.set table (insertVersion rows rowKey put.column
        ⟨put.value,put.timestamp.getD (nowMs now)⟩))
  else return (false,tables.set table rows)

/-- `_handle_check_and_delete`: no version equals a check that is left out. -/
def handleCheckAndDelete : Option (Bool × Tables) := do
  let check ← columnOf colSpec
  let checkValue ← match rowCells with
    | [] => some none
    | cell::_ => (decodeValue cell.value).toOption.map some
  match tables.get? table, checkValue with
  | some rows, some v =>
    if checks (versionsAt rows rowKey check) (some v) then
      return (true,tables.set table (popColumn rows rowKey check))
    else return (false,tables)
  | _, _ => return (false,tables)

/-- `do_DELETE` of a column. -/
def handleDeleteColumn : Option (Bool × Tables) := do
  let column ← columnOf colSpec
  match tables.get? table with
  | none => return (true,tables)
  | some rows => return (true,tables.set table (popColumn rows rowKey column))

/-- The requests about one column at the server: whether the status is 200. What else a path may be
taken for, no addressable row key leads to. -/
def handle (r : HttpRequest) : Option (Bool × Tables) :=
  let rowCells := (r.json.map JsonRow.cells).getD []
  match route r with
  | some (.checkAndPut table rowKey colSpec) =>
    handleCheckAndPut now tables table rowKey colSpec rowCells
  | some (.checkAndDelete table rowKey colSpec) =>
    handleCheckAndDelete tables table rowKey colSpec rowCells
  | some (.deleteColumn table rowKey colSpec) => handleDeleteColumn tables table rowKey colSpec
  | _ => none

def storedCells (rows : Rows) : List StoredCell :=
  (rows.entries.insertionSort fun a b => a.1 ≤ b.1).flatMap fun row =>
    row.2.entries.flatMap fun e => e.2.list.map fun v => ⟨row.1,e.1,v.ts,v.value⟩

end Server

section Tables

variable {rows : Rows} {k : Bytes} {c : Column}

theorem versionsAt_insertVersion (v : Version) : versionsAt (insertVersion rows k c v) =
    Table.set (versionsAt rows) k c ((versionsAt rows k c).insertCell v) := by
  funext k' c'
  rw [versionsAt,insertVersion,Table.set,Dict.get?_set]
  by_cases hk : k = k'
  · subst hk
    rw [if_pos rfl,Option.getD_some,Dict.get?_set]
    by_cases hc : c = c'
    · rw [if_pos hc,if_pos ⟨rfl,hc.symm⟩,Option.getD_some]
    · rw [if_neg hc,if_neg fun h => hc h.2.symm]
      rfl
  · rw [if_neg hk,if_neg fun h => hk h.1.symm]
    rfl

theorem get?_pop {κ β : Type} [DecidableEq κ] (d : Dict κ β) (k k' : κ) :
    (pop d k).get? k' = if k' = k then none else d.get? k' := by
  rw [pop,Dict.get?_filter]
  by_cases hk : k' = k
  · subst hk
    cases d.get? k' <;> simp
  · cases d.get? k' <;> simp [hk]

theorem versionsAt_popColumn : versionsAt (popColumn rows k c) =
    Table.set (versionsAt rows) k c .empty := by
  funext k' c'
  rw [Table.set]
  cases hrow : rows.get? k with
  | none =>
    simp only [popColumn,hrow]
    split
    next h => simp [versionsAt,h.1,hrow]
    next => rfl
  | some row =>
    have hpop : ((pop row c).get? c').getD .empty = if c' = c then Versions.empty else
        versionsAt rows k c' := by
      rw [get?_pop,versionsAt,hrow,Option.getD_some]
      split <;> rfl
    by_cases hk : k' = k
    · subst hk
      simp only [popColumn,hrow,true_and,← hpop]
      split
      next hnil =>
        have hnone := Dict.get?_eq_none_iff.mpr (List.isEmpty_iff.mp hnil) c'
        simp [versionsAt,get?_pop,hnone]
      next => simp [versionsAt,Dict.get?_set]
    · rw [if_neg fun h => hk h.1]
      simp only [popColumn,hrow]
      split
      · rw [versionsAt,get?_pop,if_neg hk]
        rfl
      · rw [versionsAt,Dict.get?_set,if_neg (Ne.symm hk)]
        rfl

/-- The table of a client as the requests see it. -/
def view (t : TableId) (tables : Tables) : Table := versionsAt ((tables.get? t.name).getD .empty)

/-- The client's table is this one after a request, and all others are what they were. -/
def Serves (t : TableId) (tables tables' : Tables) (table : Table) : Prop :=
  view t tables' = table ∧ ∀ name, name ≠ t.name → tables'.get? name = tables.get? name

theorem serves_set {t : TableId} {tables : Tables} {table : Table} (h : versionsAt rows = table) :
    Serves t tables (tables.set t.name rows) table := by
  refine ⟨?_,fun name hname => by rw [Dict.get?_set,if_neg hname.symm]⟩
  rw [view,Dict.get?_set,if_pos rfl]
  exact h

end Tables

section Requests

variable {t : TableId} {k : Bytes} {c : Column} (hk : Addressable k)
  (hc : IsSegment c ∧ columnOf (HBase.buildColumnSpec c) = some c) (now : ℤ) (tables : Tables)
  (v : Bytes)

theorem receiveCell_encoded (hc : columnOf (HBase.buildColumnSpec c) = some c) (k v : Bytes)
    (ts : Option ℤ) :
    receiveCell k ⟨encodeValue (encodeUtf8 (HBase.buildColumnSpec c)),encodeValue v,ts⟩ =
      .ok ⟨k,c,ts,v⟩ := by
  rw [columnOf] at hc
  simp only [receiveCell,decodeValue_encodeValue,ok_bind,decodeText_encodeUtf8]
  split at hc
  next parts hsplit =>
    rw [hsplit]
    simp only [ok_bind,Option.some.inj hc]
    rfl
  next => cases hc

include hk hc

theorem handle_checkAndPut (checkValue : Option Bytes) (ts : Option ℤ) :
    ∃ tables', handle now tables (HBase.checkAndPut t k c checkValue c v ts) =
        some ((serve now (view t tables) (.checkAndPut k c checkValue c v ts)).1.success,tables') ∧
      Serves t tables tables' (serve now (view t tables) (.checkAndPut k c checkValue c v ts)).2 := by
  have hroute := (route_checkAndPut_iff (t := t) hc.1 checkValue c v ts).mpr hk
  have hhandle : handle now tables (HBase.checkAndPut t k c checkValue c v ts) =
      if checks (view t tables k c) checkValue then
        some (true,tables.set t.name (insertVersion ((tables.get? t.name).getD .empty) k c
          ⟨v,ts.getD (nowMs now)⟩))
      else some (false,tables.set t.name ((tables.get? t.name).getD .empty)) := by
    simp only [handle,hroute]
    cases checkValue <;>
      simp only [handleCheckAndPut,hc.2,HBase.checkAndPut,Option.map_some,Option.map_none,
        Option.toList_some,Option.toList_none,List.nil_append,List.cons_append,Option.getD_some,
        decodeValue_encodeValue,Except.toOption,List.head?_cons,receiveCell_encoded hc.2,view,
        Option.bind_eq_bind,Option.bind_some] <;>
      rfl
  rw [hhandle,serve]
  by_cases hcheck : checks (view t tables k c) checkValue = true
  · rw [if_pos hcheck,if_pos hcheck]
    exact ⟨_,rfl,serves_set (versionsAt_insertVersion _)⟩
  · rw [if_neg hcheck,if_neg hcheck]
    exact ⟨_,rfl,serves_set rfl⟩

theorem handle_checkAndDelete :
    ∃ tables', handle now tables (HBase.checkAndDelete t k c v) =
        some ((serve now (view t tables) (.checkAndDelete k c v)).1.success,tables') ∧
      Serves t tables tables' (serve now (view t tables) (.checkAndDelete k c v)).2 := by
  have hroute := (route_checkAndDelete_iff (t := t) hc.1 v).mpr hk
  have hhandle : handle now tables (HBase.checkAndDelete t k c v) =
      match tables.get? t.name with
      | some rows =>
        if checks (versionsAt rows k c) (some v) then some (true,tables.set t.name (popColumn rows k c))
        else some (false,tables)
      | none => some (false,tables) := by
    simp only [handle,hroute]
    cases hrows : tables.get? t.name <;>
      simp [handleCheckAndDelete,hc.2,HBase.checkAndDelete,hrows,Except.toOption]
  rw [hhandle,serve]
  cases hrows : tables.get? t.name with
  | none =>
    have hempty : (view t tables k c).list = [] := by rw [view,hrows]; rfl
    rw [if_neg (by simp [checks,hempty])]
    exact ⟨_,rfl,rfl,fun _ _ => rfl⟩
  | some rows =>
    have hview : view t tables = versionsAt rows := by rw [view,hrows]; rfl
    simp only [hview]
    by_cases hcheck : checks (versionsAt rows k c) (some v) = true
    · rw [if_pos hcheck,if_pos hcheck]
      exact ⟨_,rfl,serves_set versionsAt_popColumn⟩
    · rw [if_neg hcheck,if_neg hcheck]
      exact ⟨_,rfl,hview,fun _ _ => rfl⟩

theorem handle_deleteCell :
    ∃ tables', handle now tables (HBase.deleteCell t k c) =
        some ((serve now (view t tables) (.deleteCell k c)).1.success,tables') ∧
      Serves t tables tables' (serve now (view t tables) (.deleteCell k c)).2 := by
  have hroute := (route_deleteCell_iff (t := t) hc.1).mpr hk
  cases hrows : tables.get? t.name with
  | none =>
    refine ⟨tables,by simp [handle,hroute,handleDeleteColumn,hc.2,hrows,serve],?_,fun _ _ => rfl⟩
    funext k' c'
    simp [serve,view,hrows,Table.set,versionsAt]
  | some rows =>
    have hview : view t tables = versionsAt rows := by rw [view,hrows]; rfl
    refine ⟨_,by simp [handle,hroute,handleDeleteColumn,hc.2,hrows,serve]; rfl,?_⟩
    rw [serve,hview]
    exact serves_set versionsAt_popColumn

end Requests

section Scans

theorem filter_flatMap_entries {κ β α : Type} [DecidableEq κ] (key : α → κ) (f : κ → β → List α)
    {es : List (κ × β)} (hnodup : (es.map Prod.fst).Nodup) (hkey : ∀ k b, ∀ x ∈ f k b, key x = k)
    (k : κ) : (es.flatMap fun e => f e.1 e.2).filter (fun x => key x = k) =
      ((Dict.lookup es k).map (f k)).getD [] := by
  induction es with
  | nil => rfl
  | cons e es ih =>
    obtain ⟨hnot,hes⟩ := List.nodup_cons.mp hnodup
    rw [List.flatMap_cons,List.filter_append,ih hes,Dict.lookup]
    by_cases hk : e.1 = k
    · subst hk
      rw [if_pos rfl,Dict.lookup_eq_none.mpr hnot,List.filter_eq_self.mpr fun x hx =>
        decide_eq_true (hkey _ _ x hx)]
      simp
    · rw [if_neg hk,List.filter_eq_nil_iff.mpr fun x hx hxk => hk
        ((hkey _ _ x hx).symm.trans (of_decide_eq_true hxk)),List.nil_append]

def stored (k : Bytes) (c : Column) (v : Version) : StoredCell := ⟨k,c,v.ts,v.value⟩

theorem filter_storedCells (rows : Rows) (k : Bytes) (c : Column) :
    (storedCells rows).filter (fun x => x.rowKey = k ∧ x.column = c) =
      (versionsAt rows k c).list.map (stored k c) := by
  have hperm := List.perm_insertionSort (fun a b : Bytes × Dict Column Versions => a.1 ≤ b.1)
    rows.entries
  have hnodup := (hperm.map Prod.fst).nodup_iff.mpr rows.nodup
  have hlookup : Dict.lookup (rows.entries.insertionSort fun a b => a.1 ≤ b.1) k = rows.get? k := by
    ext row
    rw [Dict.get?_eq_some,Dict.lookup_eq_some hnodup]
    exact hperm.mem_iff
  have hrow := filter_flatMap_entries StoredCell.rowKey (fun k (row : Dict Column Versions) =>
    row.entries.flatMap fun e => e.2.list.map (stored k e.1)) hnodup (fun k row x hx => by
        obtain ⟨e,-,hx⟩ := List.mem_flatMap.mp hx
        obtain ⟨v,-,rfl⟩ := List.mem_map.mp hx
        rfl) k
  rw [hlookup] at hrow
  have hsplit : (storedCells rows).filter (fun x => x.rowKey = k ∧ x.column = c) =
      ((storedCells rows).filter fun x => x.rowKey = k).filter fun x => x.column = c := by
    rw [List.filter_filter]
    exact List.filter_congr fun x _ => by simp [and_comm]
  rw [hsplit]
  refine (congrArg (List.filter _) hrow).trans ?_
  rw [versionsAt]
  cases rows.get? k with
  | none => rfl
  | some row =>
    have hcol := filter_flatMap_entries StoredCell.column (fun c (vs : Versions) =>
      vs.list.map (stored k c)) row.nodup (fun c vs x hx => by
        obtain ⟨v,-,rfl⟩ := List.mem_map.mp hx
        rfl) c
    refine hcol.trans ?_
    rw [Option.getD_some]
    change ((row.get? c).map fun vs => vs.list.map (stored k c)).getD [] = _
    cases row.get? c <;> rfl

end Scans

end HBase.Rest
end KvdbClient
