import KvdbClient.AttributeRegistry
import KvdbClient.VastChunks

/-! The column filter of the VAST client, of which a single column is pushed down, with what the
loop of `rows_to_column_dicts` raises on a row, also on one that it would skip. -/
namespace KvdbClient

/-- What `from_key` raises for a column without an attribute: its report decodes the key. -/
inductive LookupError
  | keyError (report : Text)
  | unicodeDecodeError (key : Bytes)
  deriving DecidableEq

def LookupError.ofUnknown (c : Column) : LookupError :=
  match decodeUtf8 c.key with
  | some key => .keyError ("Unknown key ".toList ++ c.familyId ++ ':'::key)
  | none => .unicodeDecodeError c.key

namespace Vast
namespace ColumnFilter

/-- What a read raises: for its arguments, at the lookup of a column, or for a value. -/
inductive RowsError
  | query (e : ReadError)
  | lookup (e : LookupError)
  | deserialize (a : RegisteredAttribute) (value : Bytes)
  deriving DecidableEq

/-- `grouped[row_key][attr].append(cell)`; an attribute is known by its column. -/
structure Appended (V : Type) where
  rowKey : Bytes
  column : Column
  cell : Cell V

def row {V : Type} (columns : Columns) (columnDict : Dict Column (List (Cell V))) : RowData V :=
  match columns with
  | .one c => .cells ((columnDict.get? c).getD [])
  | _ => .columns columnDict

def byColumn {V : Type} (cells : List (Appended V)) : Dict Column (List (Cell V)) :=
  (Dict.group (·.column) cells).mapValues fun _ l => l.map (·.cell)

def grouped {V : Type} (cells : List (Appended V)) : Dict Bytes (Dict Column (List (Cell V))) :=
  (Dict.group (·.rowKey) cells).mapValues fun _ l => byColumn l

section Client

variable {V : Type} (attributes : Attributes) (deserialize : RegisteredAttribute → Bytes → Option V)

def attributeFromColumns (c : Column) : Except LookupError RegisteredAttribute :=
  (attributes.fromKey c).mapError fun _ => .ofUnknown c

/-- The loop of `rows_to_column_dicts`. -/
def gather (wanted : Option (List Column)) :
    List StoredCell → Except RowsError (List (Appended V))
  | [] => .ok []
  | x :: rows =>
    match attributeFromColumns attributes x.column with
    -- only a `KeyError` is caught
    | .error (.keyError _) => gather wanted rows
    | .error e => .error (.lookup e)
    | .ok attr =>
      if ∀ cs ∈ wanted, attr.toColumn ∈ cs then
        match deserialize attr x.value with
        | none => .error (.deserialize attr x.value)
        | some value => do
          return ⟨x.rowKey,attr.toColumn,⟨value,x.timestamp⟩⟩ :: (← gather wanted rows)
      else gather wanted rows

def rowsToColumnDicts (columns : Columns) (wanted : Option (List Column)) (rows : List StoredCell) :
    Except RowsError (Dict Bytes (RowData V)) := do
  let cells ← gather attributes deserialize wanted (sortRows rows)
  return (grouped cells).mapValues fun _ columnDict => row columns columnDict

variable (a : Arrangement) (table : List StoredCell)

/-- The table rows that `_read_byte_rows` fetches. -/
def fetch (maxRowKeyCount : ℕ) (rows : RowSelection) (columns : Columns) (w : Window)
    (userId : Option Text) : Except ReadError (List StoredCell) :=
  if rows.rowKeys = none ∧ (rows.startKey = none ∨ rows.endKey = none) then .error .precondition
  else do
    let rows ← userSelection a table rows w userId
    selectRows a table maxRowKeyCount rows columns w

def readByteRows (maxRowKeyCount : ℕ) (rows : RowSelection) (columns : Columns) (w : Window)
    (userId : Option Text) : Except RowsError (Dict Bytes (RowData V)) := do
  let rawRows ← (fetch a table maxRowKeyCount rows columns w userId).mapError .query
  let wanted ← (normalizeColumns columns).mapError .query
  rowsToColumnDicts attributes deserialize columns wanted rawRows

end Client

def lookups {V : Type} (d : Dict Bytes (RowData V)) (k : Bytes) :=
  (d.get? k).map RowData.view

/-- The row of an unfiltered read with these attributes only. -/
def restrictRow {V : Type} (cs : List Column) : RowData V → Dict Column (List (Cell V))
  | .columns d => d.filter fun c _ => c ∈ cs
  | .cells _ => .empty

/-- An unfiltered read with these attributes only, without the rows left empty. -/
def restrictTo {V : Type} (cs : List Column) (d : Dict Bytes (RowData V)) :
    Dict Bytes (Dict Column (List (Cell V))) :=
  (d.mapValues fun _ r => restrictRow cs r).filter fun _ r => r.entries ≠ []

/-- Reads of registered attributes, in a list or bare, are the unfiltered read restricted to them. -/
def FiltersColumns {V : Type} (attributes : Attributes)
    (deserialize : RegisteredAttribute → Bytes → Option V) (table : List StoredCell)
    (maxRowKeyCount : ℕ) (rows : RowSelection) (w : Window) (userId : Option Text) : Prop :=
  let read := fun columns =>
    readByteRows attributes deserialize .storage table maxRowKeyCount rows columns w userId
  (∀ cs, cs ≠ [] → (∀ c ∈ cs, ∃ a, attributes.fromKey c = .ok a) →
    (read (.many cs)).map lookups =
      (read .all).map fun d => lookups ((restrictTo cs d).mapValues fun _ r => .columns r)) ∧
  ∀ c, (∃ a, attributes.fromKey c = .ok a) →
    (read (.one c)).map lookups = (read .all).map fun d =>
      lookups ((restrictTo [c] d).mapValues fun _ r => .cells ((r.get? c).getD []))

/-- The table rows that an unfiltered read fetches, if it is not refused: the cells in the window of
the selected rows, with a user id of those in which the user has a cell there. -/
structure Fetched (table : List StoredCell) (rows : RowSelection) (w : Window)
    (userId : Option Text) (x : StoredCell) : Prop where
  valid : rows.Valid
  encodable : Encodable rows
  mem : x ∈ table
  selected : rows.selects x.rowKey = true
  inWindow : timePredicate w x = true
  byUser : ∀ u ∈ userId, ∃ y ∈ table, y.rowKey = x.rowKey ∧ timePredicate w y = true ∧
    userPredicate u y = true

/-- The loop gets past the cell: its value is read, or its column is unknown and can be reported. -/
def Readable {V : Type} (attributes : Attributes)
    (deserialize : RegisteredAttribute → Bytes → Option V) (x : StoredCell) : Prop :=
  match attributes.fromKey x.column with
  | .ok a => deserialize a x.value ≠ none
  | .error _ => decodeUtf8 x.column.key ≠ none

section Grouping

variable {V : Type}

theorem get?_byColumn (l : List (Appended V)) (c : Column) :
    (byColumn l).get? c = if l.filter (fun e => e.column = c) = [] then none else
      some ((l.filter fun e => e.column = c).map (·.cell)) := by
  rw [byColumn,Dict.get?_mapValues,Dict.get?_group]
  split <;> rfl

theorem get?_grouped (l : List (Appended V)) (k : Bytes) :
    (grouped l).get? k = if l.filter (fun e => e.rowKey = k) = [] then none else
      some (byColumn (l.filter fun e => e.rowKey = k)) := by
  rw [grouped,Dict.get?_mapValues,Dict.get?_group]
  split <;> rfl

theorem get?_filter_byColumn (cs : List Column) (l : List (Appended V)) :
    ((byColumn l).filter fun c _ => c ∈ cs).get? = (byColumn (l.filter fun e => e.column ∈ cs)).get? := by
  funext c
  rw [Dict.get?_filter,get?_byColumn,get?_byColumn,List.filter_filter]
  by_cases hc : c ∈ cs
  · have hboth : l.filter (fun e => decide (e.column = c) && decide (e.column ∈ cs)) =
        l.filter fun e => e.column = c :=
      List.filter_congr fun e _ => by
        by_cases he : e.column = c
        · simp [he,hc]
        · simp [he]
    rw [hboth]
    split
    · rfl
    · simp [hc]
  · have hnone : l.filter (fun e => decide (e.column = c) && decide (e.column ∈ cs)) = [] :=
      List.filter_eq_nil_iff.mpr fun e _ he => by
        simp only [Bool.and_eq_true,decide_eq_true_eq] at he
        exact hc (he.1 ▸ he.2)
    rw [if_pos hnone]
    split
    · rfl
    · simp [hc]

theorem byColumn_entries_eq_nil {l : List (Appended V)} : (byColumn l).entries = [] ↔ l = [] := by
  constructor
  · intro h
    refine List.eq_nil_iff_forall_not_mem.mpr fun e he => ?_
    have hget : (byColumn l).get? e.column = none := by rw [Dict.get?,h]; rfl
    rw [get?_byColumn,if_neg (List.ne_nil_of_mem (List.mem_filter.mpr ⟨he,decide_eq_true rfl⟩))] at hget
    cases hget
  · rintro rfl
    rfl

theorem view_row {columns : Columns} {d d' : Dict Column (List (Cell V))} (h : d.get? = d'.get?) :
    (row columns d).view = (row columns d').view := by
  cases columns with
  | one c => simp only [row,RowData.view,h]
  | all | many => simp only [row,RowData.view,h]

theorem lookups_restrictTo (columns : Columns) (cs : List Column) (l : List (Appended V)) :
    lookups ((restrictTo cs ((grouped l).mapValues fun _ d => row .all d)).mapValues
        fun _ d => row columns d) =
      lookups ((grouped (l.filter fun e => e.column ∈ cs)).mapValues fun _ d => row columns d) := by
  funext k
  have hswap : (l.filter fun e => e.column ∈ cs).filter (fun e => e.rowKey = k) =
      (l.filter fun e => e.rowKey = k).filter fun e => e.column ∈ cs := by
    rw [List.filter_filter,List.filter_filter]
    exact List.filter_congr fun e _ => Bool.and_comm _ _
  simp only [lookups,restrictTo,Dict.get?_mapValues,Dict.get?_filter,get?_grouped,hswap]
  generalize l.filter (fun e => e.rowKey = k) = cells
  have hget := get?_filter_byColumn cs cells
  have hempty : ((byColumn cells).filter fun c _ => c ∈ cs).entries = [] ↔
      cells.filter (fun e => e.column ∈ cs) = [] := by
    rw [← Dict.get?_eq_none_iff,hget,Dict.get?_eq_none_iff,byColumn_entries_eq_nil]
  by_cases hcells : cells = []
  · subst hcells
    rfl
  by_cases hkept : cells.filter (fun e => e.column ∈ cs) = []
  · rw [if_neg hcells,if_pos hkept]
    simp [row,restrictRow,hempty,hkept]
  · rw [if_neg hcells,if_neg hkept]
    simp only [row,restrictRow,Option.map_some,Option.filter_some,ne_eq,hempty,hkept,not_false_eq_true,
      decide_true,if_true]
    exact congrArg some (view_row hget)

end Grouping

section Loop

variable {V : Type} {attributes : Attributes} {deserialize : RegisteredAttribute → Bytes → Option V}
variable {x : StoredCell} {e : ReadError} {a : RegisteredAttribute} {wanted : Option (List Column)}
variable {l : List StoredCell}

theorem gather_unknown (h : attributes.fromKey x.column = .error e) {key : Text}
    (hkey : decodeUtf8 x.column.key = some key) :
    gather attributes deserialize wanted (x :: l) = gather attributes deserialize wanted l := by
  simp only [gather,attributeFromColumns,h,Except.mapError,LookupError.ofUnknown,hkey]

theorem gather_undecodable (h : attributes.fromKey x.column = .error e)
    (hkey : decodeUtf8 x.column.key = none) :
    gather attributes deserialize wanted (x :: l) =
      .error (.lookup (.unicodeDecodeError x.column.key)) := by
  simp only [gather,attributeFromColumns,h,Except.mapError,LookupError.ofUnknown,hkey]

theorem gather_unwanted (h : attributes.fromKey x.column = .ok a)
    (hwanted : ¬ ∀ cs ∈ wanted, a.toColumn ∈ cs) :
    gather attributes deserialize wanted (x :: l) = gather attributes deserialize wanted l := by
  simp only [gather,attributeFromColumns,h,Except.mapError,if_neg hwanted]

theorem gather_unreadable (h : attributes.fromKey x.column = .ok a)
    (hwanted : ∀ cs ∈ wanted, a.toColumn ∈ cs) (hvalue : deserialize a x.value = none) :
    gather attributes deserialize wanted (x :: l) = .error (.deserialize a x.value) := by
  simp only [gather,attributeFromColumns,h,Except.mapError,if_pos hwanted,hvalue]

theorem gather_wanted (h : attributes.fromKey x.column = .ok a)
    (hwanted : ∀ cs ∈ wanted, a.toColumn ∈ cs) {v : V} (hvalue : deserialize a x.value = some v) :
    gather attributes deserialize wanted (x :: l) =
      (gather attributes deserialize wanted l).map (⟨x.rowKey,a.toColumn,⟨v,x.timestamp⟩⟩ :: ·) := by
  simp only [gather,attributeFromColumns,h,Except.mapError,if_pos hwanted,hvalue]
  cases gather attributes deserialize wanted l <;> rfl

/-- What a round can have done in a loop that returns: skip an unknown column, skip a column that is
not wanted, or append a cell. -/
theorem gather_cons_ok {es : List (Appended V)}
    (h : gather attributes deserialize wanted (x :: l) = .ok es) :
    (∃ e key, attributes.fromKey x.column = .error e ∧ decodeUtf8 x.column.key = some key ∧
        gather attributes deserialize wanted l = .ok es) ∨
      (∃ a, attributes.fromKey x.column = .ok a ∧ (¬ ∀ cs ∈ wanted, a.toColumn ∈ cs) ∧
        gather attributes deserialize wanted l = .ok es) ∨
      ∃ a v es', attributes.fromKey x.column = .ok a ∧ (∀ cs ∈ wanted, a.toColumn ∈ cs) ∧
        deserialize a x.value = some v ∧ gather attributes deserialize wanted l = .ok es' ∧
        es = ⟨x.rowKey,a.toColumn,⟨v,x.timestamp⟩⟩ :: es' := by
  cases hfound : attributes.fromKey x.column with
  | error e =>
    cases hkey : decodeUtf8 x.column.key with
    | none =>
      rw [gather_undecodable hfound hkey] at h
      cases h
    | some key =>
      rw [gather_unknown hfound hkey] at h
      exact Or.inl ⟨e,key,rfl,rfl,h⟩
  | ok a =>
    by_cases hwanted : ∀ cs ∈ wanted, a.toColumn ∈ cs
    · cases hv : deserialize a x.value with
      | none =>
        rw [gather_unreadable hfound hwanted hv] at h
        cases h
      | some v =>
        rw [gather_wanted hfound hwanted hv] at h
        cases hl : gather attributes deserialize wanted l with
        | error e =>
          rw [hl] at h
          cases h
        | ok es' =>
          rw [hl] at h
          exact Or.inr (Or.inr ⟨a,v,es',rfl,hwanted,hv,rfl,(Except.ok.inj h).symm⟩)
    · rw [gather_unwanted hfound hwanted] at h
      exact Or.inr (Or.inl ⟨a,rfl,hwanted,h⟩)

theorem readable_registered (h : attributes.fromKey x.column = .ok a) :
    Readable attributes deserialize x ↔ deserialize a x.value ≠ none := by
  rw [Readable,h]

theorem readable_unregistered (h : attributes.fromKey x.column = .error e) :
    Readable attributes deserialize x ↔ decodeUtf8 x.column.key ≠ none := by
  rw [Readable,h]

def RaisedAt (attributes : Attributes) (deserialize : RegisteredAttribute → Bytes → Option V)
    (x : StoredCell) (e : RowsError) : Prop :=
  match attributes.fromKey x.column with
  | .ok a => deserialize a x.value = none ∧ e = .deserialize a x.value
  | .error _ => decodeUtf8 x.column.key = none ∧ e = .lookup (.unicodeDecodeError x.column.key)

theorem raisedAt_of_gather_error {e : RowsError}
    (h : gather attributes deserialize wanted l = .error e) :
    ∃ x ∈ l, RaisedAt attributes deserialize x e := by
  induction l with
  | nil => cases h
  | cons x l ih =>
    have hrest (hl : gather attributes deserialize wanted l = .error e) :
        ∃ y ∈ x :: l, RaisedAt attributes deserialize y e := by
      obtain ⟨y,hy,hraised⟩ := ih hl
      exact ⟨y,List.mem_cons_of_mem x hy,hraised⟩
    cases hfound : attributes.fromKey x.column with
    | ok a =>
      by_cases hwanted : ∀ cs ∈ wanted, a.toColumn ∈ cs
      · cases hv : deserialize a x.value with
        | none =>
          rw [gather_unreadable hfound hwanted hv] at h
          cases h
          exact ⟨x,List.mem_cons_self,by rw [RaisedAt,hfound]; exact ⟨hv,rfl⟩⟩
        | some v =>
          rw [gather_wanted hfound hwanted hv] at h
          cases hl : gather attributes deserialize wanted l with
          | ok es =>
            rw [hl] at h
            cases h
          | error e' =>
            rw [hl] at h
            cases h
            exact hrest hl
      · rw [gather_unwanted hfound hwanted] at h
        exact hrest h
    | error e' =>
      cases hkey : decodeUtf8 x.column.key with
      | none =>
        rw [gather_undecodable hfound hkey] at h
        cases h
        exact ⟨x,List.mem_cons_self,by rw [RaisedAt,hfound]; exact ⟨hkey,rfl⟩⟩
      | some key =>
        rw [gather_unknown hfound hkey] at h
        exact hrest h

theorem not_readable_of_raisedAt {e : RowsError} (h : RaisedAt attributes deserialize x e) :
    ¬ Readable attributes deserialize x := by
  cases hfound : attributes.fromKey x.column with
  | ok a =>
    rw [RaisedAt,hfound] at h
    rw [readable_registered hfound]
    exact not_not.mpr h.1
  | error e' =>
    rw [RaisedAt,hfound] at h
    rw [readable_unregistered hfound]
    exact not_not.mpr h.1

theorem wanted_none (a : RegisteredAttribute) :
    ∀ cs ∈ (none : Option (List Column)), a.toColumn ∈ cs :=
  fun cs hcs => by cases hcs

theorem readable_of_gather_ok {es : List (Appended V)}
    (h : gather attributes deserialize none l = .ok es) :
    ∀ x ∈ l, Readable attributes deserialize x := by
  induction l generalizing es with
  | nil => exact fun x hx => by cases hx
  | cons x l ih =>
    rcases gather_cons_ok h with ⟨e,key,hfound,hkey,hl⟩ | ⟨a,-,hunwanted,-⟩ | ⟨a,v,es',hfound,-,hv,hl,-⟩
    · refine List.forall_mem_cons.mpr ⟨(readable_unregistered hfound).mpr ?_,ih hl⟩
      exact ne_of_eq_of_ne hkey (Option.some_ne_none key)
    · exact absurd (wanted_none a) hunwanted
    · refine List.forall_mem_cons.mpr ⟨(readable_registered hfound).mpr ?_,ih hl⟩
      exact ne_of_eq_of_ne hv (Option.some_ne_none v)

theorem gather_none_ok_iff :
    (∃ es, gather attributes deserialize none l = .ok es) ↔
      ∀ x ∈ l, Readable attributes deserialize x := by
  constructor
  · rintro ⟨es,hes⟩
    exact readable_of_gather_ok hes
  · intro h
    cases hl : gather attributes deserialize none l with
    | ok es => exact ⟨es,rfl⟩
    | error e =>
      obtain ⟨x,hx,hraised⟩ := raisedAt_of_gather_error hl
      exact absurd (h x hx) (not_readable_of_raisedAt hraised)

/-- If the loop over all cells returns, so does the one for some columns, also if cells of other
columns never arrive: it appends the same cells, of these columns only. -/
theorem gather_filter (hattr : ∀ c a, attributes.fromKey c = .ok a → a.toColumn = c)
    (cs : List Column) {q : Predicate} (hq : ∀ x, x.column ∈ cs → q x = true)
    {es : List (Appended V)} (h : gather attributes deserialize none l = .ok es) :
    gather attributes deserialize (some cs) (l.filter q) =
      .ok (es.filter fun e => e.column ∈ cs) := by
  induction l generalizing es with
  | nil =>
    cases h
    rfl
  | cons x l ih =>
    have hskip (hrest : gather attributes deserialize (some cs) (x :: l.filter q) =
        gather attributes deserialize (some cs) (l.filter q)) :
        gather attributes deserialize (some cs) ((x :: l).filter q) =
          gather attributes deserialize (some cs) (l.filter q) := by
      rw [List.filter_cons]
      split
      · exact hrest
      · rfl
    rcases gather_cons_ok h with ⟨e,key,hfound,hkey,hl⟩ | ⟨a,-,hunwanted,-⟩ |
      ⟨a,v,es',hfound,-,hv,hl,rfl⟩
    · rw [hskip (gather_unknown hfound hkey)]
      exact ih hl
    · exact absurd (wanted_none a) hunwanted
    · have hcolumn := hattr _ _ hfound
      by_cases hx : x.column ∈ cs
      · have hwanted : ∀ cs' ∈ some cs, a.toColumn ∈ cs' := by simpa [hcolumn] using hx
        rw [List.filter_cons_of_pos (hq x hx),gather_wanted hfound hwanted hv,ih hl,
          List.filter_cons_of_pos (by simpa [hcolumn] using hx)]
        rfl
      · have hunwanted : ¬ ∀ cs' ∈ some cs, a.toColumn ∈ cs' := by simpa [hcolumn] using hx
        rw [hskip (gather_unwanted hfound hunwanted),ih hl,
          List.filter_cons_of_neg (by simpa [hcolumn] using hx)]

/-- A registry that reads the values as the attributes of the process do. -/
def ReadsAs (attributes : Attributes) (deserialize : RegisteredAttribute → Bytes → Option V)
    (reg : Registry V) : Prop :=
  ∀ c, match attributes.fromKey c with
    | .ok a => reg.registered c = true ∧ ∀ b v, deserialize a b = some v → reg.deserialize c b = v
    | .error _ => reg.registered c = false

theorem decodable_of_gather_ok {reg : Registry V} (hreg : ReadsAs attributes deserialize reg)
    {es : List (Appended V)} (h : gather attributes deserialize wanted l = .ok es) :
    ∀ x ∈ l, x.column.Decodable := by
  induction l generalizing es with
  | nil => exact fun x hx => by cases hx
  | cons x l ih =>
    have hfound : ∀ {a}, attributes.fromKey x.column = .ok a → x.column.Decodable := fun {a} ha => by
      have hx := hreg x.column
      rw [ha] at hx
      exact reg.decodable _ hx.1
    rcases gather_cons_ok h with ⟨e,key,-,hkey,hl⟩ | ⟨a,ha,-,hl⟩ | ⟨a,v,es',ha,-,-,hl,-⟩
    · exact List.forall_mem_cons.mpr ⟨ne_of_eq_of_ne hkey (Option.some_ne_none key),ih hl⟩
    · exact List.forall_mem_cons.mpr ⟨hfound ha,ih hl⟩
    · exact List.forall_mem_cons.mpr ⟨hfound ha,ih hl⟩

def appendedAs (reg : Registry V) (x : StoredCell) : Appended V :=
  ⟨x.rowKey,x.column,⟨reg.deserialize x.column x.value,x.timestamp⟩⟩

theorem gather_eq_kept (hattr : ∀ c a, attributes.fromKey c = .ok a → a.toColumn = c)
    {reg : Registry V} (hreg : ReadsAs attributes deserialize reg) {es : List (Appended V)}
    (h : gather attributes deserialize wanted l = .ok es) :
    es = (kept reg wanted l).map (appendedAs reg) := by
  induction l generalizing es with
  | nil =>
    cases h
    rfl
  | cons x l ih =>
    have hx := hreg x.column
    rw [kept]
    rcases gather_cons_ok h with ⟨e,key,hfound,-,hl⟩ | ⟨a,hfound,hunwanted,hl⟩ |
      ⟨a,v,es',hfound,hwanted,hv,hl,rfl⟩
    · rw [hfound] at hx
      rw [List.filter_cons_of_neg (by simp [hx])]
      exact ih hl
    · rw [hattr _ _ hfound] at hunwanted
      rw [List.filter_cons_of_neg (by simpa using fun _ => hunwanted)]
      exact ih hl
    · rw [hfound] at hx
      rw [hattr _ _ hfound] at hwanted ⊢
      rw [List.filter_cons_of_pos (by simpa [hx.1] using hwanted),List.map_cons,appendedAs,hx.2 _ _ hv]
      exact congrArg (_ :: ·) (ih hl)

theorem get?_byColumn_map (reg : Registry V) (l : List StoredCell) :
    (byColumn (l.map (appendedAs reg))).get? = (columnDict reg l).get? := by
  funext c
  have hfilter : (l.map (appendedAs reg)).filter (fun e => e.column = c) =
      (l.filter fun x => x.column = c).map (appendedAs reg) := List.filter_map
  have hcells : ∀ x ∈ l.filter (fun x => x.column = c), (appendedAs reg x).cell =
      ⟨reg.deserialize c x.value,x.timestamp⟩ := fun x hx => by
    obtain rfl : x.column = c := of_decide_eq_true (List.mem_filter.mp hx).2
    rfl
  rw [get?_byColumn,get?_columnDict,hfilter]
  simp only [List.map_eq_nil_iff,List.map_map]
  exact if_congr Iff.rfl rfl (congrArg some (List.map_congr_left hcells))

theorem row_columnDict (reg : Registry V) (columns : Columns) (l : List StoredCell) :
    row columns (columnDict reg l) = rowData reg columns l := by
  cases columns <;> rfl

end Loop

section Pushdown

variable (table : List StoredCell) {columns : Columns} {q : Predicate}

/-- Pushing the column down is filtering what is fetched without it. -/
theorem selectRowsOnce_pushdown (hq : columnPredicate columns = .ok q) (rows : RowSelection)
    (w : Window) :
    selectRowsOnce .storage table rows columns w =
      (selectRowsOnce .storage table rows .all w).map (List.filter q) := by
  rw [selectRowsOnce,selectRowsOnce,buildPredicate,buildPredicate,hq]
  cases rowKeyPredicate rows with
  | error e => rfl
  | ok p =>
    refine congrArg Except.ok ?_
    change table.filter (fun x => p x && q x && timePredicate w x) =
      (table.filter fun x => p x && true && timePredicate w x).filter q
    rw [List.filter_filter]
    refine List.filter_congr fun x _ => ?_
    rw [Bool.and_true,Bool.and_comm (p x),Bool.and_assoc]

theorem selectRows_pushdown (hq : columnPredicate columns = .ok q) (maxRowKeyCount : ℕ)
    (rows : RowSelection) (w : Window) :
    selectRows .storage table maxRowKeyCount rows columns w =
      (selectRows .storage table maxRowKeyCount rows .all w).map (List.filter q) := by
  rw [selectRows,selectRows]
  split
  next ks _ =>
    rw [ExceptLists.mapM_map fun chunk _ => selectRowsOnce_pushdown table hq (.ofKeys chunk) w]
    cases (chunked maxRowKeyCount ks).mapM fun chunk =>
        selectRowsOnce .storage table (.ofKeys chunk) .all w with
    | error e => rfl
    | ok parts => exact congrArg Except.ok List.filter_flatten.symm
  next => exact selectRowsOnce_pushdown table hq rows w

theorem fetch_pushdown (hq : columnPredicate columns = .ok q) (maxRowKeyCount : ℕ)
    (rows : RowSelection) (w : Window) (userId : Option Text) :
    fetch .storage table maxRowKeyCount rows columns w userId =
      (fetch .storage table maxRowKeyCount rows .all w userId).map (List.filter q) := by
  rw [fetch,fetch]
  split
  · rfl
  · cases userSelection .storage table rows w userId with
    | error e => rfl
    | ok rows => exact selectRows_pushdown table hq maxRowKeyCount rows w

end Pushdown

section Fetch

variable (table : List StoredCell) {rows : RowSelection}

theorem rowKeyPredicate_error (hvalid : rows.Valid) (h : ¬ Encodable rows) :
    ∃ e, rowKeyPredicate rows = .error e := by
  rcases hvalid.keys_or_range with ⟨ks,s,e,inclusive,rfl⟩ | ⟨s,e,inclusive,rfl⟩
  · have hinvalid : ∃ k ∈ ks, ¬ k.toByteArray.IsValidUTF8 := by simpa [Encodable] using h
    obtain ⟨k,hk,hinvalid⟩ := hinvalid
    obtain ⟨e,he,-⟩ := ExceptLists.mapM_error (f := encodeRowKey) (P := fun _ => True)
      (fun _ _ _ _ => trivial) ⟨k,hk,encodeRowKey_error hinvalid⟩
    exact ⟨e,by simp only [rowKeyPredicate,he]; rfl⟩
  · by_cases hs : s.toByteArray.IsValidUTF8
    · have he : ¬ e.toByteArray.IsValidUTF8 := fun he => h ⟨hs,he⟩
      obtain ⟨err,herr⟩ := encodeRowKey_error he
      have hok : encodeRowKey s = .ok s := if_pos hs
      exact ⟨err,by simp only [rowKeyPredicate,herr,hok]; rfl⟩
    · obtain ⟨err,herr⟩ := encodeRowKey_error hs
      exact ⟨err,by simp only [rowKeyPredicate,herr]; rfl⟩

theorem selectRowsOnce_all (hvalid : rows.Valid) (h : Encodable rows) (w : Window) :
    selectRowsOnce .storage table rows .all w =
      .ok (table.filter fun x => rows.selects x.rowKey && timePredicate w x) := by
  rw [selectRowsOnce,buildPredicate,rowKeyPredicate_eq hvalid h]
  refine congrArg Except.ok (List.filter_congr fun x _ => ?_)
  rw [Bool.and_true]

theorem selectRows_all {maxRowKeyCount : ℕ} (hmax : 0 < maxRowKeyCount) (hvalid : rows.Valid)
    (h : Encodable rows) (w : Window) :
    ∃ raw, selectRows .storage table maxRowKeyCount rows .all w = .ok raw ∧
      ∀ x, x ∈ raw ↔ x ∈ table ∧ rows.selects x.rowKey = true ∧ timePredicate w x = true := by
  obtain ⟨rowKeys,startKey,endKey,inclusive⟩ := rows
  cases rowKeys with
  | none => exact ⟨_,selectRowsOnce_all table hvalid h w,fun x => by simp⟩
  | some ks =>
    have hflat := flatten_chunked hmax ks
    have hchunk : ∀ chunk ∈ chunked maxRowKeyCount ks, Encodable (.ofKeys chunk) :=
      fun chunk hchunk k hk => h k (hflat ▸ List.mem_flatten_of_mem hchunk hk)
    have hchunks := ExceptLists.mapM_ok fun chunk hmem =>
      selectRowsOnce_all table (Or.inl (Option.some_ne_none chunk)) (hchunk chunk hmem) w
    refine ⟨_,by simp only [selectRows,hchunks]; rfl,fun x => ?_⟩
    have hmem : x.rowKey ∈ ks ↔ ∃ chunk ∈ chunked maxRowKeyCount ks, x.rowKey ∈ chunk := by
      rw [← List.mem_flatten,hflat]
    simp only [List.mem_flatten,List.mem_map,RowSelection.selects,hmem,decide_eq_true_eq]
    constructor
    · rintro ⟨l,⟨chunk,hchunk,rfl⟩,hx⟩
      rw [List.mem_filter,Bool.and_eq_true] at hx
      exact ⟨hx.1,⟨chunk,hchunk,of_decide_eq_true hx.2.1⟩,hx.2.2⟩
    · rintro ⟨hx,⟨chunk,hchunk,hk⟩,ht⟩
      refine ⟨_,⟨chunk,hchunk,rfl⟩,List.mem_filter.mpr ⟨hx,?_⟩⟩
      rw [Bool.and_eq_true]
      exact ⟨decide_eq_true hk,ht⟩

theorem selectRows_refused {maxRowKeyCount : ℕ} (hmax : 0 < maxRowKeyCount) (hvalid : rows.Valid)
    (h : ¬ Encodable rows) (w : Window) :
    ∃ e, selectRows .storage table maxRowKeyCount rows .all w = .error e := by
  obtain ⟨e,he⟩ := rowKeyPredicate_error hvalid h
  obtain ⟨rowKeys,startKey,endKey,inclusive⟩ := rows
  cases rowKeys with
  | some ks => exact selectRows_error .storage table hmax (by simpa [Encodable] using h) .all w
  | none => exact ⟨e,by rw [selectRows,selectRowsOnce,buildPredicate,he]; rfl⟩

theorem userSelection_all (hvalid : rows.Valid) (h : Encodable rows) (w : Window) (u : Text) :
    ∃ ks, userSelection .storage table rows w (some u) = .ok (.ofKeys ks) ∧
      ∀ k, k ∈ ks ↔ rows.selects k = true ∧
        ∃ y ∈ table, y.rowKey = k ∧ timePredicate w y = true ∧ userPredicate u y = true := by
  refine ⟨_,by rw [userSelection,matchingUserRowKeys,rowKeyPredicate_eq hvalid h]; rfl,fun k => ?_⟩
  simp only [List.mem_insertionSort,List.mem_dedup,List.mem_map,select,Arrangement.storage,id,
    List.mem_filter,Bool.and_eq_true]
  constructor
  · rintro ⟨y,⟨hy,⟨hs,ht⟩,hu⟩,rfl⟩
    exact ⟨hs,y,hy,rfl,ht,hu⟩
  · rintro ⟨hs,y,hy,rfl,ht,hu⟩
    exact ⟨y,⟨hy,⟨hs,ht⟩,hu⟩,rfl⟩

variable {maxRowKeyCount : ℕ}

theorem fetch_all (hmax : 0 < maxRowKeyCount)
    (htable : ∀ x ∈ table, x.rowKey.toByteArray.IsValidUTF8) (hvalid : rows.Valid)
    (h : Encodable rows) (w : Window) (userId : Option Text) :
    ∃ raw, fetch .storage table maxRowKeyCount rows .all w userId = .ok raw ∧
      ∀ x, x ∈ raw ↔ Fetched table rows w userId x := by
  rw [fetch,if_neg (RowSelection.valid_iff.mp hvalid)]
  cases userId with
  | none =>
    obtain ⟨raw,hraw,hmem⟩ := selectRows_all table hmax hvalid h w
    refine ⟨raw,hraw,fun x => (hmem x).trans ⟨?_,fun hx => ⟨hx.mem,hx.selected,hx.inWindow⟩⟩⟩
    rintro ⟨hx,hs,ht⟩
    exact ⟨hvalid,h,hx,hs,ht,fun u hu => by cases hu⟩
  | some u =>
    obtain ⟨ks,hks,hkeys⟩ := userSelection_all table hvalid h w u
    have henc : Encodable (.ofKeys ks) := fun k hk => by
      obtain ⟨-,y,hy,rfl,-⟩ := (hkeys k).mp hk
      exact htable y hy
    obtain ⟨raw,hraw,hmem⟩ := selectRows_all table hmax
      (Or.inl (Option.some_ne_none ks)) henc w
    refine ⟨raw,by rw [hks]; exact hraw,fun x => (hmem x).trans ?_⟩
    have hselects : (RowSelection.ofKeys ks).selects x.rowKey = true ↔ x.rowKey ∈ ks :=
      decide_eq_true_iff
    rw [hselects,hkeys]
    constructor
    · rintro ⟨hx,⟨hs,hu⟩,ht⟩
      exact ⟨hvalid,h,hx,hs,ht,fun u' hu' => by cases hu'; exact hu⟩
    · intro hx
      exact ⟨hx.mem,⟨hx.selected,hx.byUser u rfl⟩,hx.inWindow⟩

theorem fetch_refused (hmax : 0 < maxRowKeyCount) (h : ¬ (rows.Valid ∧ Encodable rows)) (w : Window)
    (userId : Option Text) :
    ∃ e, fetch .storage table maxRowKeyCount rows .all w userId = .error e := by
  rw [fetch]
  split
  · exact ⟨_,rfl⟩
  rename_i hpass
  have hvalid := RowSelection.valid_iff.mpr hpass
  have henc : ¬ Encodable rows := fun henc => h ⟨hvalid,henc⟩
  cases userId with
  | none => exact selectRows_refused table hmax hvalid henc w
  | some u =>
    obtain ⟨e,he⟩ := rowKeyPredicate_error hvalid henc
    exact ⟨e,by rw [userSelection,matchingUserRowKeys,he]; rfl⟩

theorem mem_fetch_iff (hmax : 0 < maxRowKeyCount)
    (htable : ∀ x ∈ table, x.rowKey.toByteArray.IsValidUTF8) {w : Window} {userId : Option Text}
    {x : StoredCell} :
    (∃ raw, fetch .storage table maxRowKeyCount rows .all w userId = .ok raw ∧ x ∈ raw) ↔
      Fetched table rows w userId x := by
  constructor
  · rintro ⟨raw,hraw,hx⟩
    by_cases h : rows.Valid ∧ Encodable rows
    · obtain ⟨raw',hraw',hmem⟩ := fetch_all table hmax htable h.1 h.2 w userId
      obtain rfl : raw' = raw := Except.ok.inj (hraw'.symm.trans hraw)
      exact (hmem x).mp hx
    · obtain ⟨e,he⟩ := fetch_refused table hmax h w userId
      cases he.symm.trans hraw
  · intro hx
    obtain ⟨raw,hraw,hmem⟩ := fetch_all table hmax htable hx.valid hx.encodable w userId
    exact ⟨raw,hraw,(hmem x).mpr hx⟩

end Fetch

section Reads

variable {V : Type} {attributes : Attributes} {deserialize : RegisteredAttribute → Bytes → Option V}
variable {a : Arrangement} {table raw : List StoredCell} {rows : RowSelection} {columns : Columns}
variable {w : Window} {userId : Option Text} {maxRowKeyCount : ℕ}

theorem readByteRows_of_fetch (hcols : columns ≠ .many [])
    (h : fetch a table maxRowKeyCount rows columns w userId = .ok raw) :
    readByteRows attributes deserialize a table maxRowKeyCount rows columns w userId =
      rowsToColumnDicts attributes deserialize columns columns.toList raw := by
  rw [readByteRows,h,normalizeColumns_eq hcols]
  rfl

theorem readByteRows_refused {e : ReadError}
    (h : fetch a table maxRowKeyCount rows columns w userId = .error e) :
    readByteRows attributes deserialize a table maxRowKeyCount rows columns w userId =
      .error (.query e) := by
  rw [readByteRows,h]
  rfl

theorem vast_readByteRows_eq (reg : Registry V) :
    Vast.readByteRows reg a table maxRowKeyCount rows columns w userId =
      fetch a table maxRowKeyCount rows columns w userId >>= fun raw =>
        normalizeColumns columns >>= fun wanted => Vast.rowsToColumnDicts reg columns wanted raw := by
  rw [Vast.readByteRows,fetch]
  split
  · rfl
  · cases userSelection a table rows w userId <;> rfl

theorem readByteRows_eq_vast (hattr : ∀ c a, attributes.fromKey c = .ok a → a.toColumn = c)
    {reg : Registry V} (hreg : ReadsAs attributes deserialize reg) {d : Dict Bytes (RowData V)}
    (h : readByteRows attributes deserialize a table maxRowKeyCount rows columns w userId = .ok d) :
    ∃ d', Vast.readByteRows reg a table maxRowKeyCount rows columns w userId = .ok d' ∧
      lookups d' = lookups d := by
  rw [vast_readByteRows_eq]
  rw [readByteRows] at h
  cases hraw : fetch a table maxRowKeyCount rows columns w userId with
  | error e =>
    rw [hraw] at h
    cases h
  | ok raw =>
    cases hwanted : normalizeColumns columns with
    | error e =>
      rw [hraw,hwanted] at h
      cases h
    | ok wanted =>
      rw [hraw,hwanted] at h
      change rowsToColumnDicts attributes deserialize columns wanted raw = .ok d at h
      rw [rowsToColumnDicts] at h
      cases hes : gather attributes deserialize wanted (sortRows raw) with
      | error e =>
        rw [hes] at h
        cases h
      | ok es =>
        rw [hes] at h
        cases h
        have hnames : decodeNames (sortRows raw) = .ok () :=
          decodeNames_of_decodable (decodable_of_gather_ok hreg hes)
        have hok : Vast.rowsToColumnDicts reg columns wanted raw =
            .ok (columnDicts reg columns wanted raw) := by
          rw [rowsToColumnDicts_eq,hnames]
          rfl
        refine ⟨columnDicts reg columns wanted raw,hok,funext fun k => ?_⟩
        have hfilter : ((kept reg wanted (sortRows raw)).map (appendedAs reg)).filter
            (fun e => e.rowKey = k) =
            ((kept reg wanted (sortRows raw)).filter fun x => x.rowKey = k).map (appendedAs reg) :=
          List.filter_map
        rw [gather_eq_kept hattr hreg hes]
        simp only [lookups,columnDicts,Dict.get?_mapValues,get?_grouped,Dict.get?_group,hfilter,
          List.map_eq_nil_iff]
        split
        · rfl
        · simp only [Option.map_some,← row_columnDict]
          exact congrArg some (view_row (get?_byColumn_map reg _).symm)

theorem readByteRows_restrictTo (hattr : ∀ c a, attributes.fromKey c = .ok a → a.toColumn = c)
    {cs : List Column} (hcs : columns.toList = some cs) (hcols : columns ≠ .many [])
    (h : ∀ raw, fetch .storage table maxRowKeyCount rows .all w userId = .ok raw →
      ∀ x ∈ raw, Readable attributes deserialize x) :
    (readByteRows attributes deserialize .storage table maxRowKeyCount rows columns w userId).map
        lookups =
      (readByteRows attributes deserialize .storage table maxRowKeyCount rows .all w userId).map
        fun d => lookups ((restrictTo cs d).mapValues fun _ r => row columns r) := by
  obtain ⟨q,hq,hreq⟩ := columnPredicate_eq hcols
  have hpush := fetch_pushdown table hq maxRowKeyCount rows w userId
  cases hraw : fetch .storage table maxRowKeyCount rows .all w userId with
  | error e =>
    rw [hraw] at hpush
    rw [readByteRows_refused hraw,readByteRows_refused hpush]
    rfl
  | ok raw =>
    rw [hraw] at hpush
    obtain ⟨es,hes⟩ := gather_none_ok_iff.mpr fun x hx => h raw hraw x (mem_sortRows.mp hx)
    have hfilter := gather_filter hattr cs
      (fun x hx => (hreq x).mpr (queried_of_requests fun l hl =>
        Option.some.inj (hcs.symm.trans hl) ▸ hx)) hes
    rw [readByteRows_of_fetch hcols hpush,readByteRows_of_fetch (by simp) hraw,hcs,
      rowsToColumnDicts,rowsToColumnDicts,← filter_sortRows,hfilter,Columns.toList,hes]
    exact congrArg Except.ok (lookups_restrictTo columns cs es).symm

theorem readByteRows_one_error {c : Column} {r : RegisteredAttribute}
    (hc : attributes.fromKey c = .ok r)
    (hraw : fetch .storage table maxRowKeyCount rows .all w userId = .ok raw) {e : RowsError}
    (h : readByteRows attributes deserialize .storage table maxRowKeyCount rows (.one c) w userId =
      .error e) : ∃ value, deserialize r value = none ∧ e = .deserialize r value := by
  have hpush := fetch_pushdown table (show columnPredicate (.one c) = .ok _ from rfl) maxRowKeyCount rows
    w userId
  rw [hraw] at hpush
  rw [readByteRows_of_fetch (by simp) hpush,rowsToColumnDicts] at h
  cases hes : gather attributes deserialize (Columns.one c).toList
      (sortRows (raw.filter fun x => x.column = c)) with
  | ok es =>
    rw [hes] at h
    cases h
  | error e' =>
    rw [hes] at h
    cases h
    obtain ⟨x,hx,hraised⟩ := raisedAt_of_gather_error hes
    have hcolumn : x.column = c := of_decide_eq_true (List.mem_filter.mp (mem_sortRows.mp hx)).2
    rw [RaisedAt,hcolumn,hc] at hraised
    exact ⟨_,hraised⟩

theorem readByteRows_all_error
    (hraw : fetch .storage table maxRowKeyCount rows .all w userId = .ok raw)
    (h : ∃ x ∈ raw, ¬ Readable attributes deserialize x) :
    ∃ e, readByteRows attributes deserialize .storage table maxRowKeyCount rows .all w userId =
        .error e ∧ ∃ x, RaisedAt attributes deserialize x e := by
  obtain ⟨x,hx,hnot⟩ := h
  cases hes : gather attributes deserialize none (sortRows raw) with
  | ok es => exact absurd (readable_of_gather_ok hes x (mem_sortRows.mpr hx)) hnot
  | error e =>
    obtain ⟨y,-,hraised⟩ := raisedAt_of_gather_error hes
    refine ⟨e,?_,y,hraised⟩
    rw [readByteRows_of_fetch (by simp) hraw,rowsToColumnDicts,Columns.toList,hes]
    rfl

theorem exists_registered_ne (constructed : List RegisteredAttribute) {x : StoredCell}
    {e : RowsError} (h : RaisedAt (.ofProcess constructed) deserialize x e) :
    ∃ c r, (Attributes.ofProcess constructed).fromKey c = .ok r ∧ ∀ value, e ≠ .deserialize r value := by
  obtain ⟨lock,hlock⟩ := Attributes.exists_fromKey_of_imported
    (show ⟨Concurrency.lock.toColumn,.uint64String⟩ ∈ importedAttributes by decide) constructed
  obtain ⟨indefinite,hindefinite⟩ := Attributes.exists_fromKey_of_imported
    (show ⟨Concurrency.indefiniteLock.toColumn,.uint64String⟩ ∈ importedAttributes by decide)
    constructed
  have hne : lock ≠ indefinite := fun heq => by
    have hcolumn := (Attributes.of_fromKey hlock).2
    rw [heq,(Attributes.of_fromKey hindefinite).2] at hcolumn
    revert hcolumn
    decide
  by_cases hx : ∃ value, e = .deserialize lock value
  · obtain ⟨value,rfl⟩ := hx
    refine ⟨_,indefinite,hindefinite,fun value' heq => hne ?_⟩
    exact (RowsError.deserialize.inj heq).1
  · exact ⟨_,lock,hlock,fun value heq => hx ⟨value,heq⟩⟩

end Reads

/-- A read of registered attributes, in a list or bare, is the unfiltered read restricted to them,
exactly when the loop gets past every row that the unfiltered read fetches. -/
theorem filtersColumns_iff {V : Type} (constructed : List RegisteredAttribute)
    (deserialize : RegisteredAttribute → Bytes → Option V) {table : List StoredCell}
    (htable : ∀ x ∈ table, x.rowKey.toByteArray.IsValidUTF8) {maxRowKeyCount : ℕ}
    (hmax : 0 < maxRowKeyCount) (rows : RowSelection) (w : Window) (userId : Option Text) :
    FiltersColumns (.ofProcess constructed) deserialize table maxRowKeyCount rows w userId ↔
      ∀ x, Fetched table rows w userId x → Readable (.ofProcess constructed) deserialize x := by
  have hattr := fun c a (h : (Attributes.ofProcess constructed).fromKey c = .ok a) =>
    (Attributes.of_fromKey h).2
  constructor
  · rintro ⟨-,hone⟩ x hx
    by_contra hnot
    obtain ⟨raw,hraw,hmem⟩ := (mem_fetch_iff table hmax htable).mpr hx
    obtain ⟨e,he,y,hraised⟩ := readByteRows_all_error hraw ⟨x,hmem,hnot⟩
    obtain ⟨c,r,hc,hne⟩ := exists_registered_ne constructed hraised
    have hsame := hone c ⟨r,hc⟩
    beta_reduce at hsame
    rw [he] at hsame
    cases hread : readByteRows (.ofProcess constructed) deserialize .storage table maxRowKeyCount rows
        (.one c) w userId with
    | ok d =>
      rw [hread] at hsame
      cases hsame
    | error e' =>
      rw [hread] at hsame
      obtain ⟨value,-,hvalue⟩ := readByteRows_one_error hc hraw hread
      exact hne value ((Except.error.inj hsame).symm.trans hvalue)
  · intro h
    have hread : ∀ raw, fetch .storage table maxRowKeyCount rows .all w userId = .ok raw →
        ∀ x ∈ raw, Readable (.ofProcess constructed) deserialize x := fun raw hraw x hx =>
      h x ((mem_fetch_iff table hmax htable).mp ⟨raw,hraw,hx⟩)
    refine ⟨fun cs hcs _ => ?_,fun c _ => ?_⟩
    · exact readByteRows_restrictTo hattr (show (Columns.many cs).toList = _ from rfl)
        (by simpa using hcs) hread
    · exact readByteRows_restrictTo hattr (show (Columns.one c).toList = _ from rfl) (by simp) hread

section Example

/-- A cell in a column that this process has not constructed. -/
def strayCell (qualifier : Bytes) : StoredCell := ⟨encodeUtf8 [ 'k'],⟨['9'],qualifier⟩,0,[2]⟩

def lockAndStray (qualifier : Bytes) : List StoredCell :=
  [⟨encodeUtf8 [ 'k'],Concurrency.lock.toColumn,0,[1]⟩,strayCell qualifier]

theorem isValidUTF8_lockAndStray (qualifier : Bytes) :
    ∀ x ∈ lockAndStray qualifier, x.rowKey.toByteArray.IsValidUTF8 := by
  have hkey := isValidUTF8_encodeUtf8 [ 'k']
  simpa [lockAndStray,strayCell] using hkey

/-- The column of the stray cell is skipped. -/
theorem filtersColumns_unregistered :
    FiltersColumns (.ofProcess []) (fun _ b => some b) (lockAndStray (encodeUtf8 [ 'x'])) 1
      (.ofKeys [encodeUtf8 [ 'k']]) .unbounded none := by
  refine (filtersColumns_iff [] (fun _ b => some b) (isValidUTF8_lockAndStray _) (by decide) _ _ _).mpr
    fun x hx => ?_
  have hkey : decodeUtf8 x.column.key ≠ none := by
    rcases List.mem_cons.mp hx.mem with rfl | hmem
    · exact ne_of_eq_of_ne (decodeUtf8_encodeUtf8 _) (Option.some_ne_none _)
    · obtain rfl := List.mem_singleton.mp hmem
      exact ne_of_eq_of_ne (decodeUtf8_encodeUtf8 _) (Option.some_ne_none _)
  cases hfound : (Attributes.ofProcess []).fromKey x.column with
  | ok r => exact (readable_registered hfound).mpr (Option.some_ne_none _)
  | error e => exact (readable_unregistered hfound).mpr hkey

theorem fromKey_strayCell (qualifier : Bytes) :
    ∃ e, (Attributes.ofProcess []).fromKey (strayCell qualifier).column = .error e := by
  have hfamilies : ∀ a ∈ importedAttributes, a.familyId ≠ ['9'] := by decide +kernel
  cases h : (Attributes.ofProcess []).fromKey (strayCell qualifier).column with
  | error e => exact ⟨e,rfl⟩
  | ok r =>
    have himported := (Attributes.of_fromKey h).1.resolve_right List.not_mem_nil
    exact absurd (congrArg Column.familyId ((Attributes.of_fromKey h).2)) (hfamilies r himported)

theorem decodeUtf8_255 : decodeUtf8 [255] = none := by decide +kernel

/-- The unfiltered read raises on the stray cell, which a read of the lock alone does not fetch. -/
theorem not_filtersColumns_undecodable :
    ¬ FiltersColumns (.ofProcess []) (fun _ b => some b) (lockAndStray [255]) 1
      (.ofKeys [encodeUtf8 [ 'k']]) .unbounded none := by
  rintro ⟨-,hone⟩
  have henc : Encodable (.ofKeys [encodeUtf8 [ 'k']]) := fun k hk => by
    obtain rfl := List.mem_singleton.mp hk
    exact isValidUTF8_encodeUtf8 _
  obtain ⟨raw,hraw,hmem⟩ := fetch_all (lockAndStray [255]) Nat.one_pos (isValidUTF8_lockAndStray _)
    (Or.inl (Option.some_ne_none _)) henc .unbounded none
  have hstray : strayCell [255] ∈ raw := by
    refine (hmem _).mpr ⟨Or.inl (Option.some_ne_none _),henc,?_,?_,timePredicate_unbounded _,?_⟩
    · exact List.mem_cons_of_mem _ List.mem_cons_self
    · simp [RowSelection.ofKeys,RowSelection.selects,strayCell]
    · exact fun u hu => by cases hu
  have hnot : ¬ Readable (.ofProcess []) (fun _ b => some b) (strayCell [255]) := by
    obtain ⟨e,he⟩ := fromKey_strayCell [255]
    rw [readable_unregistered he]
    exact not_not.mpr decodeUtf8_255
  obtain ⟨e,he,-⟩ := readByteRows_all_error hraw ⟨_,hstray,hnot⟩
  obtain ⟨lock,hlock⟩ := Attributes.exists_fromKey_of_imported
    (show ⟨Concurrency.lock.toColumn,.uint64String⟩ ∈ importedAttributes by decide) []
  have hsame := hone _ ⟨lock,hlock⟩
  beta_reduce at hsame
  rw [he] at hsame
  cases hread : readByteRows (.ofProcess []) (fun _ b => some b) .storage (lockAndStray [255]) 1
      (.ofKeys [encodeUtf8 [ 'k']]) (.one Concurrency.lock.toColumn) .unbounded none with
  | ok d =>
    rw [hread] at hsame
    cases hsame
  | error e' =>
    obtain ⟨value,hvalue,-⟩ := readByteRows_one_error hlock hraw hread
    cases hvalue

end Example

end ColumnFilter
end Vast
end KvdbClient
