import KvdbClient.BackendStores
import KvdbClient.RelatedDicts

/-! The HBase client down to the JSON of its requests and responses: the cell sets that it writes and
how the server takes them, the scanners that it asks for, and what it makes of their responses.
Deletes have no body. -/
namespace KvdbClient
namespace HBase.Rest

open Wire

def columnBytes (c : Column) : Bytes := encodeUtf8 (c.familyId ++ [':']) ++ c.key

section Scanners

def jsonOf (c : StoredCell) : JsonCell where
  column := encodeValue (columnBytes c.column)
  value := encodeValue c.value
  timestamp := some c.timestamp

/-- `_rows_to_cellset`: every row of a response once. -/
def rowsToCellset (page : List StoredCell) : List JsonRow :=
  (Dict.group StoredCell.rowKey page).entries.map fun e => ⟨encodeValue e.1,e.2.map jsonOf⟩

structure ScannerBody where
  startRow : Option Text
  endRow : Option Text
  batch : ℕ
  column : List Text
  startTime : Option ℤ
  endTime : Option ℤ

def createScanner (body : ScannerBody) (store : List StoredCell) :
    Except WireError (List StoredCell) := do
  let startRow ← decodeValue (body.startRow.getD [])
  let endRow ← body.endRow.mapM decodeValue
  return store.filter fun c => startRow ≤ c.rowKey ∧ (∀ e ∈ endRow, c.rowKey < e) ∧
    (body.column = [] ∨ columnBytes c.column ∈ body.column.map encodeUtf8) ∧
    (∀ t ∈ body.startTime, t ≤ c.timestamp) ∧ ∀ t ∈ body.endTime, c.timestamp < t

end Scanners

/-- The `columns` argument: `None`, one attribute, or a list of attributes. -/
inductive Attrs
  | all
  | one (a : RegisteredAttribute)
  | many (as : List RegisteredAttribute)

def Attrs.toColumns : Attrs → Columns
  | all => .all
  | one a => .one a.toColumn
  | many as => .many (as.map RegisteredAttribute.toColumn)

def buildColumnSpec (a : RegisteredAttribute) : Except WireError Text := do
  let key ← decodeText a.key
  return a.familyId ++ ':'::key

def buildColumnSpecs : Attrs → Except WireError (List Text)
  | .all => .ok []
  | .one a => [a].mapM buildColumnSpec
  | .many as => as.mapM buildColumnSpec

def singleColumn : Attrs → Bool
  | .one _ => true
  | _ => false

structure ReadCell (V : Type) where
  value : V
  timestamp : Option ℤ

/-- A row after the deserializing loop. -/
inductive ReadRow (V : Type)
  | columns (d : Dict RegisteredAttribute (List (ReadCell V)))
  | single (cells : List (ReadCell V))

/-- `PreconditionError`, or what is raised on the way to the JSON or from it. -/
inductive RestError
  | precondition
  | wire (e : WireError)

section Reads

variable (attributes : Attributes) (p : Paging) (store : List StoredCell)

section Fetches

variable (colSpecs : List Text) (single : Bool) (w : Window) (maxRowKeyCount : ℕ)

def scannerBody (startKey endKey : Bytes) (endKeyInclusive : Bool) : ScannerBody where
  startRow := some (encodeValue startKey)
  endRow := some (encodeValue (if endKeyInclusive then endKey ++ [0] else endKey))
  batch := maxRowKeyCount
  column := colSpecs
  startTime := w.startTime.map fun t => toHbaseTs (getHbaseCompatibleTimeStamp t false)
  endTime := w.endTime.map fun t => toHbaseTs (getHbaseCompatibleTimeStamp t w.endTimeInclusive)

def fetchRowsByRange (startKey endKey : Bytes) (endKeyInclusive : Bool) :
    Except WireError (Dict Bytes RowCells) := do
  let cells ← createScanner (scannerBody colSpecs w maxRowKeyCount startKey endKey endKeyInclusive) store
  (p.pages cells).foldlM (fun result page => do
    let parsed ← Wire.parseCellResponse attributes single (rowsToCellset page)
    return result.update parsed) .empty

def fetchRowsByKeys (rowKeys : List Bytes) : Except WireError (Dict Bytes RowCells) :=
  let sortedKeys := rowKeys.insertionSort (· ≤ ·)
  match sortedKeys.head?, sortedKeys.getLast? with
  | some least, some greatest => do
    let allRows ← fetchRowsByRange attributes p store colSpecs single w maxRowKeyCount least greatest true
    return allRows.filter fun k _ => k ∈ rowKeys
  | _, _ => .ok .empty

end Fetches

section Typed

variable {V : Type} (decode : RegisteredAttribute → Bytes → V)

def deserializeCell (a : RegisteredAttribute) (x : WireCell) : ReadCell V := ⟨decode a x.value,x.timestamp⟩

/-- The deserializing loop of `_read_byte_rows`: the cells of a single column are decoded by the
attribute that was asked for, all others by the one that was found. -/
def deserializeRow (columns : Attrs) : RowCells → ReadRow V
  | .columns d => .columns (d.mapValues fun a l => l.map (deserializeCell decode a))
  | .single l =>
    match columns with
    | .one a => .single (l.map (deserializeCell decode a))
    | _ => .single []

def liftWire {α : Type} : Except WireError α → Except RestError α
  | .ok a => .ok a
  | .error e => .error (.wire e)

def readByteRows (columns : Attrs) (w : Window) (maxRowKeyCount : ℕ) (rows : RowSelection)
    (_userId : Option Text) : Except RestError (Dict Bytes (ReadRow V)) := do
  let colSpecs ← liftWire (buildColumnSpecs columns)
  let single := singleColumn columns
  let rows ← match rows.rowKeys, rows.startKey, rows.endKey with
    | some ks, _, _ => liftWire ((chunked maxRowKeyCount ks).foldlM (fun rows batch => do
        let fetched ← fetchRowsByKeys attributes p store colSpecs single w maxRowKeyCount batch
        return rows.update fetched) .empty)
    | none, some s, some e => liftWire (fetchRowsByRange attributes p store colSpecs single w
        maxRowKeyCount s e rows.endKeyInclusive)
    | _, _, _ => .error .precondition
  return rows.mapValues fun _ => deserializeRow decode columns

end Typed

/-- `families[fam][qual].append(cell)`. -/
def append {α : Type} (d : Families α) (c : Column) (x : α) : Families α :=
  d.set c.familyId (((d.get? c.familyId).getD .empty).push c.key x)

def partialRowAdapter (rawRow : JsonRow) : Except WireError (Families WireCell) :=
  rawRow.cells.foldlM (fun families cell => do
    let bytes ← decodeValue cell.column
    let colDecoded ← decodeText bytes
    let parts ← splitSpec colDecoded
    let value ← decodeValue cell.value
    return append families ⟨parts.1,encodeUtf8 parts.2⟩
      ⟨value,cell.timestamp.map hbaseTsToDatetime⟩) .empty

def consumableRows (rawRows : List JsonRow) : Except WireError (Dict Bytes (Families WireCell)) :=
  rawRows.foldlM (fun rows row => do
    let rowKey ← decodeValue row.key
    let adapter ← partialRowAdapter row
    return rows.set rowKey adapter) .empty

def readAllRows : Except WireError (Dict Bytes (Families WireCell)) := do
  let cells ← createScanner ⟨none,none,1000,[],none,none⟩ store
  consumableRows ((p.pages cells).flatMap rowsToCellset)

end Reads

section Writes

def receiveCell (rowKey : Bytes) (cell : JsonCell) : Except WireError CellPut := do
  let bytes ← decodeValue cell.column
  let colSpec ← decodeText bytes
  let parts ← splitSpec colSpec
  let value ← decodeValue cell.value
  return ⟨rowKey,⟨parts.1,encodeUtf8 parts.2⟩,cell.timestamp,value⟩

def receive (body : List JsonRow) : Except WireError (List CellPut) := do
  let rows ← body.mapM fun row => do
    let rowKey ← decodeValue row.key
    row.cells.mapM (receiveCell rowKey)
  return rows.flatten

variable (attempts : ℕ → ℕ → Attempt) (clock : ℕ → ℕ → ℤ)

/-- The loop of `_write_rows`; a body that the server does not understand is never answered. -/
def writeBlocks : List (List Wire.Mutation) → ℕ → Versioned → Bool × Versioned
  | [], _, t => (true,t)
  | block :: blocks, j, t =>
    match receive (Wire.buildCellsetJson block) with
    | .ok body =>
      match putRowsWithRetry (attempts j) (clock j) body 5 0 t with
      | (true,t) => writeBlocks blocks (j+1) t
      | (false,t) => (false,t)
    | .error _ => (false,t)

def writeRows (rows : List Wire.Mutation) (blockSize : ℕ) (t : Versioned) : Bool × Versioned :=
  writeBlocks attempts clock (chunked blockSize rows) 0 t

variable {V : Type} {reg : Registry V}

/-- `mutate_row` of values that are serialized. -/
def mutateRow (m : Vast.Mutation reg) : Except WireError Wire.Mutation :=
  m.values.entries.foldlM (fun x e => x.setCell e.1.familyId e.1.key e.2 m.timeStamp) ⟨m.rowKey,.empty⟩

/-- A write whose rows cannot be built sends nothing. -/
def storeStep (t : TableId) (m : Versioned) (c : StoreCall reg × Delivery) : Versioned :=
  match c.1 with
  | .write rows blockSize _ =>
    match rows.mapM mutateRow with
    | .ok mutations => (writeRows c.2.attempts c.2.clock mutations blockSize m).2
    | .error _ => m
  | .deleteCells d => (deleteRequests t d).foldl (applyDelete t) m
  | .deleteRow k => applyDelete t m (deleteRow t k)

def storeRun (t : TableId) (calls : List (StoreCall reg × Delivery)) : Versioned :=
  calls.foldl (storeStep t) fun _ => none

end Writes

end HBase.Rest
end KvdbClient
