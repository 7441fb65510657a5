import KvdbClient.AttributeRegistry

/-! Reads of whole rows by a process that lacks some of their columns: the items of an attribute
array after the ones its import constructs. -/
namespace KvdbClient

namespace Service

/-- The service delivers the row whole: HBase in one response, and VAST has rows with text keys. -/
def Holds (content : List StoredCell) (k : Bytes) : Service → Prop
  | .bigTable => True
  | .hbase p => p.KeepsRows content
  | .vast _ => k.toByteArray.IsValidUTF8

section Rows

variable {V : Type} (reg : Registry V) (maxRowKeyCount : ℕ) (content : List StoredCell)

/-- `_read_byte_row` with `columns=None`. -/
def readRow (k : Bytes) (b : Service) : Except ReadError (RowData V) :=
  (b.client reg maxRowKeyCount none (b.table content)).readByteRow k .all .unbounded

/-- The row of the cell is returned, with the cell's column. -/
def Shows (x : StoredCell) (b : Service) : Prop :=
  ∃ d l, b.readRow reg maxRowKeyCount content x.rowKey = .ok (.columns d) ∧ d.get? x.column = some l

variable {reg maxRowKeyCount content} {x : StoredCell}

end Rows

section Items

variable {V : Type} (decode : RegisteredAttribute → Bytes → V) (maxRowKeyCount : ℕ)
  (content : List StoredCell)

variable {maxRowKeyCount content}

end Items

end Service

end KvdbClient
