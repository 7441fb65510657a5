import KvdbClient.TableRows

/-! Replacing the meta of a table: `update_table_meta` of `base.py`, with requests that fail before
or after the service has applied them. -/
namespace KvdbClient

/-- What becomes of a delete: the service may apply it, and the call may return. -/
structure DeleteReply where
  applied : Bool
  returns : Bool

/-- What becomes of a write: the times at which the service applies it. -/
structure WriteReply where
  times : List ℤ
  returns : Bool

namespace Service

def KeepsRows : Service → Prop
  | .hbase p => ∀ store, p.KeepsRows store
  | _ => True

/-- The stored cells after a write that replaces its version. The clock of a service moves on from
one write to the next, so the last one is the newest and comes first. -/
def replaceVersion (store : List StoredCell) (x : StoredCell) : List StoredCell :=
  x :: store.filter fun y =>
    ¬ (y.rowKey = x.rowKey ∧ y.column = x.column ∧ y.timestamp = x.timestamp)

/-- VAST appends what is written. -/
def put (store : List StoredCell) (x : StoredCell) : Service → List StoredCell
  | .bigTable => replaceVersion store x
  | .hbase _ => replaceVersion store x
  | .vast _ => store ++ [x]

end Service

def deleteMeta (store : List StoredCell) : List StoredCell :=
  store.filter fun x => x.rowKey ≠ TableMeta.key

def metaCell (payload : Bytes) (ts : ℤ) : StoredCell :=
  ⟨TableMeta.key,TableMeta.metaColumn,ts,payload⟩

/-- The stored states a call passes through, the client's own `table_meta` afterwards, and whether
the call returns. -/
structure MetaUpdate (V : Type) where
  passes : List (List StoredCell)
  tableMeta : Option V
  returned : Bool

def MetaUpdate.store {V : Type} (r : MetaUpdate V) : List StoredCell := r.passes.getLastD []

section Client

variable {V : Type} (b : Service) (dumps : V → Option Bytes) (new : V)

/-- `update_table_meta`: the own meta is set after the delete, and before the new one is pickled
and written. -/
def updateTableMeta (overwrite : Bool) (del : DeleteReply) (write : WriteReply)
    (store : List StoredCell) (tableMeta : Option V) : MetaUpdate V :=
  let deleted := if overwrite && del.applied then deleteMeta store else store
  if overwrite && !del.returns then ⟨[store,deleted],tableMeta,false⟩
  else
    match dumps new with
    | none => ⟨[store,deleted],some new,false⟩
    | some payload =>
      ⟨store :: write.times.scanl (fun s ts => b.put s (metaCell payload ts)) deleted,some new,
        write.returns⟩

variable (reg : Registry V) (maxRowKeyCount : ℕ)

/-- `read_table_meta` of another client. -/
def readsMeta (store : List StoredCell) : Except RootError (Option V) :=
  RootExtension.readTableMeta (RootExtension.init (b.client reg maxRowKeyCount none store))

variable {b reg maxRowKeyCount dumps new}

/-- The cells of the row stand in the way of no read once the new meta is among them. -/
def Service.Clean (store : List StoredCell) : Service → Prop
  | .bigTable => ∀ x ∈ rowOfTable store TableMeta.key, x.column = TableMeta.metaColumn
  | .hbase _ => ∀ x ∈ rowOfTable store TableMeta.key, x.column.Decodable
  | .vast _ => rowOfTable store TableMeta.key = []

def DeleteReply.leaves (del : DeleteReply) (store : List StoredCell) : List StoredCell :=
  if del.applied then deleteMeta store else store

section Overwrite

variable {del : DeleteReply} {write : WriteReply} {store : List StoredCell} {tableMeta : Option V}

end Overwrite

end Client

section Example

def keptBytes : Registry Bytes :=
  .ofColumns [TableMeta.metaColumn,TableVersion.version] (by decide +kernel)

end Example

end KvdbClient
