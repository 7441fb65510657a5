import KvdbClient.ExceptLists
import KvdbClient.MaskedLists
import KvdbClient.NodeReads

/-! Root lookups on top of a client's reads: `extensions.py`. Times that are left out are the
clock's reading. -/
namespace KvdbClient

/-- What the values that are read here are to Python: node ids and counts are `uint64`, and a table
meta may have a layer count, by its property, as a dictionary or through the cloud volume. -/
structure Values (V : Type) where
  uint64 : V → ℕ
  uint64_lt : ∀ v, uint64 v < 2^64
  layerCount : V → Option ℤ

def bytesAsValues : Values Bytes where
  uint64 v := v.foldr (fun b n => b.toNat+256*n) 0 % 2^64
  uint64_lt _ := Nat.mod_lt _ (by norm_num)
  layerCount _ := none

/-- The part of `SimpleClient` that the extension uses. -/
structure Client (V : Type) where
  readNode : ℕ → Columns → Window → Except ReadError (RowData V)
  readNodes : List ℕ → Columns → Window → Except ReadError (Dict ℕ (RowData V))
  readByteRow : Bytes → Columns → Window → Except ReadError (RowData V)
  tableMeta : Option V

/-- The services behind the three clients, with what is left open of them. -/
inductive Service
  | bigTable
  | hbase (p : HBase.Paging)
  | vast (a : Vast.Arrangement)

def Service.client {V : Type} (reg : Registry V) (maxRowKeyCount : ℕ) (tableMeta : Option V)
    (store : List StoredCell) : Service → Client V
  | .bigTable =>
    { readNode nodeId columns w := BigTable.readNode reg store columns w nodeId false
      readNodes ids columns w :=
        BigTable.readNodes reg maxRowKeyCount store columns w none (.ofIds ids) false
      readByteRow k columns w := BigTable.readByteRow reg store k columns w
      tableMeta := tableMeta }
  | .hbase p =>
    { readNode nodeId columns w := HBase.readNode reg maxRowKeyCount store columns w p nodeId false
      readNodes ids columns w :=
        HBase.readNodes reg maxRowKeyCount store columns w p none (.ofIds ids) false
      readByteRow k columns w := HBase.readByteRow reg p store columns w maxRowKeyCount k
      tableMeta := tableMeta }
  | .vast a =>
    { readNode nodeId columns w := Vast.readNode reg maxRowKeyCount store columns w a nodeId false
      readNodes ids columns w :=
        Vast.readNodes reg maxRowKeyCount store columns w a none (.ofIds ids) false
      readByteRow k columns w := Vast.readByteRow reg a store maxRowKeyCount k columns w
      tableMeta := tableMeta }

inductive RootError
  | read (e : ReadError)
  | key (nodeId : ℕ)
  | index
  | noLayerCount
  | rootsNotFound
  deriving DecidableEq

def liftRead {α : Type} : Except ReadError α → Except RootError α
  | .ok x => .ok x
  | .error e => .error (.read e)

namespace RowData

variable {V : Type}

def isEmpty : RowData V → Bool
  | .columns d => d.entries.isEmpty
  | .cells l => l.isEmpty

/-- `row[0].value`; there is no column `0`. -/
def firstValue : RowData V → Except RootError V
  | .cells (x :: _) => .ok x.value
  | .cells [] => .error .index
  | .columns _ => .error (.key 0)

end RowData

structure RootExtension (V : Type) where
  client : Client V
  layerIdBits : ℕ
  layerIdBits_le : layerIdBits ≤ 64
  layerCount : Option ℤ

namespace RootExtension

def init {V : Type} (client : Client V) : RootExtension V := ⟨client,8,by norm_num,none⟩

def toInt64 (n : ℕ) : ℤ := (n : ℤ).bmod (2^64)

/-- Everything up to the time, which is floored to the millisecond. -/
def asOf (timeStamp : ℤ) : Window := ⟨none,some (getValidTimestamp timeStamp),true⟩

theorem asOf_getValidTimestamp (timeStamp : ℤ) :
    asOf (getValidTimestamp timeStamp) = asOf timeStamp := by
  have hidem : getValidTimestamp (getValidTimestamp timeStamp) = getValidTimestamp timeStamp := by
    simp only [getValidTimestamp,getCompatibleTimeStamp,Bool.false_eq_true,if_false]
    omega
  rw [asOf,asOf,hidem]

variable {V : Type} (values : Values V) (graph : RootExtension V)

def readTableMeta : Except RootError (Option V) := do
  match ← liftRead (graph.client.readByteRow TableMeta.key .all .unbounded) with
  | .columns d =>
    match d.get? TableMeta.metaColumn with
    | none => return none
    | some l => return some (← (RowData.cells l).firstValue)
  | .cells _ => return none

def readLayerCount : Except RootError ℤ := do
  let tableMeta ← match graph.client.tableMeta with
    | some v => pure (some v)
    | none => readTableMeta graph
  match tableMeta.bind values.layerCount with
  | some n => return n
  | none =>
    let row ← liftRead (graph.client.readByteRow GraphSettings.key (.one GraphSettings.layerCount)
      .unbounded)
    if row.isEmpty then throw .noLayerCount else return values.uint64 (← row.firstValue)

def resolveStopLayer : Option ℤ → Except RootError ℤ
  | some stopLayer => .ok stopLayer
  | none =>
    match graph.layerCount with
    | some n => .ok n
    | none => readLayerCount values graph

def getChunkLayer (nodeId : ℕ) : ℕ := nodeId >>> (64 - graph.layerIdBits)

/-- On an array, which is cast to `int64` before the shift. -/
def getChunkLayers (nodeIds : List ℕ) : List ℤ :=
  nodeIds.map fun n => toInt64 n >>> (64 - graph.layerIdBits)

def getParent (nodeId : ℕ) (timeStamp : ℤ) : Except RootError (Option ℕ) := do
  let parents ← liftRead (graph.client.readNode nodeId (.one Hierarchy.parent) (asOf timeStamp))
  if parents.isEmpty then return none else return some (values.uint64 (← parents.firstValue))

/-- The body of the loop of `get_parents`, which only catches `KeyError`. -/
def parentOrZero (failToZero : Bool) (parentRows : Dict ℕ (RowData V)) (nodeId : ℕ) :
    Except RootError ℕ :=
  let parent : Except RootError ℕ := match parentRows.get? nodeId with
    | none => .error (.key nodeId)
    | some row => row.firstValue.map values.uint64
  match parent with
  | .error (.key k) => if failToZero then .ok 0 else .error (.key k)
  | parent => parent

def getParents (nodeIds : List ℕ) (timeStamp : ℤ) (failToZero : Bool) :
    Except RootError (List ℕ) := do
  let parentRows ← liftRead
    (graph.client.readNodes nodeIds (.one Hierarchy.parent) (asOf timeStamp))
  nodeIds.mapM (parentOrZero values failToZero parentRows)

/-- The loop of `get_root`: nothing comes out as long as it has not ended. -/
def rootLoop (timeStamp stopLayer : ℤ) : ℕ → ℕ → List ℕ → Except RootError (Option (ℕ × List ℕ))
  | 0, _, _ => .ok none
  | fuel+1, current, allParents =>
    if (getChunkLayer graph current : ℤ) < stopLayer then do
      match ← getParent values graph current (getValidTimestamp timeStamp) with
      | none => return some (current,allParents)
      | some parent => rootLoop timeStamp stopLayer fuel parent (allParents ++ [parent])
    else .ok (some (current,allParents))

/-- `get_root`: the last node that was reached, and all of them for `get_all_parents`. -/
def getRoot (fuel nodeId : ℕ) (timeStamp : ℤ) (stopLayer : Option ℤ) :
    Except RootError (Option (ℕ × List ℕ)) := do
  let stopLayer ← resolveStopLayer values graph stopLayer
  rootLoop values graph timeStamp stopLayer fuel nodeId [nodeId]

def below (stopLayer : ℤ) (nodeIds : List ℕ) : List Bool :=
  (getChunkLayers graph nodeIds).map fun layer => layer < stopLayer

/-- The loop of `get_roots` over the result and the mask of the nodes that still climb. -/
def rootsLoop (timeStamp stopLayer : ℤ) (failToZero : Bool) :
    ℕ → List ℕ → List Bool → Except RootError (List ℕ)
  | 0, result, _ => .ok result
  | n+1, result, layerMask => do
    let filtered := MaskedLists.select layerMask result
    if filtered.isEmpty then return result
    let tempIds ← getParents values graph (MaskedLists.unique filtered) (getValidTimestamp timeStamp)
      failToZero
    let tempIds := MaskedLists.pick tempIds (MaskedLists.inverse filtered)
    let newLayerMask := MaskedLists.assign layerMask layerMask (below graph stopLayer tempIds)
    let result := MaskedLists.assign layerMask result tempIds
    if newLayerMask.all not then return result
    rootsLoop timeStamp stopLayer failToZero n result newLayerMask

def getRoots (nodeIds : List ℕ) (timeStamp : ℤ) (stopLayer : Option ℤ) (failToZero : Bool) :
    Except RootError (List ℕ) := do
  let stopLayer ← resolveStopLayer values graph stopLayer
  let layerMask := MaskedLists.fill ((below graph stopLayer nodeIds).map not)
    (List.replicate nodeIds.length true) false
  let layerMask := MaskedLists.fill (nodeIds.map fun n => n = 0) layerMask false
  let result ← rootsLoop values graph timeStamp stopLayer failToZero (stopLayer + 1).toNat nodeIds
    layerMask
  if (below graph stopLayer (result.filter fun n => n ≠ 0)).any id then throw .rootsNotFound
  return result

def isLatestRoots (rootIds : List ℕ) (timeStamp : ℤ) : Except RootError (List Bool) := do
  let rows ← liftRead (graph.client.readNodes rootIds (.one Hierarchy.newParent) (asOf timeStamp))
  return rootIds.map fun r => r ∉ rows.keys

end RootExtension
end KvdbClient
