import KvdbClient.BackendReads
import KvdbClient.DeleteCells
import KvdbClient.GuardedWrite
import KvdbClient.HBaseWrites

/-! Writes and deletes on the tables of BigTable and HBase, against the wide-column map whose values
the tables hold. -/
namespace KvdbClient

open Vast (WideColumn Version versionOf)
open BigTable.GuardedWrite (RowMutationEntry)

/-- A write of what `mutate_row` returns for the rows, or a delete. -/
inductive StoreCall {V : Type} (reg : Registry V)
  | write (rows : List (Vast.Mutation reg)) (blockSize : ℕ) (positive : 0 < blockSize)
  | deleteCells (d : Deletion)
  | deleteRow (rowKey : Bytes)

def StoreCall.operation {V : Type} {reg : Registry V} : StoreCall reg → Vast.Operation reg
  | write rows blockSize positive => .write rows blockSize positive
  | deleteCells d => .deleteCells d.mutations d.rowKeysToDelete
  | deleteRow k => .deleteRow k

/-- An order in which the entries of a request are executed. -/
structure Reordering (α : Type) where
  arrange : List α → List α
  perm : ∀ l, (arrange l).Perm l

/-- What is left open of a call: the order of the entries of a batch on BigTable, and on HBase how
the attempts of every block end and when the server executes them. -/
structure Delivery where
  entries : Reordering RowMutationEntry
  deletions : Reordering (Bytes × List BigTable.RowMutation)
  attempts : ℕ → ℕ → HBase.Attempt
  clock : ℕ → ℕ → ℤ

section Steps

variable {V : Type} {reg : Registry V}

namespace BigTable

variable (takes : ℕ → Bool)

/-- `mutate_row`: the client library stamps a cell without a time with whole milliseconds. -/
def mutateRow (m : Vast.Mutation reg) : Except EntryError RowMutationEntry :=
  if takes m.values.entries.length then
    .ok ⟨m.rowKey,m.values.entries.map fun e => ⟨e.1,m.timeStamp.getD (floorMs m.now),e.2⟩⟩
  else .error (.refused m.values.entries.length)

/-- `_write_rows`: one row is a request of its own, several go through the batcher. -/
def writeRows (order : Reordering RowMutationEntry) (t : Table) : List RowMutationEntry → Table
  | [] => t
  | [entry] => entry.store t
  | rows => (order.arrange rows).foldl (fun t entry => entry.store t) t

def Row.remove (r : Row) (p : Cell → Bool) : Row where
  cells := r.cells.filter fun x => !p x
  distinct := r.distinct.filter _

def applyEntry (t : Table) (entry : Bytes × List RowMutation) : Table :=
  Function.update t entry.1 ((t entry.1).remove fun x =>
    entry.2.any (RowMutation.removes ⟨entry.1,x.column,x.timestampMicros,x.value⟩))

/-- A call that raises has sent nothing. -/
def storeStep (t : Table) (c : StoreCall reg × Delivery) : Table :=
  match c.1 with
  | .write rows _ _ =>
    match rows.mapM (mutateRow takes) with
    | .ok entries => writeRows c.2.entries t entries
    | .error _ => t
  | .deleteCells d =>
    match deleteEntries takes d with
    | .ok entries => (c.2.deletions.arrange entries).foldl applyEntry t
    | .error _ => t
  | .deleteRow k => applyEntry t (k,[.deleteAllFromRow])

def storeRun (calls : List (StoreCall reg × Delivery)) : Table :=
  calls.foldl (storeStep takes) fun _ => .empty

end BigTable

namespace HBase

def applyDelete (t : TableId) (m : Versioned) (r : HttpRequest) : Versioned := fun v =>
  if removes t ⟨v.rowKey,v.column,v.ts,[]⟩ (route r) then none else m v

def storeStep (t : TableId) (m : Versioned) (c : StoreCall reg × Delivery) : Versioned :=
  match c.1 with
  | .write rows blockSize _ => (writeRows c.2.attempts c.2.clock
      (rows.map fun r => mutateRow r.rowKey r.values r.timeStamp) blockSize m).2
  | .deleteCells d => (deleteRequests t d).foldl (applyDelete t) m
  | .deleteRow k => applyDelete t m (deleteRow t k)

def storeRun (t : TableId) (calls : List (StoreCall reg × Delivery)) : Versioned :=
  calls.foldl (storeStep t) fun _ => none

end HBase

/-- A call that all backends take: rows are text, addressable where a path names them, and have
cells, and no version is written twice; times are whole milliseconds, or round alike; and every
request is answered. -/
def StoreCall.Portable (takes : ℕ → Bool) (c : StoreCall reg × Delivery) : Prop :=
  match c.1 with
  | .write rows blockSize _ =>
    (∀ m ∈ rows, m.rowKey.toByteArray.IsValidUTF8 ∧ takes m.values.entries.length = true ∧
      ∃ ms, m.timeStamp = some (1000*ms)) ∧
    ((rows.flatMap Vast.Mutation.cells).map versionOf).Nodup ∧
    HBase.Answered c.2.attempts (chunked blockSize rows).length
  | .deleteCells d => (∀ m ∈ d.mutations, takes m.2.2.length = true) ∧ d.RoundsAlike ∧
    ∀ k, d.Uses k → k.toByteArray.IsValidUTF8 ∧ HBase.Addressable k
  | .deleteRow k => k.toByteArray.IsValidUTF8 ∧ HBase.Addressable k

end Steps

section Tables

/-- All versions of the map are of whole milliseconds, and of attributes. -/
structure OnGrid {V : Type} (reg : Registry V) (map : WideColumn) : Prop where
  whole : ∀ v b, map v = some b → 1000 ∣ v.timestamp
  registered : ∀ v b, map v = some b → reg.registered v.column = true

def BigTable.Represents (t : Table) (map : WideColumn) : Prop :=
  ∀ k x, x ∈ (t k).cells ↔ map ⟨k,x.column,x.timestampMicros⟩ = some x.value

def HBase.CellVersion.micros (v : CellVersion) : Vast.Version := ⟨v.rowKey,v.column,1000*v.ts⟩

def HBase.Represents (m : Versioned) (map : WideColumn) : Prop := m = map ∘ CellVersion.micros

theorem HBase.CellVersion.micros_injective : Function.Injective CellVersion.micros := by
  rintro ⟨k,c,t⟩ ⟨k',c',t'⟩ h
  simp only [micros,Vast.Version.mk.injEq] at h
  simp only [mk.injEq]
  exact ⟨h.1,h.2.1,by omega⟩

/-- What a service delivers of its table, newest version first. -/
def BigTable.Delivers (t : Table) (store : List StoredCell) : Prop :=
  NewestFirst store ∧ ∀ x, x ∈ store ↔ ofStored x ∈ (t x.rowKey).cells

def HBase.Delivers (m : Versioned) (store : List StoredCell) : Prop :=
  NewestFirst store ∧ ∀ x, x ∈ store ↔ m ⟨x.rowKey,x.column,x.timestamp⟩ = some x.value

end Tables

section Writes

variable {V : Type} {reg : Registry V} {map : WideColumn}

def writesOf (rows : List (Vast.Mutation reg)) : List (Vast.Version × Bytes) :=
  (rows.flatMap Vast.Mutation.cells).map fun x => (versionOf x,x.value)

theorem foldl_write_eq (rows : List (Vast.Mutation reg)) (map : WideColumn) :
    rows.foldl WideColumn.write map = KeyedWrites.write (writesOf rows) map := by
  rw [Vast.foldl_write,KeyedWrites.write,writesOf,List.foldl_map]
  rfl

namespace BigTable

variable {t : Table}

def writesOfEntry (entry : RowMutationEntry) : List (Vast.Version × Bytes) :=
  entry.mutations.map fun c => (⟨entry.rowKey,c.column,c.timestampMicros⟩,c.value)

theorem Represents.setCell (h : Represents t map) (k : Bytes) (c : Cell) :
    Represents (Function.update t k ((t k).setCell c))
      (Function.update map ⟨k,c.column,c.timestampMicros⟩ (some c.value)) := by
  intro k' x
  by_cases hk : k' = k
  · subst hk
    rw [Function.update_self,Row.mem_setCell,h k' x]
    by_cases hv : x.column = c.column ∧ x.timestampMicros = c.timestampMicros
    · obtain ⟨column,ts,value⟩ := x
      obtain ⟨column',ts',value'⟩ := c
      obtain ⟨rfl,rfl⟩ : column = column' ∧ ts = ts' := hv
      rw [Function.update_self]
      simp [SameVersion,eq_comm]
    · have hne : (⟨k',x.column,x.timestampMicros⟩ : Vast.Version) ≠
          ⟨k',c.column,c.timestampMicros⟩ := fun he => hv (Vast.Version.mk.inj he).2
      have hx : x ≠ c := fun he => hv (by rw [he]; exact ⟨rfl,rfl⟩)
      rw [Function.update_of_ne hne,or_iff_right hx,and_iff_left]
      exact fun hs => hv ⟨hs.1.symm,hs.2.symm⟩
  · have hne : (⟨k',x.column,x.timestampMicros⟩ : Vast.Version) ≠
        ⟨k,c.column,c.timestampMicros⟩ := fun he => hk (Vast.Version.mk.inj he).1
    rw [Function.update_of_ne hk,Function.update_of_ne hne,h k' x]

theorem store_eq (k : Bytes) (cells : List Cell) (t : Table) :
    RowMutationEntry.store t ⟨k,cells⟩ =
      cells.foldl (fun t c => Function.update t k ((t k).setCell c)) t := by
  induction cells generalizing t with
  | nil => exact Function.update_eq_self k t
  | cons c cells ih =>
    rw [List.foldl_cons,← ih,RowMutationEntry.store,RowMutationEntry.store,Function.update_self,
      Function.update_idem]
    rfl

theorem Represents.store (h : Represents t map) (entry : RowMutationEntry) :
    Represents (entry.store t) (KeyedWrites.write (writesOfEntry entry) map) := by
  obtain ⟨k,cells⟩ := entry
  rw [store_eq]
  induction cells generalizing t map with
  | nil => exact h
  | cons c cells ih => exact ih (h.setCell k c)

theorem Represents.foldl_store (h : Represents t map) (entries : List RowMutationEntry) :
    Represents (entries.foldl (fun t entry => entry.store t) t)
      (KeyedWrites.write (entries.flatMap writesOfEntry) map) := by
  induction entries generalizing t map with
  | nil => exact h
  | cons entry entries ih =>
    rw [List.flatMap_cons,KeyedWrites.write_append]
    exact ih (h.store entry)

theorem Represents.writeRows (h : Represents t map) (order : Reordering RowMutationEntry)
    {entries : List RowMutationEntry}
    (hnodup : ((entries.flatMap writesOfEntry).map Prod.fst).Nodup) :
    Represents (writeRows order t entries) (KeyedWrites.write (entries.flatMap writesOfEntry) map) := by
  match entries with
  | [] => exact h
  | [entry] => exact h.foldl_store [entry]
  | e₁ :: e₂ :: entries =>
    rw [KeyedWrites.write_perm ((order.perm _).flatMap_right writesOfEntry).symm hnodup]
    exact h.foldl_store _

theorem mapM_mutateRow {takes : ℕ → Bool} {rows : List (Vast.Mutation reg)}
    (h : ∀ m ∈ rows, takes m.values.entries.length = true) :
    rows.mapM (mutateRow takes) = .ok (rows.map fun m =>
      ⟨m.rowKey,m.values.entries.map fun e => ⟨e.1,m.timeStamp.getD (floorMs m.now),e.2⟩⟩) :=
  ExceptLists.mapM_ok fun m hm => by rw [mutateRow,if_pos (h m hm)]

theorem writesOfEntry_eq {m : Vast.Mutation reg} (h : ∃ ms, m.timeStamp = some (1000*ms)) :
    writesOfEntry ⟨m.rowKey,m.values.entries.map fun e =>
      ⟨e.1,m.timeStamp.getD (floorMs m.now),e.2⟩⟩ = m.cells.map fun x => (versionOf x,x.value) := by
  obtain ⟨ms,hms⟩ := h
  have hfloor : floorMs (1000*ms) = 1000*ms := by
    rw [floorMs]
    omega
  simp only [writesOfEntry,Vast.Mutation.cells,List.map_map,hms,Option.getD_some,
    getVastCompatibleTimeStamp_false]
  refine List.map_congr_left fun e _ => ?_
  simp only [Function.comp_apply,versionOf,hfloor]

end BigTable

namespace HBase

theorem map_stamped {rows : List (Vast.Mutation reg)}
    (h : ∀ m ∈ rows, ∃ ms, m.timeStamp = some (1000*ms)) (now : ℤ) :
    ((buildCellsetJson (rows.map fun r => mutateRow r.rowKey r.values r.timeStamp)).map
        (CellPut.stamped now)).map (fun w => (w.1.micros,w.2)) = writesOf rows := by
  rw [buildCellsetJson,List.flatMap_map,List.map_flatMap,List.map_flatMap,writesOf,List.map_flatMap]
  refine List.flatMap_congr fun m hm => ?_
  obtain ⟨ms,hms⟩ := h m hm
  have hround : datetimeToHbaseTs (1000*ms) = ms ∧ floorMs (1000*ms) = 1000*ms := by
    rw [datetimeToHbaseTs,floorMs]
    omega
  simp only [mutateRow,Dict.mapValues,Vast.Mutation.cells,List.map_map,hms,Option.getD_some,
    getVastCompatibleTimeStamp_false]
  refine List.map_congr_left fun e _ => ?_
  simp only [Function.comp_apply,CellPut.stamped,Option.map_some,Option.getD_some,hround,versionOf,
    CellVersion.micros]

def mutations (rows : List (Vast.Mutation reg)) : List Mutation :=
  rows.map fun r => mutateRow r.rowKey r.values r.timeStamp

variable {m : Versioned}

theorem Represents.applyCellset (h : Represents m map) {rows : List (Vast.Mutation reg)}
    (hrows : ∀ m ∈ rows, ∃ ms, m.timeStamp = some (1000*ms)) (now : ℤ) :
    Represents (applyCellset (buildCellsetJson (mutations rows)) m now)
      (KeyedWrites.write (writesOf rows) map) := by
  obtain rfl : m = map ∘ CellVersion.micros := h
  rw [Represents,HBase.applyCellset,← map_stamped hrows now,
    KeyedWrites.write_comp CellVersion.micros_injective]
  rfl

theorem Represents.foldl_applyCellset (h : Represents m map) {rows : List (Vast.Mutation reg)}
    (hrows : ∀ m ∈ rows, ∃ ms, m.timeStamp = some (1000*ms)) {times : List ℤ} (hne : times ≠ []) :
    Represents (times.foldl (HBase.applyCellset (buildCellsetJson (mutations rows))) m)
      (KeyedWrites.write (writesOf rows) map) := by
  rw [← KeyedWrites.foldl_write (writesOf rows) hne]
  clear hne
  induction times generalizing m map with
  | nil => exact h
  | cons now times ih => exact ih (h.applyCellset hrows now)

theorem Represents.deliver (h : Represents m map) {times : ℕ → List ℤ}
    {blocks : List (List (Vast.Mutation reg))} {j : ℕ}
    (hrows : ∀ m ∈ blocks.flatten, ∃ ms, m.timeStamp = some (1000*ms))
    (htimes : ∀ i < blocks.length, times (j+i) ≠ []) :
    Represents (deliver times (blocks.map mutations) j m)
      (KeyedWrites.write (writesOf blocks.flatten) map) := by
  induction blocks generalizing m map j with
  | nil => exact h
  | cons block blocks ih =>
    rw [List.flatten_cons] at hrows ⊢
    have happend : writesOf (block ++ blocks.flatten) = writesOf block ++ writesOf blocks.flatten := by
      simp only [writesOf,List.flatMap_append,List.map_append]
    rw [happend,KeyedWrites.write_append]
    refine ih (h.foldl_applyCellset (fun m hm => hrows m (List.mem_append_left _ hm))
      (htimes 0 (by simp))) (fun m hm => hrows m (List.mem_append_right _ hm)) fun i hi => ?_
    have hnext := htimes (i+1) (by simpa using hi)
    rwa [show j+(i+1) = j+1+i by omega] at hnext

end HBase

end Writes

section Deletes

variable {map : WideColumn}

def cellOf (v : Vast.Version) : StoredCell := ⟨v.rowKey,v.column,v.timestamp,[]⟩

theorem BigTable.Represents.applyEntry {t : BigTable.Table} (h : BigTable.Represents t map)
    (entry : Bytes × List BigTable.RowMutation) :
    BigTable.Represents (BigTable.applyEntry t entry)
      (KeyedWrites.erase (fun v => entryRemoves entry (cellOf v)) map) := by
  have hvalue : ∀ x : BigTable.Cell,
      RowMutation.removes ⟨entry.1,x.column,x.timestampMicros,x.value⟩ =
        RowMutation.removes (cellOf ⟨entry.1,x.column,x.timestampMicros⟩) := fun x => by
    funext m
    cases m <;> rfl
  intro k x
  by_cases hk : k = entry.1
  · subst hk
    have hrow : decide ((cellOf ⟨entry.1,x.column,x.timestampMicros⟩).rowKey = entry.1) = true :=
      decide_eq_true rfl
    simp only [BigTable.applyEntry,Function.update_self,Row.remove,List.mem_filter,h entry.1 x,
      KeyedWrites.erase,entryRemoves,hvalue,hrow,Bool.true_and,Bool.not_eq_true']
    by_cases hany : entry.2.any
      (RowMutation.removes (cellOf ⟨entry.1,x.column,x.timestampMicros⟩)) = true <;> simp [hany]
  · simp only [BigTable.applyEntry,Function.update_of_ne hk,KeyedWrites.erase,entryRemoves,cellOf,hk,
      decide_false,Bool.false_and]
    exact h k x

theorem BigTable.Represents.foldl_applyEntry {t : BigTable.Table} (h : BigTable.Represents t map)
    (entries : List (Bytes × List BigTable.RowMutation)) :
    BigTable.Represents (entries.foldl BigTable.applyEntry t)
      (KeyedWrites.erase (fun v => entries.any fun entry => entryRemoves entry (cellOf v)) map) := by
  rw [← KeyedWrites.foldl_erase]
  induction entries generalizing t map with
  | nil => exact h
  | cons entry entries ih => exact ih (h.applyEntry entry)

theorem HBase.Represents.foldl_applyDelete {m : HBase.Versioned} (h : HBase.Represents m map)
    (t : HBase.TableId) (requests : List HBase.HttpRequest) {p : Vast.Version → Bool}
    (hp : ∀ v, (requests.any fun r =>
      HBase.removes t ⟨v.rowKey,v.column,v.ts,[]⟩ (HBase.route r)) = p (HBase.CellVersion.micros v)) :
    HBase.Represents (requests.foldl (HBase.applyDelete t) m) (KeyedWrites.erase p map) := by
  obtain rfl : m = map ∘ HBase.CellVersion.micros := h
  have hfold := KeyedWrites.foldl_erase
    (fun r (v : HBase.CellVersion) => HBase.removes t ⟨v.rowKey,v.column,v.ts,[]⟩ (HBase.route r))
    requests (map ∘ HBase.CellVersion.micros)
  refine hfold.trans (funext fun v => ?_)
  simp only [KeyedWrites.erase,hp,Function.comp_apply]

end Deletes

end KvdbClient
