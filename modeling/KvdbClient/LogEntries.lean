import KvdbClient.NewestCells
import KvdbClient.NumpyCodec

/-! The operation logs: `read_log_entries` of `base.py`, with the columns of `attributes.py`. -/
namespace KvdbClient

namespace OperationLogs

def operationId : Column := ⟨['0'],encodeUtf8 "operation_id".toList⟩
def undoOperationId : Column := ⟨['2'],encodeUtf8 "undo_operation_id".toList⟩
def redoOperationId : Column := ⟨['2'],encodeUtf8 "redo_operation_id".toList⟩
def status : Column := ⟨['0'],encodeUtf8 "operation_status".toList⟩
def operationException : Column := ⟨['0'],encodeUtf8 "operation_exception".toList⟩
def operationTimeStamp : Column := ⟨['0'],encodeUtf8 "operation_ts".toList⟩

def all : List Column :=
  [operationId,undoOperationId,redoOperationId,userId.toColumn,rootId,
    NumPy.OperationLogs.sourceId.toColumn,NumPy.OperationLogs.sinkId.toColumn,
    NumPy.OperationLogs.sourceCoordinate.toColumn,NumPy.OperationLogs.sinkCoordinate.toColumn,
    NumPy.OperationLogs.boundingBoxOffset.toColumn,NumPy.OperationLogs.addedEdge.toColumn,
    NumPy.OperationLogs.removedEdge.toColumn,NumPy.OperationLogs.affinity.toColumn,status,
    operationException,operationTimeStamp,NumPy.OperationLogs.l2ChunkLockScope.toColumn]

end OperationLogs

/-- An error of the read, `KeyError`, `IndexError`, and `TypeError` for a row that is no
dictionary. -/
inductive LogError
  | read (e : ReadError)
  | key (c : Column)
  | index
  | type
  deriving DecidableEq

/-- A log record after the loop: the columns, and what is under `"timestamp"`, a value or the time
of a cell. -/
structure LogEntry (V : Type) where
  columns : Dict Column V
  timestamp : V ⊕ ℤ

section Loop

variable {V : Type}

/-- `log_record[c][0]`. -/
def firstCell (d : Dict Column (List (Cell V))) (c : Column) : Except LogError (Cell V) :=
  match d.get? c with
  | none => .error (.key c)
  | some [] => .error .index
  | some (x :: _) => .ok x

/-- Only the `KeyError` of the timestamp is caught. -/
def entryTimestamp (d : Dict Column (List (Cell V))) : Except LogError (V ⊕ ℤ) :=
  match firstCell d OperationLogs.operationTimeStamp with
  | .ok x => .ok (.inl x.value)
  | .error (.key _) => (firstCell d OperationLogs.rootId).map fun x => .inr x.timestamp
  | .error e => .error e

/-- `v[0].value`. -/
def firstValue : List (Cell V) → Except LogError V
  | [] => .error .index
  | x :: _ => .ok x.value

def logEntry : RowData V → Except LogError (LogEntry V)
  | .cells _ => .error .type
  | .columns d => do
    let timestamp ← entryTimestamp d
    return ⟨← d.traverse fun _ => firstValue,timestamp⟩

/-- The nodes of the read: the operations of the list, or all up to the largest one. -/
def logSelection (maxOperationId : ℕ) : Option (List ℕ) → NodeSelection
  | none => .ofRange 0 maxOperationId true
  | some operationIds => .ofIds operationIds

def readLogEntries (reg : Registry V) (maxRowKeyCount : ℕ) (store : List StoredCell)
    (counters : Bytes → ℕ) (b : Service) (operationIds : Option (List ℕ)) (userId : Option Text)
    (properties : Option (List Column)) (w : Window) : Except LogError (Dict ℕ (LogEntry V)) :=
  match b.readNodes reg maxRowKeyCount store (.many (properties.getD OperationLogs.all)) w userId
    (logSelection (IdAllocation.getMaxOperationId counters) operationIds) with
  | .error e => .error (.read e)
  -- without logs the empty dictionary is returned, as the loop would leave it
  | .ok logs => logs.traverse fun _ => logEntry

end Loop

def IsSelected (maxOperationId : ℕ) : Option (List ℕ) → ℕ → Prop
  | none, id => id ≤ maxOperationId
  | some operationIds, id => id ∈ operationIds

instance (maxOperationId : ℕ) : ∀ operationIds id, Decidable (IsSelected maxOperationId operationIds id)
  | none, id => inferInstanceAs (Decidable (id ≤ _))
  | some _, id => inferInstanceAs (Decidable (id ∈ _))

def requestedCells (content : List StoredCell) (counters : Bytes → ℕ)
    (operationIds : Option (List ℕ)) (properties : Option (List Column)) (w : Window) (id : ℕ) :
    List StoredCell :=
  if IsSelected (IdAllocation.getMaxOperationId counters) operationIds id then
    matching content (.many (properties.getD OperationLogs.all)) w (serializeUint64 id false false)
  else []

section Entries

variable {V : Type} (reg : Registry V) (cells : List StoredCell)

def LogEntry.ShowsNewest (e : LogEntry V) : Prop :=
  ∀ c, (e.columns.get? c).elim (∀ x ∈ cells, x.column ≠ c) fun v =>
    ∃ x, IsNewest cells c x ∧ v = reg.deserialize c x.value

def Timed : Prop :=
  ∃ x ∈ cells, x.column = OperationLogs.operationTimeStamp ∨ x.column = OperationLogs.rootId

variable {reg cells} {d : Dict Column (List (Cell V))}
  (hd : ∀ c, (d.get? c).elim (∀ x ∈ cells, x.column ≠ c) fun l =>
    ∃ x, IsNewest cells c x ∧ l.head? = some (returned reg x))
include hd

theorem firstCell_of_mem {c : Column} (h : ∃ x ∈ cells, x.column = c) :
    ∃ x, firstCell d c = .ok x := by
  have hc := hd c
  rw [firstCell]
  cases hget : d.get? c with
  | none =>
    rw [hget] at hc
    obtain ⟨x,hx,hxc⟩ := h
    exact absurd hxc (hc x hx)
  | some l =>
    rw [hget] at hc
    obtain ⟨x,_,hl⟩ := hc
    cases l with
    | nil => cases hl
    | cons y l => exact ⟨y,rfl⟩

theorem firstCell_of_not_mem {c : Column} (h : ¬ ∃ x ∈ cells, x.column = c) :
    firstCell d c = .error (.key c) := by
  have hc := hd c
  rw [firstCell]
  cases hget : d.get? c with
  | none => rfl
  | some l =>
    rw [hget] at hc
    obtain ⟨x,⟨hx,hxc,_⟩,_⟩ := hc
    exact absurd ⟨x,hx,hxc⟩ h

/-- The timestamp is missing exactly from records without both of the columns. -/
theorem entryTimestamp_cases :
    (Timed cells ∧ ∃ t, entryTimestamp d = .ok t) ∨
      ¬ Timed cells ∧ entryTimestamp d = .error (.key OperationLogs.rootId) := by
  by_cases hts : ∃ x ∈ cells, x.column = OperationLogs.operationTimeStamp
  · obtain ⟨y,hy⟩ := firstCell_of_mem hd hts
    obtain ⟨x,hx,hxc⟩ := hts
    exact Or.inl ⟨⟨x,hx,Or.inl hxc⟩,.inl y.value,by rw [entryTimestamp,hy]⟩
  · have hnone := firstCell_of_not_mem hd hts
    by_cases hroot : ∃ x ∈ cells, x.column = OperationLogs.rootId
    · obtain ⟨y,hy⟩ := firstCell_of_mem hd hroot
      obtain ⟨x,hx,hxc⟩ := hroot
      exact Or.inl ⟨⟨x,hx,Or.inr hxc⟩,.inr y.timestamp,by rw [entryTimestamp,hnone,hy]; rfl⟩
    · refine Or.inr ⟨?_,by rw [entryTimestamp,hnone,firstCell_of_not_mem hd hroot]; rfl⟩
      rintro ⟨x,hx,hxc | hxc⟩
      · exact hts ⟨x,hx,hxc⟩
      · exact hroot ⟨x,hx,hxc⟩

theorem traverse_firstValue : ∃ r, d.traverse (fun _ => firstValue) = .ok r ∧
    ∀ c, (r.get? c).elim (∀ x ∈ cells, x.column ≠ c) fun v =>
      ∃ x, IsNewest cells c x ∧ v = reg.deserialize c x.value := by
  refine Dict.traverse_elim fun c => ?_
  have hc := hd c
  cases hget : d.get? c with
  | none =>
    rw [hget] at hc
    exact hc
  | some l =>
    rw [hget] at hc
    obtain ⟨x,hx,hhead⟩ := hc
    cases l with
    | nil => cases hhead
    | cons y l =>
      obtain rfl : y = returned reg x := Option.some.inj hhead
      exact ⟨_,rfl,x,hx,by rw [← hx.2.1]; rfl⟩

end Entries

/-- The call returns records for exactly the operations with cells, with the newest values. -/
def ReturnsEntries {V : Type} (reg : Registry V) (r : Except LogError (Dict ℕ (LogEntry V)))
    (cells : ℕ → List StoredCell) : Prop :=
  ∃ d, r = .ok d ∧ ∀ id, (d.get? id).elim (cells id = []) fun e =>
    cells id ≠ [] ∧ e.ShowsNewest reg (cells id)

section Calls

variable {V : Type} {reg : Registry V}

theorem logEntry_cases {cells : List StoredCell} {row : RowData V}
    (h : StartsWithNewest reg cells (some row)) :
    (Timed cells ∧ ∃ e, logEntry row = .ok e ∧ e.ShowsNewest reg cells) ∨
      ¬ Timed cells ∧ logEntry row = .error (.key OperationLogs.rootId) := by
  obtain ⟨d,hrow,hd⟩ := h.exists_columns h.ne_nil
  obtain rfl := Option.some.inj hrow
  rcases entryTimestamp_cases hd with ⟨htimed,t,ht⟩ | ⟨htimed,ht⟩
  · obtain ⟨r,hr,hvalues⟩ := traverse_firstValue hd
    refine Or.inl ⟨htimed,⟨r,t⟩,?_,hvalues⟩
    simp only [logEntry,ht,hr,bind,Except.bind,pure,Except.pure]
  · exact Or.inr ⟨htimed,by simp only [logEntry,ht,bind,Except.bind]⟩

/-- The loop raises for one record without a time, and otherwise leaves the newest values. -/
theorem returnsEntries_traverse_iff {cells : ℕ → List StoredCell} {logs : Dict ℕ (RowData V)}
    (h : ∀ id, StartsWithNewest reg (cells id) (logs.get? id)) :
    ReturnsEntries reg (logs.traverse fun _ => logEntry) cells ↔
      ∀ id, cells id ≠ [] → Timed (cells id) := by
  constructor
  · rintro ⟨d,hd,_⟩ id hne
    by_contra htimed
    obtain ⟨_,hrow,_⟩ := (h id).exists_columns hne
    obtain ⟨_,herror⟩ := (logEntry_cases (hrow ▸ h id)).resolve_left fun hok => htimed hok.1
    obtain ⟨e,he⟩ := Dict.traverse_error (f := fun _ => logEntry) hrow herror
    rw [he] at hd
    cases hd
  · intro htimed
    refine Dict.traverse_elim fun id => ?_
    have hid := h id
    cases hrow : logs.get? id with
    | none =>
      rw [hrow] at hid
      by_contra hne
      obtain ⟨_,hsome,_⟩ := hid.exists_columns hne
      cases hsome
    | some row =>
      rw [hrow] at hid
      obtain ⟨_,e,he,hshows⟩ := (logEntry_cases hid).resolve_right fun herror =>
        herror.1 (htimed id hid.ne_nil)
      exact ⟨e,he,hid.ne_nil,hshows⟩

variable {content : List StoredCell} {b : Service} {maxRowKeyCount : ℕ}

theorem readNodes_logSelection (h : OfKinds reg content) (hb : b.DeliversNewest content)
    (hmax : 0 < maxRowKeyCount) {maxOperationId : ℕ} (hlast : maxOperationId < 2^64)
    {operationIds : Option (List ℕ)} (hids : ∀ ids ∈ operationIds, ∀ id ∈ ids, id < 2^64)
    {cs : List Column} (hcols : cs ≠ []) {w : Window} (hw : b = .bigTable → w.EndSet) :
    ∃ logs, b.readNodes reg maxRowKeyCount (b.table content) (.many cs) w none
        (logSelection maxOperationId operationIds) = .ok logs ∧
      ∀ id, StartsWithNewest reg (if IsSelected maxOperationId operationIds id then
        matching content (.many cs) w (serializeUint64 id false false) else []) (logs.get? id) := by
  cases operationIds with
  | some ids =>
    obtain ⟨logs,hlogs,hget⟩ := Service.readNodes_newest w hb hw hmax h.registered hcols
      (s := .ofIds ids) (Or.inl (by simp [NodeSelection.ofIds]))
      fun x _ hsel => by
        obtain ⟨id,hid,hx⟩ := selects_ofIds.mp hsel
        exact ⟨id,hids ids rfl id hid,hx⟩
    refine ⟨logs,hlogs,fun id => ?_⟩
    have hid := hget id
    rwa [if_congr selects_ofIds_iff rfl rfl] at hid
  | none =>
    obtain ⟨logs,hlogs,hget⟩ := Service.readNodes_newest w hb hw hmax h.registered hcols
      (s := .ofRange 0 maxOperationId true) (Or.inr (by simp [NodeSelection.ofRange]))
      fun x hx hsel => exists_id_of_selects h (by norm_num) hlast hx hsel
    refine ⟨logs,hlogs,fun id => ?_⟩
    have hid := hget id
    rw [ite_selects h (by norm_num) hlast fun hne => by
      obtain ⟨x,hx⟩ := List.exists_mem_of_ne_nil _ hne
      obtain ⟨hx,hk⟩ := List.mem_filter.mp hx
      exact ⟨x,hx,(of_decide_eq_true hk).1⟩] at hid
    have hrange : IdInRange 0 maxOperationId true id ↔ id ≤ maxOperationId := by
      simp [IdInRange]
    rwa [if_congr hrange rfl rfl] at hid

end Calls

/-- The call returns a record with the newest values for exactly the selected operations that have
a cell, if and only if each of them has one of `OperationTimeStamp` or `RootID`: its time. Bigtable
has to get the end of the window as one. -/
theorem readLogEntries_iff {V : Type} (reg : Registry V) (content : List StoredCell)
    (h : OfKinds reg content) (b : Service) (hb : b.DeliversNewest content) {maxRowKeyCount : ℕ}
    (hmax : 0 < maxRowKeyCount) (counters : Bytes → ℕ)
    (hlast : IdAllocation.getMaxOperationId counters < 2^64) (operationIds : Option (List ℕ))
    (hids : ∀ ids ∈ operationIds, ∀ id ∈ ids, id < 2^64) (properties : Option (List Column))
    (hprops : properties ≠ some []) (w : Window) (hw : b = .bigTable → w.EndSet) :
    ReturnsEntries reg (readLogEntries reg maxRowKeyCount (b.table content) counters b operationIds
        none properties w) (requestedCells content counters operationIds properties w) ↔
      ∀ id, requestedCells content counters operationIds properties w id ≠ [] →
        Timed (requestedCells content counters operationIds properties w id) := by
  have hcols : properties.getD OperationLogs.all ≠ [] := by
    cases properties with
    | none => exact List.cons_ne_nil _ _
    | some cs => exact fun hnil => hprops (congrArg some hnil)
  obtain ⟨logs,hlogs,hget⟩ := readNodes_logSelection h hb hmax hlast hids hcols hw
  rw [readLogEntries,hlogs]
  exact returnsEntries_traverse_iff hget

def createdAfter : List StoredCell :=
  [⟨serializeUint64 1 false false,OperationLogs.userId.toColumn,3,encodeUtf8 ['a']⟩,
    ⟨serializeUint64 1 false false,OperationLogs.rootId,5,[2]⟩,
    ⟨serializeUint64 1 false false,OperationLogs.rootId,4,[1]⟩,
    ⟨serializeUint64 2 false false,OperationLogs.userId.toColumn,6,encodeUtf8 ['b']⟩]

theorem createdAfter_ofKinds : OfKinds usersOnly createdAfter := by
  refine ⟨fun x hx => ?_,by decide⟩
  have hkey : x.rowKey = serializeUint64 1 false false ∨ x.rowKey = serializeUint64 2 false false := by
    revert x
    decide
  rcases hkey with hkey | hkey
  · exact ⟨.node 1,by norm_num [RowKind.Valid],hkey⟩
  · exact ⟨.node 2,by norm_num [RowKind.Valid],hkey⟩

/-- The complete operation alone, its roots asked for twice. -/
theorem readLogEntries_complete :
    ReturnsEntries usersOnly (readLogEntries usersOnly 1
        (inMicros createdAfter) (fun _ => 2) .bigTable (some [1,1]) none
        (some [OperationLogs.rootId,OperationLogs.userId.toColumn,OperationLogs.rootId]) .unbounded)
      (requestedCells createdAfter (fun _ => 2) (some [1,1])
        (some [OperationLogs.rootId,OperationLogs.userId.toColumn,OperationLogs.rootId])
        .unbounded) := by
  have hnewest : NewestFirst createdAfter := by
    simp only [NewestFirst]
    decide
  refine (readLogEntries_iff _ createdAfter createdAfter_ofKinds .bigTable hnewest one_pos (fun _ => 2)
    (by decide) (some [1,1]) (by simp) _ (by simp) .unbounded
      fun _ => Window.unbounded_endSet).mpr fun id hne => ?_
  by_cases hid : id ∈ [1,1]
  · obtain rfl : id = 1 := by simpa using hid
    exact ⟨⟨serializeUint64 1 false false,OperationLogs.rootId,5,[2]⟩,by decide,Or.inr rfl⟩
  · exact absurd (if_neg hid) hne

/-- All operations, with all their columns: the one that was only created has no time, and nothing
is returned. -/
theorem readLogEntries_created_raises :
    readLogEntries usersOnly 1000 (inMicros createdAfter)
        (fun _ => 2) .bigTable none none none .unbounded = .error (.key OperationLogs.rootId) ∧
      ¬ ReturnsEntries usersOnly (readLogEntries usersOnly 1000 (inMicros createdAfter)
        (fun _ => 2) .bigTable none none none .unbounded)
        (requestedCells createdAfter (fun _ => 2) none none .unbounded) := by
  have hraises : readLogEntries usersOnly 1000
      (inMicros createdAfter) (fun _ => 2) .bigTable none none none .unbounded =
      .error (.key OperationLogs.rootId) := by
    rfl
  refine ⟨hraises,?_⟩
  rintro ⟨d,hd,_⟩
  rw [hraises] at hd
  cases hd

end KvdbClient
