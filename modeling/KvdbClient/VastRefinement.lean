import KvdbClient.TimeWindows

/-! Writes and deletes of the VAST client on its append-only table, against the wide-column map that
the table stands for. -/
namespace KvdbClient
namespace Vast

structure Version where
  rowKey : Bytes
  column : Column
  timestamp : ℤ
  deriving DecidableEq

abbrev WideColumn := Version → Option Bytes

def versionOf (x : StoredCell) : Version := ⟨x.rowKey,x.column,x.timestamp⟩

section Operations

variable {V : Type} (reg : Registry V)

/-- The arguments of `mutate_row`, with the serialized values of attributes, and the clock. -/
structure Mutation where
  rowKey : Bytes
  values : Dict Column Bytes
  timeStamp : Option ℤ
  now : ℤ
  registered : ∀ c ∈ values.keys, reg.registered c = true

inductive Operation
  | write (rows : List (Mutation reg)) (blockSize : ℕ) (positive : 0 < blockSize)
  | deleteCells (mutations : List (Bytes × Column × List ℤ)) (rowKeysToDelete : List Bytes)
  | deleteRow (rowKey : Bytes)

variable {reg}

def Mutation.cells (m : Mutation reg) : List StoredCell :=
  m.values.entries.map fun e =>
    ⟨m.rowKey,e.1,getVastCompatibleTimeStamp (m.timeStamp.getD m.now) false,e.2⟩

def mutateRow (m : Mutation reg) : Except ReadError (List StoredCell) := do
  let _ ← encodeRowKey m.rowKey
  return m.cells

/-- `_write_rows`: all chunks are inserted in one transaction. -/
def writeRows (table : List StoredCell) (rows : List (List StoredCell)) (blockSize : ℕ) :
    List StoredCell :=
  (chunked blockSize rows.flatten).foldl (· ++ ·) table

def deleteMatching (table : List StoredCell) (p : Predicate) : List StoredCell :=
  table.filter fun x => !p x

def deleteRow (table : List StoredCell) (rowKey : Bytes) : Except ReadError (List StoredCell) := do
  return deleteMatching table (← buildPredicate (.ofKeys [rowKey]) .all .unbounded)

def deleteCell (rowKey : Bytes) (column : Column) (table : List StoredCell) (ts : ℤ) :
    Except ReadError (List StoredCell) := do
  return deleteMatching table
    (← buildPredicate (.ofKeys [rowKey]) (.one column) ⟨some ts,some ts,true⟩)

def deleteCells (table : List StoredCell) (mutations : List (Bytes × Column × List ℤ))
    (rowKeysToDelete : List Bytes) : Except ReadError (List StoredCell) := do
  let table ← mutations.foldlM (fun t m => m.2.2.foldlM (deleteCell m.1 m.2.1) t) table
  rowKeysToDelete.foldlM deleteRow table

/-- A call that raises leaves the table alone: no transaction was begun, or it is rolled back. -/
def step (table : List StoredCell) : Operation reg → List StoredCell
  | .write rows blockSize _ =>
    match rows.mapM mutateRow with
    | .ok cells => writeRows table cells blockSize
    | .error _ => table
  | .deleteCells mutations keys => ((deleteCells table mutations keys).toOption).getD table
  | .deleteRow k => ((deleteRow table k).toOption).getD table

def run (ops : List (Operation reg)) : List StoredCell := ops.foldl step []

end Operations

section Specification

variable {V : Type} {reg : Registry V}

def WideColumn.put (m : WideColumn) (v : Version) (b : Bytes) : WideColumn :=
  Function.update m v (some b)

/-- The last write to a version stays. -/
def WideColumn.write (map : WideColumn) (m : Mutation reg) : WideColumn :=
  m.values.entries.foldl (fun map e =>
    map.put ⟨m.rowKey,e.1,floorMs (m.timeStamp.getD m.now)⟩ e.2) map

def Operation.Valid : Operation reg → Prop
  | .write rows _ _ => ∀ m ∈ rows, m.rowKey.toByteArray.IsValidUTF8
  | .deleteCells mutations keys =>
    (∀ m ∈ mutations, m.2.2 ≠ [] → m.1.toByteArray.IsValidUTF8) ∧
      ∀ k ∈ keys, k.toByteArray.IsValidUTF8
  | .deleteRow k => k.toByteArray.IsValidUTF8

instance : (op : Operation reg) → Decidable op.Valid
  | .write rows _ _ => inferInstanceAs (Decidable (∀ m ∈ rows, _))
  | .deleteCells mutations keys =>
    inferInstanceAs (Decidable ((∀ m ∈ mutations, m.2.2 ≠ [] → _) ∧ ∀ k ∈ keys, _))
  | .deleteRow k => inferInstanceAs (Decidable (k.toByteArray.IsValidUTF8))

def Operation.Deletes : Operation reg → Version → Prop
  | .write _ _ _, _ => False
  | .deleteCells mutations keys, v =>
    (∃ m ∈ mutations, v.rowKey = m.1 ∧ v.column = m.2.1 ∧ ∃ ts ∈ m.2.2, v.timestamp = floorMs ts) ∨
      v.rowKey ∈ keys
  | .deleteRow k, v => v.rowKey = k

instance : (op : Operation reg) → (v : Version) → Decidable (op.Deletes v)
  | .write _ _ _, _ => inferInstanceAs (Decidable False)
  | .deleteCells mutations keys, v =>
    inferInstanceAs (Decidable ((∃ m ∈ mutations, _ ∧ _ ∧ ∃ ts ∈ m.2.2, _) ∨ v.rowKey ∈ keys))
  | .deleteRow k, v => inferInstanceAs (Decidable (v.rowKey = k))

/-- What an operation does to the map; one that raises does nothing. -/
def WideColumn.step (map : WideColumn) (op : Operation reg) : WideColumn :=
  if op.Valid then
    match op with
    | .write rows _ _ => rows.foldl WideColumn.write map
    | op => fun v => if op.Deletes v then none else map v
  else map

def WideColumn.run (ops : List (Operation reg)) : WideColumn :=
  ops.foldl WideColumn.step fun _ => none

variable (reg) in
/-- The versions of one column of one row, newest first, each with the value of the map. -/
def Shows (map : WideColumn) (k : Bytes) (c : Column) (l : List (Cell V)) : Prop :=
  l.Pairwise (fun x y => y.timestamp < x.timestamp) ∧
    ∀ x, x ∈ l ↔ ∃ b, map ⟨k,c,x.timestamp⟩ = some b ∧ x.value = reg.deserialize c b

/-- Every read of one attribute of a row shows the map, in whatever order the service returns the
rows of a query. -/
def Implements (reg : Registry V) (maxRowKeyCount : ℕ) (table : List StoredCell) (map : WideColumn) :
    Prop :=
  ∀ a k c, k.toByteArray.IsValidUTF8 → reg.registered c = true →
    ∃ l, readByteRow reg a table maxRowKeyCount k (.one c) .unbounded = .ok (.cells l) ∧
      Shows reg map k c l

/-- No cell of a write is a version that is there, or one that the same call writes too. -/
def Operation.Fresh (table : List StoredCell) : Operation reg → Prop
  | .write rows _ _ => (∀ m ∈ rows, m.rowKey.toByteArray.IsValidUTF8) →
    ((rows.flatMap Mutation.cells).map versionOf).Nodup ∧
      ∀ x ∈ rows.flatMap Mutation.cells, ∀ y ∈ table, versionOf x ≠ versionOf y
  | _ => True

instance (table : List StoredCell) : (op : Operation reg) → Decidable (op.Fresh table)
  | .write rows _ _ => inferInstanceAs (Decidable ((∀ m ∈ rows, _) → _ ∧ _))
  | .deleteCells _ _ => inferInstanceAs (Decidable True)
  | .deleteRow _ => inferInstanceAs (Decidable True)

end Specification

section Table

variable {V : Type} {reg : Registry V}

def Wellformed (reg : Registry V) (table : List StoredCell) : Prop :=
  ∀ x ∈ table, x.rowKey.toByteArray.IsValidUTF8 ∧ reg.registered x.column = true

def Distinct (table : List StoredCell) : Prop := (table.map versionOf).Nodup

def Represents (table : List StoredCell) (map : WideColumn) : Prop :=
  ∀ v b, map v = some b ↔ ∃ x ∈ table, versionOf x = v ∧ x.value = b

theorem mapM_mutateRow_of_valid {rows : List (Mutation reg)}
    (h : ∀ m ∈ rows, m.rowKey.toByteArray.IsValidUTF8) :
    rows.mapM mutateRow = .ok (rows.map Mutation.cells) := by
  induction rows with
  | nil => rfl
  | cons m rows ih =>
    rw [List.mapM_cons,mutateRow,encodeRowKey,if_pos (h m List.mem_cons_self),
      ih fun m hm => h m (List.mem_cons_of_mem _ hm)]
    rfl

theorem mapM_mutateRow_of_not_valid {rows : List (Mutation reg)}
    (h : ¬ ∀ m ∈ rows, m.rowKey.toByteArray.IsValidUTF8) :
    ∃ e, rows.mapM mutateRow = .error e := by
  induction rows with
  | nil => exact absurd (by simp) h
  | cons m rows ih =>
    rw [List.mapM_cons,mutateRow,encodeRowKey]
    by_cases hm : m.rowKey.toByteArray.IsValidUTF8
    · obtain ⟨e,he⟩ := ih fun hrows => h (by simpa [hm] using hrows)
      exact ⟨e,by rw [if_pos hm,he]; rfl⟩
    · exact ⟨_,by rw [if_neg hm]; rfl⟩

theorem writeRows_eq {table : List StoredCell} {rows : List (List StoredCell)} {blockSize : ℕ}
    (h : 0 < blockSize) : writeRows table rows blockSize = table ++ rows.flatten := by
  have happend : ∀ (chunks : List (List StoredCell)) t, chunks.foldl (· ++ ·) t = t ++ chunks.flatten :=
    fun chunks => by
      induction chunks with
      | nil => simp
      | cons c chunks ih => exact fun t => by rw [List.foldl_cons,ih,List.flatten_cons,List.append_assoc]
  rw [writeRows,happend,flatten_chunked h]

theorem step_write {table : List StoredCell} {rows : List (Mutation reg)} {blockSize : ℕ}
    {hpos : 0 < blockSize} (h : ∀ m ∈ rows, m.rowKey.toByteArray.IsValidUTF8) :
    step table (.write rows blockSize hpos) = table ++ rows.flatMap Mutation.cells := by
  simp only [step,mapM_mutateRow_of_valid h,writeRows_eq hpos,List.flatMap]

theorem step_write_of_not_valid {table : List StoredCell} {rows : List (Mutation reg)}
    {blockSize : ℕ} {hpos : 0 < blockSize} (h : ¬ ∀ m ∈ rows, m.rowKey.toByteArray.IsValidUTF8) :
    step table (.write rows blockSize hpos) = table := by
  obtain ⟨e,he⟩ := mapM_mutateRow_of_not_valid h
  simp only [step,he]

theorem foldlM_filter {α : Type} {f : List StoredCell → α → Except ReadError (List StoredCell)}
    {P : α → Prop} {q : α → StoredCell → Bool}
    (hok : ∀ t a, P a → f t a = .ok (t.filter fun x => !q a x))
    (herr : ∀ t a, ¬ P a → ∃ e, f t a = .error e) (l : List α) (t : List StoredCell) :
    ((∀ a ∈ l, P a) → l.foldlM f t = .ok (t.filter fun x => !l.any fun a => q a x)) ∧
      ((¬ ∀ a ∈ l, P a) → ∃ e, l.foldlM f t = .error e) := by
  induction l generalizing t with
  | nil => exact ⟨fun _ => by simp [pure,Except.pure],fun h => absurd (by simp) h⟩
  | cons a l ih =>
    constructor
    · intro h
      rw [List.foldlM_cons,hok t a (h a List.mem_cons_self)]
      refine ((ih _).1 fun b hb => h b (List.mem_cons_of_mem _ hb)).trans ?_
      rw [List.filter_filter]
      refine congrArg Except.ok (List.filter_congr fun x _ => ?_)
      rw [List.any_cons,Bool.not_or,Bool.and_comm]
    · intro h
      by_cases ha : P a
      · obtain ⟨e,he⟩ := (ih (t.filter fun x => !q a x)).2 fun hl => h (by simpa [ha] using hl)
        exact ⟨e,by rw [List.foldlM_cons,hok t a ha]; exact he⟩
      · obtain ⟨e,he⟩ := herr t a ha
        exact ⟨e,by rw [List.foldlM_cons,he]; rfl⟩

theorem deleteCell_of_valid {k : Bytes} (hk : k.toByteArray.IsValidUTF8) (c : Column)
    (t : List StoredCell) (ts : ℤ) :
    deleteCell k c t ts =
      .ok (t.filter fun x => !decide (x.rowKey = k ∧ x.column = c ∧ x.timestamp = floorMs ts)) := by
  have htime : ∀ x : StoredCell, timePredicate ⟨some ts,some ts,true⟩ x = true ↔
      x.timestamp = floorMs ts := fun x => by
    rw [timePredicate_iff]
    simp only [Option.mem_def,Option.some.injEq,forall_eq',if_true]
    omega
  have hp : buildPredicate (.ofKeys [k]) (.one c) ⟨some ts,some ts,true⟩ =
      .ok fun x => decide (x.rowKey ∈ [k]) && decide (x.column = c) &&
        timePredicate ⟨some ts,some ts,true⟩ x := by
    simp [buildPredicate,rowKeyPredicate,RowSelection.ofKeys,encodeRowKey,hk,columnPredicate,
      normalizeColumns,Columns.toList,bind,Except.bind,pure,Except.pure]
  simp only [deleteCell,hp,bind,Except.bind,pure,Except.pure,deleteMatching]
  refine congrArg Except.ok (List.filter_congr fun x _ => congrArg _ (Bool.eq_iff_iff.mpr ?_))
  simp only [Bool.and_eq_true,decide_eq_true_eq,List.mem_singleton,htime,and_assoc]

theorem deleteCell_of_not_valid {k : Bytes} (hk : ¬ k.toByteArray.IsValidUTF8) (c : Column)
    (t : List StoredCell) (ts : ℤ) : ∃ e, deleteCell k c t ts = .error e :=
  ⟨.undecodableKey k,by simp [deleteCell,buildPredicate,rowKeyPredicate,RowSelection.ofKeys,
    encodeRowKey,hk,bind,Except.bind]⟩

theorem deleteRow_of_valid {k : Bytes} (hk : k.toByteArray.IsValidUTF8) (t : List StoredCell) :
    deleteRow t k = .ok (t.filter fun x => !decide (x.rowKey = k)) := by
  have hp : buildPredicate (.ofKeys [k]) .all .unbounded =
      .ok fun x => decide (x.rowKey ∈ [k]) && true && timePredicate .unbounded x := by
    simp [buildPredicate,rowKeyPredicate,RowSelection.ofKeys,encodeRowKey,hk,columnPredicate,
      normalizeColumns,Columns.toList,bind,Except.bind,pure,Except.pure]
  simp only [deleteRow,hp,bind,Except.bind,pure,Except.pure,deleteMatching]
  refine congrArg Except.ok (List.filter_congr fun x _ => congrArg _ (Bool.eq_iff_iff.mpr ?_))
  simp [timePredicate,Window.unbounded]

theorem deleteRow_of_not_valid {k : Bytes} (hk : ¬ k.toByteArray.IsValidUTF8)
    (t : List StoredCell) : ∃ e, deleteRow t k = .error e :=
  ⟨.undecodableKey k,by simp [deleteRow,buildPredicate,rowKeyPredicate,RowSelection.ofKeys,
    encodeRowKey,hk,bind,Except.bind]⟩

variable (reg) in
/-- `delete_cells` takes away what it names, or nothing. -/
theorem deleteCells_spec (t : List StoredCell) (mutations : List (Bytes × Column × List ℤ))
    (keys : List Bytes) :
    ((Operation.deleteCells mutations keys : Operation reg).Valid →
      deleteCells t mutations keys = .ok (t.filter fun x =>
        !decide ((Operation.deleteCells mutations keys : Operation reg).Deletes (versionOf x)))) ∧
    (¬ (Operation.deleteCells mutations keys : Operation reg).Valid →
      ∃ e, deleteCells t mutations keys = .error e) := by
  have hmutations := foldlM_filter
    (f := fun t (m : Bytes × Column × List ℤ) => m.2.2.foldlM (deleteCell m.1 m.2.1) t)
    (P := fun m => m.2.2 ≠ [] → m.1.toByteArray.IsValidUTF8)
    (q := fun m x => m.2.2.any fun ts =>
      decide (x.rowKey = m.1 ∧ x.column = m.2.1 ∧ x.timestamp = floorMs ts))
    (fun t m hm => by
      by_cases hnil : m.2.2 = []
      · simp [hnil,pure,Except.pure]
      · exact (foldlM_filter (P := fun _ => True) (fun t ts _ => deleteCell_of_valid (hm hnil) m.2.1 t ts)
          (fun _ _ h => absurd trivial h) m.2.2 t).1 fun _ _ => trivial)
    (fun t m hm => by
      obtain ⟨hne,hk⟩ := Classical.not_imp.mp hm
      obtain ⟨ts,tss,hts⟩ := List.exists_cons_of_ne_nil hne
      obtain ⟨e,he⟩ := deleteCell_of_not_valid hk m.2.1 t ts
      exact ⟨e,by rw [hts,List.foldlM_cons,he]; rfl⟩) mutations t
  have hkeys := foldlM_filter (P := fun k : Bytes => k.toByteArray.IsValidUTF8)
    (q := fun k x => decide (x.rowKey = k)) (fun t k hk => deleteRow_of_valid hk t)
    (fun t k hk => deleteRow_of_not_valid hk t) keys
  constructor
  · rintro ⟨hm,hk⟩
    rw [deleteCells,hmutations.1 hm]
    refine ((hkeys _).1 hk).trans ?_
    rw [List.filter_filter]
    refine congrArg Except.ok (List.filter_congr fun x _ => ?_)
    rw [← Bool.not_or,Bool.or_comm]
    refine congrArg _ (Bool.eq_iff_iff.mpr (Iff.trans ?_ decide_eq_true_iff.symm))
    simp only [Bool.or_eq_true,List.any_eq_true,decide_eq_true_eq]
    refine or_congr (exists_congr fun m => and_congr_right fun _ => ?_) (by simp [versionOf])
    constructor
    · rintro ⟨ts,hts,hrow,hcolumn,ht⟩
      exact ⟨hrow,hcolumn,ts,hts,ht⟩
    · rintro ⟨hrow,hcolumn,ts,hts,ht⟩
      exact ⟨ts,hts,hrow,hcolumn,ht⟩
  · intro h
    by_cases hm : ∀ m ∈ mutations, m.2.2 ≠ [] → m.1.toByteArray.IsValidUTF8
    · obtain ⟨e,he⟩ := (hkeys (t.filter _)).2 fun hk => h ⟨hm,hk⟩
      exact ⟨e,by rw [deleteCells,hmutations.1 hm]; exact he⟩
    · obtain ⟨e,he⟩ := hmutations.2 hm
      exact ⟨e,by rw [deleteCells,he]; rfl⟩

theorem step_delete (table : List StoredCell) {op : Operation reg}
    (hop : ∀ rows blockSize hpos, op ≠ .write rows blockSize hpos) :
    step table op = if op.Valid then table.filter fun x => !decide (op.Deletes (versionOf x))
      else table := by
  cases op with
  | write rows blockSize hpos => exact absurd rfl (hop rows blockSize hpos)
  | deleteCells mutations keys =>
    obtain ⟨hvalid,hnot⟩ := deleteCells_spec reg table mutations keys
    split
    · rename_i h
      simp only [step,hvalid h]
      rfl
    · rename_i h
      obtain ⟨e,he⟩ := hnot h
      simp only [step,he]
      rfl
  | deleteRow k =>
    split
    · rename_i h
      simp only [step,deleteRow_of_valid h]
      rfl
    · rename_i h
      obtain ⟨e,he⟩ := deleteRow_of_not_valid h table
      simp only [step,he]
      rfl

theorem wellformed_step {table : List StoredCell} (h : Wellformed reg table) (op : Operation reg) :
    Wellformed reg (step table op) := by
  cases op with
  | write rows blockSize hpos =>
    by_cases hvalid : ∀ m ∈ rows, m.rowKey.toByteArray.IsValidUTF8
    · rw [step_write hvalid]
      intro x hx
      rcases List.mem_append.mp hx with hx | hx
      · exact h x hx
      · obtain ⟨m,hm,hx⟩ := List.mem_flatMap.mp hx
        obtain ⟨e,he,rfl⟩ := List.mem_map.mp hx
        exact ⟨hvalid m hm,m.registered e.1 (List.mem_map.mpr ⟨e,he,rfl⟩)⟩
    · rwa [step_write_of_not_valid hvalid]
  | deleteCells | deleteRow =>
    rw [step_delete table (by simp)]
    split
    · exact fun x hx => h x (List.mem_filter.mp hx).1
    · exact h

/-- Appending a write keeps the versions distinct exactly when it is fresh. -/
theorem distinct_step_iff {table : List StoredCell} (h : Distinct table) (op : Operation reg) :
    Distinct (step table op) ↔ op.Fresh table := by
  cases op with
  | write rows blockSize hpos =>
    by_cases hvalid : ∀ m ∈ rows, m.rowKey.toByteArray.IsValidUTF8
    · rw [step_write hvalid,Distinct,List.map_append,List.nodup_append]
      simp only [Operation.Fresh]
      constructor
      · rintro ⟨_,hw,hcross⟩ _
        refine ⟨hw,fun x hx y hy heq => ?_⟩
        exact hcross _ (List.mem_map.mpr ⟨y,hy,rfl⟩) _ (List.mem_map.mpr ⟨x,hx,rfl⟩) heq.symm
      · intro hfresh
        obtain ⟨hw,hcross⟩ := hfresh hvalid
        refine ⟨h,hw,fun v hv u hu heq => ?_⟩
        obtain ⟨y,hy,rfl⟩ := List.mem_map.mp hv
        obtain ⟨x,hx,rfl⟩ := List.mem_map.mp hu
        exact hcross x hx y hy heq.symm
    · rw [step_write_of_not_valid hvalid]
      exact iff_of_true h fun hall => absurd hall hvalid
  | deleteCells | deleteRow =>
    rw [step_delete table (by simp)]
    refine iff_of_true ?_ trivial
    split
    · exact h.sublist (List.filter_sublist.map _)
    · exact h

theorem represents_append {table cells : List StoredCell} {map : WideColumn}
    (h : Represents table map) (hdistinct : Distinct (table ++ cells)) :
    Represents (table ++ cells)
      (cells.foldl (fun map x => map.put (versionOf x) x.value) map) := by
  induction cells generalizing table map with
  | nil => simpa using h
  | cons x cells ih =>
    have hsplit : table ++ x :: cells = (table ++ [x]) ++ cells := by simp
    have hx : ∀ y ∈ table, versionOf y ≠ versionOf x := fun y hy heq => by
      rw [Distinct,List.map_append,List.map_cons,List.nodup_append] at hdistinct
      exact hdistinct.2.2 _ (List.mem_map.mpr ⟨y,hy,rfl⟩) _ List.mem_cons_self heq
    rw [hsplit] at hdistinct ⊢
    refine ih (fun v b => ?_) hdistinct
    change Function.update map (versionOf x) (some x.value) v = some b ↔ _
    rw [Function.update_apply]
    simp only [List.mem_append,List.mem_singleton]
    split
    · rename_i hv
      subst hv
      constructor
      · exact fun hb => ⟨x,Or.inr rfl,rfl,Option.some.inj hb⟩
      · rintro ⟨y,hy | rfl,hyv,rfl⟩
        · exact absurd hyv (hx y hy)
        · rfl
    · rename_i hv
      rw [h v b]
      constructor
      · rintro ⟨y,hy,hyv,hyb⟩
        exact ⟨y,Or.inl hy,hyv,hyb⟩
      · rintro ⟨y,hy | rfl,hyv,hyb⟩
        · exact ⟨y,hy,hyv,hyb⟩
        · exact absurd hyv.symm hv

theorem foldl_write (rows : List (Mutation reg)) (map : WideColumn) :
    rows.foldl WideColumn.write map =
      (rows.flatMap Mutation.cells).foldl (fun map x => map.put (versionOf x) x.value) map := by
  have hone : ∀ (m : Mutation reg) (map : WideColumn), map.write m =
      m.cells.foldl (fun map x => map.put (versionOf x) x.value) map := fun m map => by
    rw [WideColumn.write,Mutation.cells,List.foldl_map]
    simp only [versionOf,getVastCompatibleTimeStamp_false]
  induction rows generalizing map with
  | nil => rfl
  | cons m rows ih => rw [List.foldl_cons,ih,hone,List.flatMap_cons,List.foldl_append]

theorem represents_delete {table : List StoredCell} {map : WideColumn} (h : Represents table map)
    (deletes : Version → Prop) [DecidablePred deletes] :
    Represents (table.filter fun x => !decide (deletes (versionOf x)))
      fun v => if deletes v then none else map v := fun v b => by
  simp only [List.mem_filter,Bool.not_eq_true',decide_eq_false_iff_not]
  split
  · rename_i hv
    refine ⟨fun hb => absurd hb (Option.some_ne_none b).symm,?_⟩
    rintro ⟨x,⟨_,hx⟩,rfl,_⟩
    exact absurd hv hx
  · rename_i hv
    rw [h v b]
    constructor
    · rintro ⟨x,hx,rfl,hb⟩
      exact ⟨x,⟨hx,hv⟩,rfl,hb⟩
    · rintro ⟨x,⟨hx,_⟩,hxv,hb⟩
      exact ⟨x,hx,hxv,hb⟩

theorem map_step_delete (map : WideColumn) {op : Operation reg}
    (hop : ∀ rows blockSize hpos, op ≠ .write rows blockSize hpos) :
    map.step op = if op.Valid then fun v => if op.Deletes v then none else map v else map := by
  cases op with
  | write rows blockSize hpos => exact absurd rfl (hop rows blockSize hpos)
  | deleteCells | deleteRow => rfl

theorem represents_step {table : List StoredCell} {map : WideColumn} (h : Represents table map)
    {op : Operation reg} (hdistinct : Distinct (step table op)) :
    Represents (step table op) (map.step op) := by
  cases op with
  | write rows blockSize hpos =>
    by_cases hvalid : ∀ m ∈ rows, m.rowKey.toByteArray.IsValidUTF8
    · rw [step_write hvalid] at hdistinct ⊢
      have hmap : map.step (.write rows blockSize hpos) = rows.foldl WideColumn.write map :=
        if_pos hvalid
      rw [hmap,foldl_write]
      exact represents_append h hdistinct
    · have hmap : map.step (.write rows blockSize hpos) = map := if_neg hvalid
      rw [step_write_of_not_valid hvalid,hmap]
      exact h
  | deleteCells | deleteRow =>
    rw [step_delete table (by simp),map_step_delete map (by simp)]
    split
    · exact represents_delete h _
    · exact h

variable {maxRowKeyCount : ℕ}

theorem implements_of_represents (hmax : 0 < maxRowKeyCount) {table : List StoredCell}
    {map : WideColumn} (hdistinct : Distinct table) (h : Represents table map) :
    Implements reg maxRowKeyCount table map := by
  intro a k c hk hc
  obtain ⟨l,hl,hread⟩ := readByteRow_one reg a table hmax hk hc .unbounded
  have hwindow : (versionsIn k c table).filter (timePredicate .unbounded) = versionsIn k c table :=
    List.filter_eq_self.mpr fun x _ => timePredicate_unbounded x
  rw [hwindow] at hl
  have hmem : ∀ x, x ∈ sortByTime l ↔ x ∈ table ∧ x.rowKey = k ∧ x.column = c := fun x => by
    rw [sortByTime,List.mem_insertionSort,hl.1.mem_iff,mem_versionsIn]
  refine ⟨_,hread,?_,fun x => ?_⟩
  · rw [List.pairwise_map]
    have hne : (sortByTime l).Pairwise fun x y => versionOf x ≠ versionOf y := by
      have hperm : (sortByTime l).Perm (versionsIn k c table) :=
        (List.perm_insertionSort _ l).trans hl.1
      refine List.pairwise_map.mp ((hperm.map versionOf).nodup_iff.mpr ?_)
      exact hdistinct.sublist (List.filter_sublist.map _)
    refine ((List.pairwise_insertionSort _ l).and hne).imp_of_mem fun {x y} hx hy hxy => ?_
    obtain ⟨_,hxk,hxc⟩ := (hmem x).mp hx
    obtain ⟨_,hyk,hyc⟩ := (hmem y).mp hy
    refine lt_of_le_of_ne hxy.1 fun ht => hxy.2 ?_
    simp only [versionOf,Version.mk.injEq]
    exact ⟨hxk.trans hyk.symm,hxc.trans hyc.symm,ht.symm⟩
  · simp only [List.mem_map,hmem]
    constructor
    · rintro ⟨y,⟨hy,rfl,rfl⟩,rfl⟩
      exact ⟨y.value,(h _ _).mpr ⟨y,hy,rfl,rfl⟩,rfl⟩
    · rintro ⟨b,hb,hvalue⟩
      obtain ⟨y,hy,hyv,rfl⟩ := (h _ _).mp hb
      obtain ⟨rfl,rfl,ht⟩ := Version.mk.inj hyv
      exact ⟨y,⟨hy,rfl,rfl⟩,by obtain ⟨v,t⟩ := x; simp_all⟩

/-- A table whose reads show one cell for each time has distinct versions. -/
theorem distinct_of_implements (hmax : 0 < maxRowKeyCount) {table : List StoredCell}
    {map : WideColumn} (hwf : Wellformed reg table) (h : Implements reg maxRowKeyCount table map) :
    Distinct table := by
  rw [Distinct,List.Nodup,List.pairwise_map,List.pairwise_iff_getElem]
  intro i j hi hj hij heq
  obtain ⟨hk,hc⟩ := hwf table[i] (List.getElem_mem hi)
  obtain ⟨cells,hcells,hshows,_⟩ := h .storage table[i].rowKey table[i].column hk hc
  obtain ⟨l,hl,hread⟩ := readByteRow_one reg .storage table hmax hk hc .unbounded
  have hwindow : (versionsIn table[i].rowKey table[i].column table).filter
      (timePredicate .unbounded) = versionsIn table[i].rowKey table[i].column table :=
    List.filter_eq_self.mpr fun x _ => timePredicate_unbounded x
  rw [hwindow] at hl
  rw [hread] at hcells
  cases hcells
  rw [List.pairwise_map] at hshows
  have hne : (versionsIn table[i].rowKey table[i].column table).Pairwise
      fun x y => x.timestamp ≠ y.timestamp := by
    have hperm : (sortByTime l).Perm _ := (List.perm_insertionSort _ l).trans hl.1
    exact (hperm.pairwise_iff fun h => h.symm).mp (hshows.imp fun h => h.ne')
  rw [versionsIn,List.pairwise_filter,List.pairwise_iff_getElem] at hne
  obtain ⟨hrow,hcolumn,ht⟩ := Version.mk.inj heq
  exact hne i j hi hj hij (by simp) (by simp [hrow,hcolumn]) ht

theorem run_append (ops : List (Operation reg)) (op : Operation reg) :
    run (ops ++ [op]) = step (run ops) op := by
  simp [run,List.foldl_append]

theorem map_run_append (ops : List (Operation reg)) (op : Operation reg) :
    WideColumn.run (ops ++ [op]) = (WideColumn.run ops).step op := by
  simp [WideColumn.run,List.foldl_append]

theorem wellformed_run (ops : List (Operation reg)) : Wellformed reg (run ops) := by
  induction ops using List.reverseRecOn with
  | nil => exact fun x hx => by cases hx
  | append_singleton ops op ih =>
    rw [run_append]
    exact wellformed_step ih op

/-- As long as writes are fresh, the table has the values of the map, one row for each. -/
theorem represents_run {ops : List (Operation reg)}
    (h : ∀ pre op, pre ++ [op] <+: ops → op.Fresh (run pre)) :
    Distinct (run ops) ∧ Represents (run ops) (WideColumn.run ops) := by
  induction ops using List.reverseRecOn with
  | nil => exact ⟨List.nodup_nil,fun v b => by simp [run,WideColumn.run]⟩
  | append_singleton ops op ih =>
    obtain ⟨hdistinct,hrepresents⟩ := ih fun pre op' hpre =>
      h pre op' (hpre.trans (List.prefix_append ops [op]))
    have hstep := (distinct_step_iff hdistinct op).mpr (h ops op (List.prefix_refl _))
    rw [run_append,map_run_append]
    exact ⟨hstep,represents_step hrepresents hstep⟩

/-- The table implements the map all along a run exactly when every write of the run is fresh. -/
theorem run_implements_iff (reg : Registry V) (maxRowKeyCount : ℕ) (hmax : 0 < maxRowKeyCount)
    (ops : List (Operation reg)) :
    (∀ pre, pre <+: ops → Implements reg maxRowKeyCount (run pre) (WideColumn.run pre)) ↔
      ∀ pre op, pre ++ [op] <+: ops → op.Fresh (run pre) := by
  constructor
  · intro h pre op hpre
    have hbefore := distinct_of_implements hmax (wellformed_run pre)
      (h pre ((List.prefix_append pre [op]).trans hpre))
    have hafter := distinct_of_implements hmax (wellformed_run (pre ++ [op])) (h _ hpre)
    rw [run_append] at hafter
    exact (distinct_step_iff hbefore op).mp hafter
  · intro h pre hpre
    obtain ⟨hdistinct,hrepresents⟩ := represents_run fun pre' op hpre' => h pre' op (hpre'.trans hpre)
    exact implements_of_represents hmax hdistinct hrepresents

theorem fresh_of_take {ops : List (Operation reg)}
    (h : ∀ i : Fin ops.length, (ops.get i).Fresh (run (ops.take i))) :
    ∀ pre op, pre ++ [op] <+: ops → op.Fresh (run pre) := by
  rintro pre op ⟨rest,rfl⟩
  have hop := h ⟨pre.length,by simp⟩
  simpa using hop

end Table

def writeParent (time : ℤ) (value : Bytes) : Operation Registry.parentOnly :=
  .write [⟨encodeUtf8 ['k'],Dict.empty.set Hierarchy.parent value,some time,9000,
    fun _ hc => decide_eq_true hc⟩] 2000 (by norm_num)

theorem step_writeParent (table : List StoredCell) (time : ℤ) (value : Bytes) :
    step table (writeParent time value) =
      table ++ [⟨encodeUtf8 ['k'],Hierarchy.parent,getVastCompatibleTimeStamp time false,value⟩] :=
  step_write fun m hm => by
    rw [List.mem_singleton.mp hm]
    exact isValidUTF8_encodeUtf8 ['k']

/-- Two versions are written, the older one is deleted, and then its time is written again. -/
def rewriteDeleted : List (Operation Registry.parentOnly) :=
  [writeParent 5500 [1],writeParent 7000 [2],
    .deleteCells [(encodeUtf8 ['k'],Hierarchy.parent,[5000])] [],writeParent 5200 [3]]

theorem run_implements_iff_rewriteDeleted : Implements .parentOnly 1000 (run rewriteDeleted)
    (WideColumn.run rewriteDeleted) :=
  (run_implements_iff _ 1000 (by norm_num) rewriteDeleted).mpr (fresh_of_take (by decide +kernel)) _
    (List.prefix_refl _)

/-- Writing a version again leaves two table rows for it. -/
theorem rewrite_not_implements :
    ¬ ∀ pre, pre <+: [writeParent 5500 [1],writeParent 5500 [2]] →
      Implements .parentOnly 1000 (run pre) (WideColumn.run pre) := by
  intro h
  have hdistinct := distinct_of_implements (by norm_num) (wellformed_run _)
    (h [writeParent 5500 [1],writeParent 5500 [2]] (List.prefix_refl _))
  have hrun : run [writeParent 5500 [1],writeParent 5500 [2]] =
      [⟨encodeUtf8 ['k'],Hierarchy.parent,5000,[1]⟩,⟨encodeUtf8 ['k'],Hierarchy.parent,5000,[2]⟩] := by
    simp only [run,List.foldl_cons,List.foldl_nil,step_writeParent]
    rfl
  rw [hrun] at hdistinct
  simp [Distinct,versionOf] at hdistinct

end Vast
end KvdbClient
