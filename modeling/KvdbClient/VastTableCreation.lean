import KvdbClient.TableMetaUpdates

/-! `create_table` of the VAST client: a table, its version and its meta in three committed steps,
between which a call can fail. -/
namespace KvdbClient
namespace Vast

/-- Where a call fails: in the transaction that creates the table, which is then rolled back, or once
a step is done. -/
inductive FailurePoint
  | inTransaction
  | afterTransaction
  | afterVersion
  | afterMeta
  deriving DecidableEq

structure CreateTable (V : Type) where
  tableMeta : V
  version : Text
  failIfExists : Bool
  fails : Option FailurePoint
  now : ℤ

section Client

variable {V : Type} (reg : Registry V) (a : Arrangement) (maxRowKeyCount : ℕ)
  (dumps : V → Option Bytes)

def readsVersion (table : List StoredCell) : Except RootError (Option V) :=
  readTableVersion ((Service.vast a).client reg maxRowKeyCount none table)

def versionCell (version : Text) (ts : ℤ) : StoredCell :=
  ⟨TableVersion.key,TableVersion.version,ts,encodeUtf8 version⟩

/-- `add_table_version`, whose assertion fails when there is a version. -/
def addTableVersion (version : Text) (now : ℤ) (table : List StoredCell) :
    Option (List StoredCell) :=
  match readsVersion reg a maxRowKeyCount table with
  | .ok none =>
    some ((Service.vast a).put table (versionCell version (getVastCompatibleTimeStamp now false)))
  | _ => none

/-- What follows the creation of the table: its version, and `update_table_meta` without a delete.
The call returns when nothing fails. -/
def fillTable (call : CreateTable V) (table : List StoredCell) : Bool × List StoredCell :=
  if call.fails = some .afterTransaction then (false,table)
  else
    match addTableVersion reg a maxRowKeyCount call.version call.now table with
    | none => (false,table)
    | some table =>
      if call.fails = some .afterVersion then (false,table)
      else
        let r := updateTableMeta (.vast a) dumps call.tableMeta false ⟨false,false⟩
          ⟨[getVastCompatibleTimeStamp call.now false],true⟩ table none
        (r.returned && call.fails ≠ some .afterMeta,r.store)

/-- `create_table`: whether it returns, and the table. Only a call that has created the table itself
writes the version and the meta. -/
def createTable (call : CreateTable V) (table : Option (List StoredCell)) :
    Bool × Option (List StoredCell) :=
  if call.fails = some .inTransaction then (false,table)
  else
    match table with
    | some table =>
      if call.failIfExists then (false,some table)
      else (call.fails ≠ some .afterTransaction,some table)
    | none =>
      let r := fillTable reg a maxRowKeyCount dumps call []
      (r.1,some r.2)

/-- A history of calls: every call, whether it returned, and the table it left. -/
def creates : List (CreateTable V) → Option (List StoredCell) →
    List (CreateTable V × Bool × Option (List StoredCell))
  | [], _ => []
  | call :: calls, table =>
    let r := createTable reg a maxRowKeyCount dumps call table
    (call,r) :: creates calls r.2

def Ready (table : Option (List StoredCell)) : Prop :=
  ∃ cells, table = some cells ∧ (∃ v, readsVersion reg a maxRowKeyCount cells = .ok (some v)) ∧
    ∃ m, readsMeta (.vast a) reg maxRowKeyCount cells = .ok (some m)

/-- The call may create the table, but does not get to the end of writing the meta. -/
def CreateTable.Interrupted (call : CreateTable V) : Prop :=
  call.fails = some .afterTransaction ∨ call.fails = some .afterVersion ∨ dumps call.tableMeta = none

/-- The call accepts a table that exists, and does not fail. -/
def CreateTable.Reuses (call : CreateTable V) : Prop :=
  call.failIfExists = false ∧ call.fails ≠ some .inTransaction ∧ call.fails ≠ some .afterTransaction

/-- The first call whose transaction is committed also writes the meta, or no later call reuses the
table. -/
def Completed : List (CreateTable V) → Prop
  | [] => True
  | call :: calls =>
    if call.fails = some .inTransaction then Completed calls
    else ¬ call.Interrupted dumps ∨ ∀ c ∈ calls, ¬ c.Reuses

variable {reg maxRowKeyCount}

theorem versionKey_ne_metaKey : TableVersion.key ≠ TableMeta.key := by decide

theorem readsVersion_eq (hmax : 0 < maxRowKeyCount)
    (hreg : reg.registered TableVersion.version = true) {table : List StoredCell}
    (h : (Service.vast a).Plain reg table TableVersion.key) :
    readsVersion reg a maxRowKeyCount table =
      .ok (newestOf reg TableVersion.version (rowOfTable table TableVersion.key)) :=
  readTableVersion_eq (b := .vast a) h hmax hreg none

theorem readsMeta_vast (hmax : 0 < maxRowKeyCount)
    (hreg : reg.registered TableMeta.metaColumn = true) {table : List StoredCell}
    (h : (Service.vast a).Plain reg table TableMeta.key) :
    readsMeta (.vast a) reg maxRowKeyCount table =
      .ok (newestOf reg TableMeta.metaColumn (rowOfTable table TableMeta.key)) :=
  readTableMeta_eq (b := .vast a) h hmax hreg none

theorem addTableVersion_nil (hmax : 0 < maxRowKeyCount)
    (hreg : reg.registered TableVersion.version = true) (version : Text) (now : ℤ) :
    addTableVersion reg a maxRowKeyCount version now [] =
      some [versionCell version (getVastCompatibleTimeStamp now false)] := by
  have hnil : (Service.vast a).Plain reg [] TableVersion.key :=
    ⟨Nat.zero_le 1,fun x hx => by cases hx⟩
  rw [addTableVersion,readsVersion_eq a hmax hreg hnil]
  rfl

theorem not_ready_of_no_meta (hmax : 0 < maxRowKeyCount)
    (hmeta : reg.registered TableMeta.metaColumn = true) {table : List StoredCell}
    (h : rowOfTable table TableMeta.key = []) : ¬ Ready reg a maxRowKeyCount (some table) := by
  rintro ⟨_,hcells,-,m,hm⟩
  cases hcells
  rw [readsMeta_vast a hmax hmeta ⟨by simp [h],by simp [h]⟩,h] at hm
  cases hm

theorem ready_of_both (hmax : 0 < maxRowKeyCount)
    (hversion : reg.registered TableVersion.version = true)
    (hmeta : reg.registered TableMeta.metaColumn = true) (version payload : Bytes) (ts ts' : ℤ) :
    Ready reg a maxRowKeyCount
      (some [⟨TableVersion.key,TableVersion.version,ts,version⟩,metaCell payload ts']) := by
  have hv : rowOfTable [⟨TableVersion.key,TableVersion.version,ts,version⟩,metaCell payload ts']
      TableVersion.key = [⟨TableVersion.key,TableVersion.version,ts,version⟩] := by
    simp [rowOfTable,metaCell,versionKey_ne_metaKey.symm]
  have hm : rowOfTable [⟨TableVersion.key,TableVersion.version,ts,version⟩,metaCell payload ts']
      TableMeta.key = [metaCell payload ts'] := by
    simp [rowOfTable,metaCell,versionKey_ne_metaKey]
  refine ⟨_,rfl,⟨reg.deserialize TableVersion.version version,?_⟩,
    reg.deserialize TableMeta.metaColumn payload,?_⟩
  · rw [readsVersion_eq a hmax hversion ⟨by simp [hv],fun x hx => ?_⟩,hv]
    · simp [newestOf]
    · obtain rfl := List.mem_singleton.mp (hv ▸ hx)
      exact reg.decodable _ hversion
  · rw [readsMeta_vast a hmax hmeta ⟨by simp [hm],fun x hx => ?_⟩,hm]
    · simp [newestOf,metaCell]
    · obtain rfl := List.mem_singleton.mp (hm ▸ hx)
      exact reg.decodable _ hmeta

theorem spec_of_interrupted (hmax : 0 < maxRowKeyCount)
    (hmeta : reg.registered TableMeta.metaColumn = true) {call : CreateTable V}
    (hi : call.Interrupted dumps) {r : Bool × List StoredCell} (hraises : r.1 = false)
    (hnil : rowOfTable r.2 TableMeta.key = []) :
    (Ready reg a maxRowKeyCount (some r.2) ↔ ¬ call.Interrupted dumps) ∧
      (r.1 = true → ¬ call.Interrupted dumps) := by
  refine ⟨iff_of_false (not_ready_of_no_meta a hmax hmeta hnil) (not_not_intro hi),fun h => ?_⟩
  rw [hraises] at h
  cases h

/-- A created table is ready unless the call was interrupted, and then the call raises. -/
theorem fillTable_spec (hmax : 0 < maxRowKeyCount)
    (hversion : reg.registered TableVersion.version = true)
    (hmeta : reg.registered TableMeta.metaColumn = true) (call : CreateTable V) :
    let r := fillTable reg a maxRowKeyCount dumps call []
    (Ready reg a maxRowKeyCount (some r.2) ↔ ¬ call.Interrupted dumps) ∧
      (r.1 = true → ¬ call.Interrupted dumps) := by
  intro r
  have hadd := addTableVersion_nil a hmax hversion call.version call.now
  have hversionOnly : ∀ ts, rowOfTable [versionCell call.version ts] TableMeta.key = [] := fun ts => by
    simp [rowOfTable,versionCell,versionKey_ne_metaKey]
  by_cases htx : call.fails = some .afterTransaction
  · have hr : r = (false,[]) := by simp only [r,fillTable,htx,if_true]
    rw [hr]
    exact spec_of_interrupted a dumps hmax hmeta (Or.inl htx) rfl rfl
  by_cases hv : call.fails = some .afterVersion
  · have hr : r = (false,[versionCell call.version (getVastCompatibleTimeStamp call.now false)]) := by
      simp only [r,fillTable,if_neg htx,hadd,if_pos hv]
    rw [hr]
    exact spec_of_interrupted a dumps hmax hmeta (Or.inr (Or.inl hv)) rfl (hversionOnly _)
  cases hdumps : dumps call.tableMeta with
  | none =>
    have hr : r = (false,[versionCell call.version (getVastCompatibleTimeStamp call.now false)]) := by
      simp only [r,fillTable,if_neg htx,hadd,if_neg hv,updateTableMeta,hdumps]
      rfl
    rw [hr]
    exact spec_of_interrupted a dumps hmax hmeta (Or.inr (Or.inr hdumps)) rfl (hversionOnly _)
  | some payload =>
    have hr : r.2 = [versionCell call.version (getVastCompatibleTimeStamp call.now false),
        metaCell payload (getVastCompatibleTimeStamp call.now false)] := by
      simp only [r,fillTable,if_neg htx,hadd,if_neg hv,updateTableMeta,hdumps]
      rfl
    have hi : ¬ call.Interrupted dumps := by
      rintro (h | h | h)
      · exact htx h
      · exact hv h
      · rw [hdumps] at h
        cases h
    rw [hr]
    exact ⟨iff_of_true (ready_of_both a hmax hversion hmeta _ _ _ _) hi,fun _ => hi⟩

/-- Calls on a table that exists leave it alone, and those that reuse it return. -/
theorem creates_some (calls : List (CreateTable V)) (table : List StoredCell) :
    (∀ r ∈ creates reg a maxRowKeyCount dumps calls (some table), r.1.failIfExists = false →
        r.2.1 = true → Ready reg a maxRowKeyCount r.2.2) ↔
      Ready reg a maxRowKeyCount (some table) ∨ ∀ c ∈ calls, ¬ c.Reuses := by
  induction calls with
  | nil => simp [creates]
  | cons call calls ih =>
    have hcall : createTable reg a maxRowKeyCount dumps call (some table) =
        ((createTable reg a maxRowKeyCount dumps call (some table)).1,some table) := by
      simp only [createTable]
      split
      · rfl
      · split <;> rfl
    have hreturns : (call.failIfExists = false ∧
        (createTable reg a maxRowKeyCount dumps call (some table)).1 = true) ↔ call.Reuses := by
      simp only [createTable,CreateTable.Reuses]
      split
      · simp [*]
      · cases call.failIfExists <;> simp [*]
    rw [creates,hcall,List.forall_mem_cons,ih,List.forall_mem_cons,← hreturns]
    tauto

variable (reg maxRowKeyCount) in
/-- Whenever a reusing call returns, the table has its version and its meta: exactly when the call
that creates the table gets to the end of writing the meta, or no later call reuses the table. -/
theorem createTable_restartable_iff (hmax : 0 < maxRowKeyCount)
    (hversion : reg.registered TableVersion.version = true)
    (hmeta : reg.registered TableMeta.metaColumn = true) (calls : List (CreateTable V)) :
    (∀ r ∈ creates reg a maxRowKeyCount dumps calls none, r.1.failIfExists = false →
        r.2.1 = true → Ready reg a maxRowKeyCount r.2.2) ↔ Completed dumps calls := by
  induction calls with
  | nil => simp [creates,Completed]
  | cons call calls ih =>
    rw [creates,List.forall_mem_cons,Completed]
    by_cases htx : call.fails = some .inTransaction
    · have hcall : createTable reg a maxRowKeyCount dumps call none = (false,none) := by
        rw [createTable,if_pos htx]
      rw [if_pos htx,hcall,ih]
      exact and_iff_right fun _ h => (by cases h)
    · have hcall : createTable reg a maxRowKeyCount dumps call none =
          ((fillTable reg a maxRowKeyCount dumps call []).1,
            some (fillTable reg a maxRowKeyCount dumps call []).2) := by
        rw [createTable,if_neg htx]
      obtain ⟨hready,hreturns⟩ := fillTable_spec a dumps hmax hversion hmeta call
      rw [if_neg htx,hcall,creates_some,hready]
      exact and_iff_right fun _ h => hreturns h

end Client

section Example

def callOf (failIfExists : Bool) (fails : Option FailurePoint) : CreateTable Bytes :=
  ⟨[7],['1'],failIfExists,fails,0⟩

/-- A first call that fails before the table exists, one whose answer is lost, and one that reuses
the table. -/
theorem createTable_restartable_retried :
    Ready keptBytes .storage 1 (some [versionCell ['1'] (getVastCompatibleTimeStamp 0 false),
      metaCell [7] (getVastCompatibleTimeStamp 0 false)]) :=
  (createTable_restartable_iff keptBytes .storage 1 some (by decide) rfl rfl
      [callOf true (some .inTransaction),callOf true (some .afterMeta),callOf false none]).mpr
    (Or.inl (by simp [callOf,CreateTable.Interrupted]))
    (callOf false none,true,some [versionCell ['1'] (getVastCompatibleTimeStamp 0 false),
      metaCell [7] (getVastCompatibleTimeStamp 0 false)])
    (List.mem_cons_of_mem _ (List.mem_cons_of_mem _ List.mem_cons_self)) rfl rfl

/-- A call that fails once its transaction is committed, and one that reuses the table. -/
theorem createTable_reuses_empty_table :
    ¬ ∀ r ∈ creates keptBytes .storage 1 some [callOf true (some .afterTransaction),callOf false none]
        none, r.1.failIfExists = false → r.2.1 = true → Ready keptBytes .storage 1 r.2.2 := by
  have hnot : ¬ Ready keptBytes .storage 1 (some []) :=
    not_ready_of_no_meta .storage (by decide) rfl rfl
  intro h
  exact hnot (h (callOf false none,true,some [])
    (List.mem_cons_of_mem _ List.mem_cons_self) rfl rfl)

end Example

end Vast
end KvdbClient
