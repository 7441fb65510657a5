import KvdbClient.BigTableRows
import KvdbClient.LockCalls
import KvdbClient.Timestamps

/-! The lock filters and lock operations of the BigTable client:
`bigtable/utils.py` and `bigtable/client.py`. -/
namespace KvdbClient
namespace BigTable

open Lease

def getRowKeyLockFilter (lockColumn : Column) (lockExpiry now : ℤ) : RowFilter :=
  .chain (.timestampRange (some (timeCutoff now lockExpiry)) none) (exactColumnFilter lockColumn)

def getRootLockFilter (lockColumn : Column) (lockExpiry : ℤ) (indefiniteLockColumn : Column)
    (now : ℤ) : RowFilter :=
  .conditional
    (.union (exactColumnFilter indefiniteLockColumn) (getRowKeyLockFilter lockColumn lockExpiry now))
    .passAll
    (exactColumnFilter Hierarchy.newParent)

def getRowKeyLockFilterWithIndefinite (lockColumn : Column) (lockExpiry : ℤ)
    (indefiniteLockColumn : Column) (now : ℤ) : RowFilter :=
  .union (exactColumnFilter indefiniteLockColumn) (getRowKeyLockFilter lockColumn lockExpiry now)

def getIndefiniteRootLockFilter (lockColumn : Column) : RowFilter :=
  .conditional (exactColumnFilter lockColumn) .passAll (exactColumnFilter Hierarchy.newParent)

def getIndefiniteRowKeyLockFilter (lockColumn : Column) : RowFilter := exactColumnFilter lockColumn

def getRowKeyRenewLockFilter (lockColumn : Attribute ℕ) (operationId : ℕ) : RowFilter :=
  .chain (exactColumnFilter lockColumn.toColumn)
    (exactValueFilter (lockColumn.serialize operationId))

def getRenewLockFilter (lockColumn : Attribute ℕ) (operationId : ℕ) : RowFilter :=
  .conditional (getRowKeyRenewLockFilter lockColumn operationId)
    (exactColumnFilter Hierarchy.newParent) .passAll

def getUnlockRootFilter (lockColumn : Attribute ℕ) (lockExpiry : ℤ) (operationId : ℕ)
    (now : ℤ) : RowFilter :=
  .chain (.timestampRange (some (timeCutoff now lockExpiry)) none)
    (.chain (exactColumnFilter lockColumn.toColumn)
      (exactValueFilter (lockColumn.serialize operationId)))

def getIndefiniteUnlockRootFilter (lockColumn : Attribute ℕ) (operationId : ℕ) : RowFilter :=
  .chain (exactColumnFilter lockColumn.toColumn)
    (exactValueFilter (lockColumn.serialize operationId))

/-- `_set_lock_mutation`: the cell is stamped with the client's clock, floored to the millisecond. -/
def lockCell (lockColumn : Attribute ℕ) (operationId : ℕ) (now : ℤ) : Cell where
  column := lockColumn.toColumn
  timestampMicros := getValidTimestamp now
  value := lockColumn.serialize operationId

def setLockMutation (lockColumn : Attribute ℕ) (operationId : ℕ) (now : ℤ) : Mutation :=
  .setCell (lockCell lockColumn operationId now)

def deleteLockMutation (lockColumn : Attribute ℕ) : Mutation :=
  .deleteRangeFromColumn lockColumn.toColumn

/-- An acquire runs its mutation as the false case, so it succeeds when the filter finds nothing. -/
def acquireWith (t : Table) (rowKey : Bytes) (filter : RowFilter) (mutation : Mutation) :
    Bool × Table :=
  let r := checkAndMutateRow t rowKey filter [] [mutation]
  (!r.1,r.2)

section Client

variable (lockExpiry now : ℤ) (t : Table)

def lockRoot (rootId operationId : ℕ) : Bool × Table :=
  acquireWith t (serializeUint64 rootId false false)
    (getRootLockFilter Concurrency.lock.toColumn lockExpiry Concurrency.indefiniteLock.toColumn now)
    (setLockMutation Concurrency.lock operationId now)

def lockRootIndefinitely (rootId operationId : ℕ) : Bool × Table :=
  acquireWith t (serializeUint64 rootId false false)
    (getIndefiniteRootLockFilter Concurrency.indefiniteLock.toColumn)
    (setLockMutation Concurrency.indefiniteLock operationId now)

def unlockRoot (rootId operationId : ℕ) : Bool × Table :=
  checkAndMutateRow t (serializeUint64 rootId false false)
    (getUnlockRootFilter Concurrency.lock lockExpiry operationId now)
    [deleteLockMutation Concurrency.lock] []

def unlockIndefinitelyLockedRoot (rootId operationId : ℕ) : Bool × Table :=
  checkAndMutateRow t (serializeUint64 rootId false false)
    (getIndefiniteUnlockRootFilter Concurrency.indefiniteLock operationId)
    [deleteLockMutation Concurrency.indefiniteLock] []

/-- The root renewal is inverted: its filter matches when the lock must not be renewed. -/
def renewLock (rootId operationId : ℕ) : Bool × Table :=
  acquireWith t (serializeUint64 rootId false false)
    (getRenewLockFilter Concurrency.lock operationId)
    (setLockMutation Concurrency.lock operationId now)

def lockByRowKey (rowKey : Bytes) (operationId : ℕ) : Bool × Table :=
  acquireWith t rowKey (getRowKeyLockFilter Concurrency.lock.toColumn lockExpiry now)
    (setLockMutation Concurrency.lock operationId now)

def lockByRowKeyWithIndefinite (rowKey : Bytes) (operationId : ℕ) : Bool × Table :=
  acquireWith t rowKey
    (getRowKeyLockFilterWithIndefinite Concurrency.lock.toColumn lockExpiry
      Concurrency.indefiniteLock.toColumn now)
    (setLockMutation Concurrency.lock operationId now)

def lockByRowKeyIndefinitely (rowKey : Bytes) (operationId : ℕ) : Bool × Table :=
  acquireWith t rowKey (getIndefiniteRowKeyLockFilter Concurrency.indefiniteLock.toColumn)
    (setLockMutation Concurrency.indefiniteLock operationId now)

def unlockByRowKey (rowKey : Bytes) (operationId : ℕ) : Bool × Table :=
  checkAndMutateRow t rowKey (getUnlockRootFilter Concurrency.lock lockExpiry operationId now)
    [deleteLockMutation Concurrency.lock] []

def unlockIndefinitelyLockedByRowKey (rowKey : Bytes) (operationId : ℕ) : Bool × Table :=
  checkAndMutateRow t rowKey (getIndefiniteUnlockRootFilter Concurrency.indefiniteLock operationId)
    [deleteLockMutation Concurrency.indefiniteLock] []

def renewLockByRowKey (rowKey : Bytes) (operationId : ℕ) : Bool × Table :=
  checkAndMutateRow t rowKey (getRowKeyRenewLockFilter Concurrency.lock operationId)
    [setLockMutation Concurrency.lock operationId now] []

/-- Every lock call is one atomic request. -/
def exec (operationId : ℕ) : LockCall → Bool × Table
  | .lockRoot r => lockRoot lockExpiry now t r operationId
  | .lockRootIndefinitely r => lockRootIndefinitely now t r operationId
  | .unlockRoot r => unlockRoot lockExpiry now t r operationId
  | .unlockIndefinitelyLockedRoot r => unlockIndefinitelyLockedRoot t r operationId
  | .renewLock r => renewLock now t r operationId
  | .lockByRowKey k => lockByRowKey lockExpiry now t k operationId
  | .lockByRowKeyWithIndefinite k => lockByRowKeyWithIndefinite lockExpiry now t k operationId
  | .lockByRowKeyIndefinitely k => lockByRowKeyIndefinitely now t k operationId
  | .unlockByRowKey k => unlockByRowKey lockExpiry now t k operationId
  | .unlockIndefinitelyLockedByRowKey k => unlockIndefinitelyLockedByRowKey t k operationId
  | .renewLockByRowKey k => renewLockByRowKey now t k operationId

end Client

abbrev lockGrants (r : Row) : Set (Grant Bytes ℤ) := r.grants Concurrency.lock.toColumn

abbrev indefiniteGrants (r : Row) : Set (Grant Bytes ℤ) :=
  r.grants Concurrency.indefiniteLock.toColumn

def grantOf (operationId : ℕ) (now : ℤ) : Grant Bytes ℤ :=
  ⟨uint64String operationId,getValidTimestamp now⟩

theorem matches_column_iff {r : Row} {col : Column} :
    Matches (exactColumnFilter col) r.cells ↔ (r.grants col).Nonempty := by
  rw [matches_exactColumnFilter]
  constructor
  · rintro ⟨x,hx,hcol⟩
    exact ⟨_,x,hx,hcol,rfl⟩
  · rintro ⟨g,x,hx,hcol,rfl⟩
    exact ⟨x,hx,hcol⟩

theorem matches_getRowKeyLockFilter {r : Row} {col : Column} {lockExpiry now : ℤ} :
    Matches (getRowKeyLockFilter col lockExpiry now) r.cells ↔
      ∃ g ∈ r.grants col, Live (timeCutoff now lockExpiry) g := by
  simp only [matches_iff,getRowKeyLockFilter,apply_chain,mem_apply_exactColumnFilter,mem_apply_since]
  constructor
  · rintro ⟨x,⟨hx,ht⟩,hcol⟩
    exact ⟨_,⟨x,hx,hcol,rfl⟩,ht⟩
  · rintro ⟨g,⟨x,hx,hcol,rfl⟩,ht⟩
    exact ⟨x,⟨hx,ht⟩,hcol⟩

theorem matches_getRowKeyRenewLockFilter {r : Row} {a : Attribute ℕ} {op : ℕ} :
    Matches (getRowKeyRenewLockFilter a op) r.cells ↔
      ∃ g ∈ r.grants a.toColumn, g.owner = a.serialize op := by
  simp only [matches_iff,getRowKeyRenewLockFilter,apply_chain,mem_apply_exactColumnFilter,
    mem_apply_exactValueFilter]
  constructor
  · rintro ⟨x,⟨hx,hcol⟩,hv⟩
    exact ⟨_,⟨x,hx,hcol,rfl⟩,hv⟩
  · rintro ⟨g,⟨x,hx,hcol,rfl⟩,hv⟩
    exact ⟨x,⟨hx,hcol⟩,hv⟩

theorem matches_getUnlockRootFilter {r : Row} {a : Attribute ℕ} {lockExpiry now : ℤ} {op : ℕ} :
    Matches (getUnlockRootFilter a lockExpiry op now) r.cells ↔
      ∃ g ∈ r.grants a.toColumn, g.owner = a.serialize op ∧ Live (timeCutoff now lockExpiry) g := by
  simp only [matches_iff,getUnlockRootFilter,apply_chain,mem_apply_exactColumnFilter,
    mem_apply_exactValueFilter,mem_apply_since]
  constructor
  · rintro ⟨x,⟨⟨hx,ht⟩,hcol⟩,hv⟩
    exact ⟨_,⟨x,hx,hcol,rfl⟩,hv,ht⟩
  · rintro ⟨g,⟨x,hx,hcol,rfl⟩,hv,ht⟩
    exact ⟨x,⟨⟨hx,ht⟩,hcol⟩,hv⟩

theorem matches_getRowKeyLockFilterWithIndefinite {r : Row} {lockExpiry now : ℤ} :
    Matches (getRowKeyLockFilterWithIndefinite Concurrency.lock.toColumn lockExpiry
        Concurrency.indefiniteLock.toColumn now) r.cells ↔
      (indefiniteGrants r).Nonempty ∨ ∃ g ∈ lockGrants r, Live (timeCutoff now lockExpiry) g := by
  simp only [getRowKeyLockFilterWithIndefinite,matches_union,matches_column_iff,
    matches_getRowKeyLockFilter]

/-- A root is refused when it is locked either way, or superseded. -/
theorem matches_getRootLockFilter {r : Row} {lockExpiry now : ℤ} :
    Matches (getRootLockFilter Concurrency.lock.toColumn lockExpiry
        Concurrency.indefiniteLock.toColumn now) r.cells ↔
      ((indefiniteGrants r).Nonempty ∨ ∃ g ∈ lockGrants r, Live (timeCutoff now lockExpiry) g) ∨
        (r.grants Hierarchy.newParent).Nonempty := by
  simp only [getRootLockFilter,matches_conditional_passAll,matches_union,matches_column_iff,
    matches_getRowKeyLockFilter]

theorem matches_getIndefiniteRootLockFilter {r : Row} :
    Matches (getIndefiniteRootLockFilter Concurrency.indefiniteLock.toColumn) r.cells ↔
      (indefiniteGrants r).Nonempty ∨ (r.grants Hierarchy.newParent).Nonempty := by
  simp only [getIndefiniteRootLockFilter,matches_conditional_passAll,matches_column_iff]

/-- The inverted renewal goes through on an own version without a successor, or on an empty row. -/
theorem matches_getRenewLockFilter {r : Row} {op : ℕ} :
    Matches (getRenewLockFilter Concurrency.lock op) r.cells ↔
      (∃ g ∈ lockGrants r, g.owner = uint64String op) ∧ (r.grants Hierarchy.newParent).Nonempty ∨
        (¬ ∃ g ∈ lockGrants r, g.owner = uint64String op) ∧ ∃ x, x ∈ r.cells := by
  simp only [getRenewLockFilter,matches_conditional,matches_passAll,matches_column_iff,
    matches_getRowKeyRenewLockFilter]
  rfl

theorem matches_getIndefiniteUnlockRootFilter {r : Row} {a : Attribute ℕ} {op : ℕ} :
    Matches (getIndefiniteUnlockRootFilter a op) r.cells ↔
      ∃ g ∈ r.grants a.toColumn, g.owner = a.serialize op :=
  matches_getRowKeyRenewLockFilter

section Requests

variable {t : Table} {k : Bytes} {f : RowFilter} {P : Prop}

theorem acquireWith_cases (h : Matches f (t k).cells ↔ P) (m : Mutation) :
    acquireWith t k f m = (false,t) ∧ P ∨
      acquireWith t k f m = (true,Function.update t k ((t k).mutate m)) ∧ ¬ P := by
  by_cases hm : Matches f (t k).cells
  · exact Or.inl ⟨by simp [acquireWith,checkAndMutateRow_eq,hm],h.mp hm⟩
  · exact Or.inr ⟨by simp [acquireWith,checkAndMutateRow_eq,hm],fun hp => hm (h.mpr hp)⟩

theorem checkAndMutateRow_cases (h : Matches f (t k).cells ↔ P) (m : Mutation) :
    checkAndMutateRow t k f [m] [] = (false,t) ∧ ¬ P ∨
      checkAndMutateRow t k f [m] [] = (true,Function.update t k ((t k).mutate m)) ∧ P := by
  by_cases hm : Matches f (t k).cells
  · exact Or.inr ⟨by simp [checkAndMutateRow_eq,hm],h.mp hm⟩
  · exact Or.inl ⟨by simp [checkAndMutateRow_eq,hm],fun hp => hm (h.mpr hp)⟩

end Requests

namespace Row

def lockCells (r : Row) : List Cell :=
  r.cells.filter fun x => x.column = Concurrency.lock.toColumn

theorem mem_lockCells {r : Row} {x : Cell} :
    x ∈ r.lockCells ↔ x ∈ r.cells ∧ x.column = Concurrency.lock.toColumn := by
  simp [lockCells]

theorem lockGrant_of_mem {r : Row} {x : Cell} (hx : x ∈ r.lockCells) :
    (⟨x.value,x.timestampMicros⟩ : Grant Bytes ℤ) ∈ lockGrants r := by
  obtain ⟨hx,hcol⟩ := mem_lockCells.mp hx
  exact ⟨x,hx,hcol,rfl⟩

theorem exists_newest {r : Row} (h : r.lockCells ≠ []) :
    ∃ n ∈ r.lockCells, ∀ x ∈ r.lockCells, x.timestampMicros ≤ n.timestampMicros := by
  obtain ⟨n,hn,hmax⟩ := r.lockCells.toFinset.exists_max_image (fun x => x.timestampMicros)
    (by simpa [Finset.Nonempty,List.eq_nil_iff_forall_not_mem] using h)
  simp only [List.mem_toFinset] at hn hmax
  exact ⟨n,hn,hmax⟩

end Row

/-- The newest lock version of the row is the operation's own or expired. -/
def Uncontested (lockExpiry now : ℤ) (op : ℕ) (r : Row) : Prop :=
  ∃ n ∈ r.lockCells, (∀ x ∈ r.lockCells, x.timestampMicros ≤ n.timestampMicros) ∧
    (n.value = uint64String op ∨ n.timestampMicros < timeCutoff now lockExpiry)

instance (lockExpiry now : ℤ) (op : ℕ) (r : Row) : Decidable (Uncontested lockExpiry now op r) :=
  inferInstanceAs (Decidable (∃ n ∈ _, _))

/-- When the live versions have one owner, nobody else has one on an uncontested row. -/
theorem Uncontested.unopposed {lockExpiry now : ℤ} {op : ℕ} {r : Row}
    (h : Uncontested lockExpiry now op r)
    (hex : Exclusive (timeCutoff now lockExpiry) (lockGrants r)) :
    Unopposed (timeCutoff now lockExpiry) (uint64String op) (lockGrants r) := by
  obtain ⟨n,hn,hnew,hv⟩ := h
  have hnewest : Newest (lockGrants r) ⟨n.value,n.timestampMicros⟩ := by
    refine ⟨Row.lockGrant_of_mem hn,?_⟩
    rintro g ⟨x,hx,hcol,rfl⟩
    exact hnew x (Row.mem_lockCells.mpr ⟨hx,hcol⟩)
  exact hex.unopposed_of_newest hnewest (hv.imp_right fun hlt => not_le.mpr hlt)

/-- No other operation has a live lock version on the row. -/
def Fenced (lockExpiry now : ℤ) (op : ℕ) (r : Row) : Prop :=
  ∀ x ∈ r.lockCells, x.value ≠ uint64String op → x.timestampMicros < timeCutoff now lockExpiry

instance (lockExpiry now : ℤ) (op : ℕ) (r : Row) : Decidable (Fenced lockExpiry now op r) :=
  inferInstanceAs (Decidable (∀ x ∈ _, _))

theorem fenced_of_unopposed {lockExpiry now : ℤ} {op : ℕ} {r : Row}
    (h : Unopposed (timeCutoff now lockExpiry) (uint64String op) (lockGrants r)) :
    Fenced lockExpiry now op r := by
  intro x hx hne
  by_contra hlt
  exact hne (h _ (Row.lockGrant_of_mem hx) (not_lt.mp hlt))

section Outcomes

variable (lockExpiry now : ℤ) (t : Table) (op : ℕ) {c : LockCall}

/-- A temporal acquire succeeds only on a row without a live lock version, and a guarded one only
without an indefinite one; otherwise it changes nothing. -/
theorem exec_acquire (h : c.role = .acquire) :
    exec lockExpiry now t op c = (false,t) ∨
    exec lockExpiry now t op c =
        (true,Function.update t c.rowKey ((t c.rowKey).setCell (lockCell Concurrency.lock op now))) ∧
      (∀ g ∈ lockGrants (t c.rowKey), ¬ Live (timeCutoff now lockExpiry) g) ∧
      (c.guarded → indefiniteGrants (t c.rowKey) = ∅) := by
  cases c with
  | lockRoot r =>
    rcases acquireWith_cases (t := t) (k := serializeUint64 r false false) matches_getRootLockFilter
      (setLockMutation Concurrency.lock op now) with ⟨he,-⟩ | ⟨he,hp⟩
    · exact Or.inl he
    · push Not at hp
      exact Or.inr ⟨he,hp.1.2,fun _ => hp.1.1⟩
  | lockByRowKey k =>
    rcases acquireWith_cases (t := t) (k := k) matches_getRowKeyLockFilter
      (setLockMutation Concurrency.lock op now) with ⟨he,-⟩ | ⟨he,hp⟩
    · exact Or.inl he
    · push Not at hp
      exact Or.inr ⟨he,hp,fun hg => absurd hg (by simp [LockCall.guarded])⟩
  | lockByRowKeyWithIndefinite k =>
    rcases acquireWith_cases (t := t) (k := k) matches_getRowKeyLockFilterWithIndefinite
      (setLockMutation Concurrency.lock op now) with ⟨he,-⟩ | ⟨he,hp⟩
    · exact Or.inl he
    · push Not at hp
      exact Or.inr ⟨he,hp.2,fun _ => hp.1⟩
  | _ => cases h

theorem exec_acquireIndefinite (h : c.role = .acquireIndefinite) :
    exec lockExpiry now t op c = (false,t) ∨
    exec lockExpiry now t op c =
        (true,Function.update t c.rowKey
          ((t c.rowKey).setCell (lockCell Concurrency.indefiniteLock op now))) ∧
      indefiniteGrants (t c.rowKey) = ∅ := by
  cases c with
  | lockRootIndefinitely r =>
    rcases acquireWith_cases (t := t) (k := serializeUint64 r false false)
      matches_getIndefiniteRootLockFilter (setLockMutation Concurrency.indefiniteLock op now) with
      ⟨he,-⟩ | ⟨he,hp⟩
    · exact Or.inl he
    · push Not at hp
      exact Or.inr ⟨he,hp.1⟩
  | lockByRowKeyIndefinitely k =>
    rcases acquireWith_cases (t := t) (k := k) matches_column_iff
      (setLockMutation Concurrency.indefiniteLock op now) with ⟨he,-⟩ | ⟨he,hp⟩
    · exact Or.inl he
    · exact Or.inr ⟨he,Set.not_nonempty_iff_eq_empty.mp hp⟩
  | _ => cases h

/-- A renewal succeeds on any own version, however old, and a root renewal also on an empty row. -/
theorem exec_renew (h : c.role = .renew) :
    exec lockExpiry now t op c = (false,t) ∨
    exec lockExpiry now t op c =
        (true,Function.update t c.rowKey ((t c.rowKey).setCell (lockCell Concurrency.lock op now))) ∧
      ((∃ g ∈ lockGrants (t c.rowKey), g.owner = uint64String op) ∨ (t c.rowKey).cells = []) := by
  cases c with
  | renewLock r =>
    rcases acquireWith_cases (t := t) (k := serializeUint64 r false false)
      matches_getRenewLockFilter (setLockMutation Concurrency.lock op now) with ⟨he,-⟩ | ⟨he,hp⟩
    · exact Or.inl he
    · refine Or.inr ⟨he,?_⟩
      by_cases hown : ∃ g ∈ lockGrants (t (serializeUint64 r false false)),
          g.owner = uint64String op
      · exact Or.inl hown
      · exact Or.inr (List.eq_nil_iff_forall_not_mem.mpr fun x hx => hp (Or.inr ⟨hown,x,hx⟩))
  | renewLockByRowKey k =>
    rcases checkAndMutateRow_cases (t := t) (k := k) matches_getRowKeyRenewLockFilter
      (setLockMutation Concurrency.lock op now) with ⟨he,-⟩ | ⟨he,hp⟩
    · exact Or.inl he
    · exact Or.inr ⟨he,Or.inl hp⟩
  | _ => cases h

/-- A release deletes the column exactly when one of its versions is the caller's and live. -/
theorem exec_release (h : c.role = .release) :
    exec lockExpiry now t op c = (false,t) ∧
      (¬ ∃ g ∈ lockGrants (t c.rowKey), g.owner = uint64String op ∧
        Live (timeCutoff now lockExpiry) g) ∨
    exec lockExpiry now t op c =
        (true,Function.update t c.rowKey ((t c.rowKey).deleteColumn Concurrency.lock.toColumn)) ∧
      ∃ g ∈ lockGrants (t c.rowKey), g.owner = uint64String op ∧
        Live (timeCutoff now lockExpiry) g := by
  cases c with
  | unlockRoot r =>
    exact checkAndMutateRow_cases (t := t) matches_getUnlockRootFilter
      (deleteLockMutation Concurrency.lock)
  | unlockByRowKey k =>
    exact checkAndMutateRow_cases (t := t) matches_getUnlockRootFilter
      (deleteLockMutation Concurrency.lock)
  | _ => cases h

theorem exec_releaseIndefinite (h : c.role = .releaseIndefinite) :
    exec lockExpiry now t op c = (false,t) ∧
      (¬ ∃ g ∈ indefiniteGrants (t c.rowKey), g.owner = uint64String op) ∨
    exec lockExpiry now t op c =
        (true,Function.update t c.rowKey
          ((t c.rowKey).deleteColumn Concurrency.indefiniteLock.toColumn)) ∧
      ∃ g ∈ indefiniteGrants (t c.rowKey), g.owner = uint64String op := by
  cases c with
  | unlockIndefinitelyLockedRoot r =>
    exact checkAndMutateRow_cases (t := t) matches_getIndefiniteUnlockRootFilter
      (deleteLockMutation Concurrency.indefiniteLock)
  | unlockIndefinitelyLockedByRowKey k =>
    exact checkAndMutateRow_cases (t := t) matches_getIndefiniteUnlockRootFilter
      (deleteLockMutation Concurrency.indefiniteLock)
  | _ => cases h

end Outcomes

end BigTable
end KvdbClient
