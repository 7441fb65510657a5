import KvdbClient.Attributes

/-! The lock interface of `SimpleClient`, shared by the backends: `base.py`. -/
namespace KvdbClient

inductive LockCall
  | lockRoot (rootId : ℕ)
  | lockRootIndefinitely (rootId : ℕ)
  | unlockRoot (rootId : ℕ)
  | unlockIndefinitelyLockedRoot (rootId : ℕ)
  | renewLock (rootId : ℕ)
  | lockByRowKey (rowKey : Bytes)
  | lockByRowKeyWithIndefinite (rowKey : Bytes)
  | lockByRowKeyIndefinitely (rowKey : Bytes)
  | unlockByRowKey (rowKey : Bytes)
  | unlockIndefinitelyLockedByRowKey (rowKey : Bytes)
  | renewLockByRowKey (rowKey : Bytes)
  deriving DecidableEq

/-- What a call is meant to do to the lock columns of its row. -/
inductive Role
  | acquire | acquireIndefinite | renew | release | releaseIndefinite
  deriving DecidableEq

namespace LockCall

/-- Root operations address the row of the serialized root id. -/
def rowKey : LockCall → Bytes
  | lockRoot r | lockRootIndefinitely r | unlockRoot r | unlockIndefinitelyLockedRoot r
  | renewLock r => serializeUint64 r false false
  | lockByRowKey k | lockByRowKeyWithIndefinite k | lockByRowKeyIndefinitely k
  | unlockByRowKey k | unlockIndefinitelyLockedByRowKey k | renewLockByRowKey k => k

def role : LockCall → Role
  | lockRoot _ | lockByRowKey _ | lockByRowKeyWithIndefinite _ => .acquire
  | lockRootIndefinitely _ | lockByRowKeyIndefinitely _ => .acquireIndefinite
  | renewLock _ | renewLockByRowKey _ => .renew
  | unlockRoot _ | unlockByRowKey _ => .release
  | unlockIndefinitelyLockedRoot _ | unlockIndefinitelyLockedByRowKey _ => .releaseIndefinite

/-- The temporal acquires that also refuse when an indefinite lock cell exists. -/
def guarded : LockCall → Bool
  | lockRoot _ | lockByRowKeyWithIndefinite _ => true
  | _ => false

theorem role_of_guarded {c : LockCall} (h : c.guarded = true) : c.role = .acquire := by
  cases c <;> first | rfl | cases h

def temporalByRowKey : LockCall → Bool
  | lockByRowKey _ | lockByRowKeyWithIndefinite _ | unlockByRowKey _ | renewLockByRowKey _ => true
  | _ => false

def temporalOnRoot : LockCall → Bool
  | lockRoot _ | unlockRoot _ | renewLock _ => true
  | _ => false

end LockCall

/-- A request raises not at all, before it takes effect, or after. -/
inductive Fault
  | none | before | after
  deriving DecidableEq

/-- Who makes a call: an operation, on a row, from one of its threads. -/
structure Caller where
  operationId : ℕ
  rowKey : Bytes
  thread : ℕ
  deriving DecidableEq

def sampleKey : Bytes := [107]

def caller (op : ℕ) : Caller := ⟨op,sampleKey,0⟩

/-- What is observed of lock calls: a call starts, a matching release takes effect on a lock
column, a call returns. -/
inductive LockEvent
  | call (i : Caller) (c : LockCall)
  | released (i : Caller) (column : Column)
  | ret (i : Caller) (c : LockCall) (result : Bool)
  deriving DecidableEq

def Role.released : Role → Option Column
  | .release => some Concurrency.lock.toColumn
  | .releaseIndefinite => some Concurrency.indefiniteLock.toColumn
  | _ => none

/-- Write one entry of a table kept for each operation and row. -/
def setEntry {α : Type} (h : ℕ → Bytes → α) (op : ℕ) (k : Bytes) (v : α) : ℕ → Bytes → α :=
  fun o r => if o = op ∧ r = k then v else h o r

@[simp] theorem setEntry_self {α : Type} (h : ℕ → Bytes → α) (op : ℕ) (k : Bytes) (v : α) :
    setEntry h op k v op k = v := by
  simp [setEntry]

@[simp] theorem setEntry_eq_self {α : Type} (h : ℕ → Bytes → α) (op : ℕ) (k : Bytes) :
    setEntry h op k (h op k) = h := by
  funext o r
  by_cases hor : o = op ∧ r = k
  · obtain ⟨rfl,rfl⟩ := hor
    exact setEntry_self ..
  · simp [setEntry,hor]

theorem setEntry_of_ne {α : Type} {h : ℕ → Bytes → α} {op o : ℕ} {k r : Bytes} {v : α}
    (hne : ¬ (o = op ∧ r = k)) : setEntry h op k v o r = h o r := by
  simp [setEntry,hne]

end KvdbClient
