import KvdbClient.HBaseServer
import KvdbClient.LockCalls
import KvdbClient.Timestamps
import KvdbClient.Transition

/-! The lock operations of the HBase client as sequences of single requests:
`hbase/client.py`. Requests of different calls interleave freely, and the clock may move between
a request, its execution and the client's next step. -/
namespace KvdbClient
namespace HBase

open Lease Transition

/-- The request a call is waiting for. `acquirePut`, `acquireRead` and `acquireDelete` belong to
`_acquire_lock_cell`, `readIndefinite` and `rollbackDelete` to the guard after it; the numbers are
put timestamps. -/
inductive Stage
  | acquirePut (ts : ℤ)
  | acquireRead
  | acquireDelete
  | readIndefinite (ts : ℤ)
  | rollbackDelete
  | putIndefinite (ts : ℤ)
  | release (column : Column)
  | renew
  deriving DecidableEq

def Stage.request (rowKey : Bytes) (operationId : ℕ) : Stage → Request
  | .acquirePut ts => .checkAndPut rowKey Concurrency.lock.toColumn none Concurrency.lock.toColumn
      (uint64String operationId) (some ts)
  | .acquireRead => .readByteRow rowKey Concurrency.lock.toColumn
  | .acquireDelete | .rollbackDelete => .deleteCell rowKey Concurrency.lock.toColumn
  | .readIndefinite _ => .readByteRow rowKey Concurrency.indefiniteLock.toColumn
  | .putIndefinite ts => .checkAndPut rowKey Concurrency.indefiniteLock.toColumn none
      Concurrency.indefiniteLock.toColumn (uint64String operationId) (some ts)
  | .release column => .checkAndDelete rowKey column (uint64String operationId)
  | .renew => .checkAndPut rowKey Concurrency.lock.toColumn (some (uint64String operationId))
      Concurrency.lock.toColumn (uint64String operationId) none

/-- A client goes on with another request or returns. -/
inductive Next
  | send (st : Stage)
  | ret (result : Bool)
  deriving DecidableEq

def putTimestamp (now : ℤ) : ℤ := datetimeToHbaseTs (getValidTimestamp now)

/-- `_acquire_lock_cell` starts, and restarts, with a put. -/
def acquireLockCell (now : ℤ) : Stage := .acquirePut (putTimestamp now)

def firstRequest (now : ℤ) : LockCall → Stage
  | .lockRoot _ | .lockByRowKey _ | .lockByRowKeyWithIndefinite _ => acquireLockCell now
  | .lockRootIndefinitely _ | .lockByRowKeyIndefinitely _ => .putIndefinite (putTimestamp now)
  | .unlockRoot _ | .unlockByRowKey _ => .release Concurrency.lock.toColumn
  | .unlockIndefinitelyLockedRoot _ | .unlockIndefinitelyLockedByRowKey _ =>
    .release Concurrency.indefiniteLock.toColumn
  | .renewLock _ | .renewLockByRowKey _ => .renew

/-- `lock_root` and `lock_by_row_key_with_indefinite` look at the indefinite column after they
have acquired the lock cell. -/
def acquired (c : LockCall) (ts : ℤ) : Next :=
  if c.guarded then .send (.readIndefinite ts) else .ret true

def next (lockExpiry now : ℤ) (c : LockCall) (r : Response) : Stage → Next
  | .acquirePut ts => if r.success then acquired c ts else .send .acquireRead
  | .acquireRead =>
    match r.cells with
    | [] => .ret false
    | v :: _ => if now - hbaseTsToDatetime v.ts > lockExpiry then .send .acquireDelete else .ret false
  | .acquireDelete => .send (acquireLockCell now)
  | .readIndefinite _ => if r.cells.isEmpty then .ret true else .send .rollbackDelete
  | .rollbackDelete => .ret false
  | .putIndefinite _ | .release _ | .renew => .ret r.success

/-- A call waits for the server, or has a response it did not look at yet. -/
inductive Pc
  | idle
  | waiting (c : LockCall) (st : Stage)
  | answered (c : LockCall) (st : Stage) (r : Response)
  deriving DecidableEq

/-- `hold` is the timestamp of the last successful put of an operation that holds the row: since
its acquire returned `True`, until it releases the row. -/
structure State where
  now : ℤ
  table : Table
  pc : Caller → Pc
  hold : ℕ → Bytes → Option ℤ

inductive Action
  | tick (elapsed : ℕ)
  | start (i : Caller) (c : LockCall)
  | serve (i : Caller)
  | resume (i : Caller)

/-- A served renewal refreshes the hold, a served release ends it. -/
def holdServed (now : ℤ) (st : Stage) (success : Bool) (hold : Option ℤ) : Option ℤ :=
  match st, success with
  | .renew, true => some (nowMs now)
  | .release col, true => if col = Concurrency.lock.toColumn then none else hold
  | _, _ => hold

/-- A call that returns `True` after its put holds the row since that put. -/
def holdReturned (st : Stage) (result : Bool) (hold : Option ℤ) : Option ℤ :=
  match st, result with
  | .acquirePut ts, true | .readIndefinite ts, true => some ts
  | _, _ => hold

def servedEvents (i : Caller) : Stage → Bool → List LockEvent
  | .release col, true => [.released i col]
  | _, _ => []

def State.setPc (s : State) (i : Caller) (p : Pc) : State :=
  { s with pc := Function.update s.pc i p }

def State.setHold (s : State) (i : Caller) (h : Option ℤ → Option ℤ) : State :=
  { s with hold := setEntry s.hold i.operationId i.rowKey (h (s.hold i.operationId i.rowKey)) }

def serveCall (s : State) (i : Caller) (c : LockCall) (st : Stage) : List LockEvent × State :=
  let r := serve s.now s.table (st.request i.rowKey i.operationId)
  (servedEvents i st r.1.success,
    ({ s with table := r.2 }.setHold i (holdServed s.now st r.1.success)).setPc i
      (.answered c st r.1))

def resumeCall (lockExpiry : ℤ) (s : State) (i : Caller) (c : LockCall) (st : Stage)
    (r : Response) : List LockEvent × State :=
  match next lockExpiry s.now c r st with
  | .send st' => ([],s.setPc i (.waiting c st'))
  | .ret b => ([.ret i c b],(s.setHold i (holdReturned st b)).setPc i .idle)

def step (lockExpiry : ℤ) (s : State) : Action → Option (List LockEvent × State)
  | .tick d => some ([],{ s with now := s.now + d })
  | .start i c =>
    if s.pc i = .idle ∧ c.rowKey = i.rowKey then
      some ([.call i c],s.setPc i (.waiting c (firstRequest s.now c)))
    else none
  | .serve i =>
    match s.pc i with
    | .waiting c st => some (serveCall s i c st)
    | _ => none
  | .resume i =>
    match s.pc i with
    | .answered c st r => some (resumeCall lockExpiry s i c st r)
    | _ => none

/-- Runs start with empty lock columns and no call going on. -/
def machine (lockExpiry : ℤ) : Machine State Action LockEvent where
  init s := (∀ k, (s.table k Concurrency.lock.toColumn).list = [] ∧
      (s.table k Concurrency.indefiniteLock.toColumn).list = []) ∧
    (∀ i, s.pc i = .idle) ∧ ∀ op k, s.hold op k = none
  step := step lockExpiry

/-- An operation makes its calls on a row one after the other. -/
def sequential (_ : State) : Action → Prop
  | .start i _ => i.thread = 0
  | _ => True

def start : State := ⟨0,fun _ _ => .empty,fun _ => .idle,fun _ _ => none⟩

theorem start_init (lockExpiry : ℤ) : (machine lockExpiry).init start :=
  ⟨fun _ => ⟨rfl,rfl⟩,fun _ => rfl,fun _ _ => rfl⟩

end HBase
end KvdbClient
