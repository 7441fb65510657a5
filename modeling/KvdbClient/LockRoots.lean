import KvdbClient.BigTableLocks
import KvdbClient.Transition

/-! Locking the roots of an operation together: `lock_roots` and `lock_roots_indefinitely` in
`base.py`, over the BigTable client. The requests of one phase run on a thread pool and are
executed in any order, among those of other calls. -/
namespace KvdbClient
namespace BigTable
namespace LockRoots

open Lease Transition

inductive LockKind
  | temporal | indefinite
  deriving DecidableEq

def LockKind.lock : LockKind → ℕ → LockCall
  | .temporal => .lockRoot
  | .indefinite => .lockRootIndefinitely

def LockKind.unlock : LockKind → ℕ → LockCall
  | .temporal => .unlockRoot
  | .indefinite => .unlockIndefinitelyLockedRoot

def rootKey (rootId : ℕ) : Bytes := serializeUint64 rootId false false

def npUnique (l : List ℕ) : List ℕ := l.dedup.insertionSort (· ≤ ·)

theorem npUnique_sorted (l : List ℕ) : (npUnique l).Pairwise (· < ·) := by
  have hle : (npUnique l).Pairwise (· ≤ ·) := List.pairwise_insertionSort _ _
  have hne : (npUnique l).Pairwise (· ≠ ·) :=
    (List.perm_insertionSort _ _).nodup_iff.mpr (List.nodup_dedup l)
  exact hle.imp₂ (fun _ _ h hn => lt_of_le_of_ne h hn) hne

/-- Each root is replaced by its future roots, or kept when it has none. A root without an entry
raises. -/
def resolve (futureRootIds : ℕ → Option (List ℕ)) : List ℕ → Option (List ℕ)
  | [] => some []
  | r :: rs =>
    (futureRootIds r).bind fun future =>
      (resolve futureRootIds rs).map fun rest => (if future.isEmpty then [r] else future) ++ rest

/-- The roots of one try, given those of the try before. -/
def nextRoots (futureRootIds : ℕ → Option (List ℕ)) (rootIds : List ℕ) : Option (List ℕ) :=
  (resolve futureRootIds rootIds).map npUnique

def rootsOfTry (futureRootIds : ℕ → Option (List ℕ)) (rootIds : List ℕ) : ℕ → Option (List ℕ)
  | 0 => some rootIds
  | n+1 => (rootsOfTry futureRootIds rootIds n).bind (nextRoots futureRootIds)

inductive Phase
  | locking | unlocking
  | returned (allLocked : Bool)
  | raised
  | releasing
  deriving DecidableEq

/-- `pending` are the roots whose request of this phase was not executed yet, `results` the answers
to the lock requests of this try as they came in. -/
structure Call where
  kind : LockKind
  requested : List ℕ
  futureRootIds : ℕ → Option (List ℕ)
  maxTries : ℕ
  rootIds : List ℕ
  tries : ℕ
  pending : List ℕ
  results : List (ℕ × Bool)
  phase : Phase

def beginTry (x : Call) : Call :=
  match nextRoots x.futureRootIds x.rootIds with
  | none => { x with phase := .raised }
  | some roots =>
    { x with rootIds := roots, tries := x.tries + 1, pending := roots, results := [], phase := .locking }

def lockRoots (rootIds : List ℕ) (futureRootIds : ℕ → Option (List ℕ)) (maxTries : ℕ) : Call :=
  let x : Call := ⟨.temporal,rootIds,futureRootIds,maxTries,rootIds,0,[],[],.returned false⟩
  if 0 < maxTries then beginTry x else x

def lockRootsIndefinitely (rootIds : List ℕ) (futureRootIds : ℕ → Option (List ℕ)) : Call :=
  beginTry ⟨.indefinite,rootIds,futureRootIds,1,rootIds,0,[],[],.returned false⟩

/-- What `lock_roots_indefinitely` returns besides. -/
def Call.failedToLock (x : Call) : List ℕ := (x.results.filter fun p => !p.2).map (·.1)

structure State where
  now : ℤ
  table : Table
  calls : ℕ → Option Call

inductive Action
  | tick (elapsed : ℕ)
  | lockRoots (op : ℕ) (rootIds : List ℕ) (futureRootIds : ℕ → Option (List ℕ)) (maxTries : ℕ)
  | lockRootsIndefinitely (op : ℕ) (rootIds : List ℕ) (futureRootIds : ℕ → Option (List ℕ))
  | lock (op n : ℕ) (fault : Fault)
  | judge (op : ℕ)
  | unlock (op n : ℕ)
  | retry (op : ℕ)
  | release (op n : ℕ)

def Action.operation : Action → Option ℕ
  | .tick _ => none
  | .lockRoots op .. | .lockRootsIndefinitely op .. | .lock op .. | .judge op | .unlock op _
  | .retry op | .release op _ => some op

def State.set (s : State) (op : ℕ) (x : Call) : State :=
  { s with calls := Function.update s.calls op (some x) }

/-- A lock request, which may raise: what its future holds, and the table after it. -/
def lockRequest (lockExpiry : ℤ) (s : State) (op : ℕ) (kind : LockKind) (rootId : ℕ) (fault : Fault) :
    Bool × Table :=
  let r := exec lockExpiry s.now s.table op (kind.lock rootId)
  match fault with
  | .none => r
  | .before => (false,s.table)
  | .after => (false,r.2)

def lock (lockExpiry : ℤ) (s : State) (op : ℕ) (x : Call) (n rootId : ℕ) (fault : Fault) : State :=
  let r := lockRequest lockExpiry s op x.kind rootId fault
  { s with table := r.2 }.set op
    { x with pending := x.pending.eraseIdx n, results := x.results ++ [(rootId,r.1)] }

def judge (x : Call) : Call :=
  if x.results.all (·.2) then { x with phase := .returned true }
  else { x with phase := .unlocking, pending := x.rootIds }

def unlock (lockExpiry : ℤ) (s : State) (op : ℕ) (x : Call) (n rootId : ℕ) : State :=
  { s with table := (exec lockExpiry s.now s.table op (x.kind.unlock rootId)).2 }.set op
    { x with pending := x.pending.eraseIdx n }

def retry (x : Call) : Call :=
  if x.tries < x.maxTries then beginTry x else { x with phase := .returned false }

@[simp] theorem kind_judge (x : Call) : (judge x).kind = x.kind := by
  rw [judge]
  split <;> rfl

@[simp] theorem kind_retry (x : Call) : (retry x).kind = x.kind := by
  rw [retry,beginTry]
  split <;> (try split) <;> rfl

/-- The caller of a call that returned `True` unlocks one of its roots. -/
def release (lockExpiry : ℤ) (s : State) (op : ℕ) (x : Call) (rootId : ℕ) : State :=
  { s with table := (exec lockExpiry s.now s.table op (x.kind.unlock rootId)).2 }.set op
    { x with phase := .releasing }

/-- Operations have pairwise distinct ids: each makes one call. -/
def step (lockExpiry : ℤ) (callers : ℕ → Bool) (s : State) : Action → Option (List Unit × State)
  | .tick d => some ([],{ s with now := s.now + d })
  | .lockRoots op rootIds future maxTries =>
    if callers op ∧ (s.calls op).isNone then
      some ([],s.set op (LockRoots.lockRoots rootIds future maxTries))
    else none
  | .lockRootsIndefinitely op rootIds future =>
    if callers op ∧ (s.calls op).isNone then
      some ([],s.set op (LockRoots.lockRootsIndefinitely rootIds future))
    else none
  | .lock op n fault => (s.calls op).bind fun x =>
    if x.phase = .locking then
      x.pending[n]?.map fun root => ([],LockRoots.lock lockExpiry s op x n root fault)
    else none
  | .judge op => (s.calls op).bind fun x =>
    if x.phase = .locking ∧ x.pending = [] then some ([],s.set op (LockRoots.judge x)) else none
  | .unlock op n => (s.calls op).bind fun x =>
    if x.phase = .unlocking then
      x.pending[n]?.map fun root => ([],LockRoots.unlock lockExpiry s op x n root)
    else none
  | .retry op => (s.calls op).bind fun x =>
    if x.phase = .unlocking ∧ x.pending = [] then some ([],s.set op (LockRoots.retry x)) else none
  | .release op n => (s.calls op).bind fun x =>
    if x.phase = .returned true ∨ x.phase = .releasing then
      x.rootIds[n]?.map fun root => ([],LockRoots.release lockExpiry s op x root)
    else none

/-- The operation's lock of a kind on a row. -/
def Locked (lockExpiry now : ℤ) (t : Table) (kind : LockKind) (op : ℕ) (k : Bytes) : Prop :=
  match kind with
  | .temporal => ∃ g ∈ lockGrants (t k), g.owner = uint64String op ∧
      Live (timeCutoff now lockExpiry) g
  | .indefinite => ∃ g ∈ indefiniteGrants (t k), g.owner = uint64String op

def State.Locked (lockExpiry : ℤ) (s : State) : LockKind → ℕ → Bytes → Prop :=
  LockRoots.Locked lockExpiry s.now s.table

/-- Every row has at most one operation with a live lock of each kind. -/
structure Exclusion (lockExpiry now : ℤ) (t : Table) : Prop where
  temporal : ∀ k, Exclusive (timeCutoff now lockExpiry) (lockGrants (t k))
  indefinite : ∀ k, SoleOwner (indefiniteGrants (t k))

/-- Runs start from any exclusive table on which the operations that will call hold nothing. -/
def machine (lockExpiry : ℤ) (callers : ℕ → Bool) : Machine State Action Unit where
  init s := Exclusion lockExpiry s.now s.table ∧
    (∀ op, callers op = true → ∀ kind k, ¬ s.Locked lockExpiry kind op k) ∧
    ∀ op, s.calls op = none
  step := step lockExpiry callers

def noneExpires (lockExpiry : ℤ) (s : State) : Action → Prop
  | .tick d => ∀ k, ∀ x ∈ (s.table k).lockCells, timeCutoff s.now lockExpiry ≤ x.timestampMicros →
      timeCutoff (s.now + d) lockExpiry ≤ x.timestampMicros
  | _ => True

end LockRoots
end BigTable
end KvdbClient
