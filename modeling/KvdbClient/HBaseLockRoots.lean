import KvdbClient.HBaseIndefiniteLock
import KvdbClient.HBaseMutualExclusion
import KvdbClient.LockRoots

/-! `lock_roots` and `lock_roots_indefinitely` in `base.py` over the HBase client, whose lock calls
are several requests each. The calls of one phase run on a thread pool, so that their requests
interleave with each other and with those of all other operations. -/
namespace KvdbClient
namespace HBase
namespace LockRoots

open Lease Transition
open BigTable.LockRoots (LockKind Phase Call rootKey)

/-- The thread of the pool that locks or unlocks a root. -/
def rootCaller (op rootId : ℕ) : Caller := ⟨op,rootKey rootId,0⟩

structure State where
  client : HBase.State
  calls : ℕ → Option Call

/-- The requests and the clock move by actions of the client. An exception may end a call of it
before or after the server has executed its request. -/
inductive Action
  | lockRoots (op : ℕ) (rootIds : List ℕ) (futureRootIds : ℕ → Option (List ℕ)) (maxTries : ℕ)
  | lockRootsIndefinitely (op : ℕ) (rootIds : List ℕ) (futureRootIds : ℕ → Option (List ℕ))
  | submit (op n : ℕ)
  | client (a : HBase.Action)
  | raise (i : Caller)
  | judge (op : ℕ)
  | retry (op : ℕ)
  | release (op n : ℕ)

def State.set (s : State) (op : ℕ) (x : Call) : State :=
  { s with calls := Function.update s.calls op (some x) }

def poolCall (x : Call) (rootId : ℕ) : Option LockCall :=
  match x.phase with
  | .locking => some (x.kind.lock rootId)
  | .unlocking => some (x.kind.unlock rootId)
  | .returned _ | .raised | .releasing => none

def Completed (s : State) (op : ℕ) (x : Call) : Prop :=
  x.pending = [] ∧ ∀ r ∈ x.rootIds, s.client.pc (rootCaller op r) = .idle

instance (s : State) (op : ℕ) (x : Call) : Decidable (Completed s op x) :=
  inferInstanceAs (Decidable (_ ∧ _))

/-- What comes of a lock call goes to `lock_results`. -/
def addResult (x : Call) (c : LockCall) (b : Bool) : Call :=
  match c with
  | .lockRoot r | .lockRootIndefinitely r => { x with results := x.results ++ [(r,b)] }
  | _ => x

def collect (calls : ℕ → Option Call) : LockEvent → ℕ → Option Call
  | .ret i c b => Function.update calls i.operationId
      ((calls i.operationId).map fun x => addResult x c b)
  | .call .. | .released .. => calls

theorem collect_ret_self (calls : ℕ → Option Call) (i : Caller) (c : LockCall) (b : Bool) :
    collect calls (.ret i c b) i.operationId =
      (calls i.operationId).map fun x => addResult x c b :=
  Function.update_self ..

theorem collect_ret_of_ne (calls : ℕ → Option Call) {i : Caller} {op : ℕ} (h : op ≠ i.operationId)
    (c : LockCall) (b : Bool) : collect calls (.ret i c b) op = calls op :=
  Function.update_of_ne h ..

theorem addResult_lock (x : Call) (kind : LockKind) (r : ℕ) (b : Bool) :
    addResult x (kind.lock r) b = { x with results := x.results ++ [(r,b)] } := by
  cases kind <;> rfl

theorem addResult_unlock (x : Call) (kind : LockKind) (r : ℕ) (b : Bool) :
    addResult x (kind.unlock r) b = x := by
  cases kind <;> rfl

theorem addResult_renew (x : Call) {c : LockCall} (hc : c.role = .renew) (b : Bool) :
    addResult x c b = x := by
  cases c <;> first | rfl | cases hc

@[simp] theorem addResult_phase (x : Call) (c : LockCall) (b : Bool) :
    (addResult x c b).phase = x.phase := by
  cases c <;> rfl

@[simp] theorem addResult_rootIds (x : Call) (c : LockCall) (b : Bool) :
    (addResult x c b).rootIds = x.rootIds := by
  cases c <;> rfl

@[simp] theorem addResult_kind (x : Call) (c : LockCall) (b : Bool) :
    (addResult x c b).kind = x.kind := by
  cases c <;> rfl

/-- Operations that call `lock_roots` make no other lock calls than renewals once it returned
`True`. -/
def Permitted (callers : ℕ → Bool) (s : State) : HBase.Action → Prop
  | .start i c => callers i.operationId = false ∨
      c.role = .renew ∧ (s.calls i.operationId).map (·.phase) = some (.returned true)
  | .tick _ | .serve _ | .resume _ => True

instance (callers : ℕ → Bool) (s : State) (a : HBase.Action) : Decidable (Permitted callers s a) :=
  match a with
  | .start _ _ => inferInstanceAs (Decidable (_ ∨ _))
  | .tick _ | .serve _ | .resume _ => inferInstanceAs (Decidable True)

def startCall (lockExpiry : ℤ) (s : State) (op : ℕ) (y : Call) (root : ℕ) (c : LockCall) :
    Option (List LockEvent × State) :=
  (HBase.step lockExpiry s.client (.start (rootCaller op root) c)).map fun r =>
    (r.1,{ s with client := r.2 }.set op y)

/-- Operations have pairwise distinct ids: each makes one call. -/
def step (lockExpiry : ℤ) (callers : ℕ → Bool) (s : State) :
    Action → Option (List LockEvent × State)
  | .lockRoots op rootIds future maxTries =>
    if callers op ∧ (s.calls op).isNone then
      some ([],s.set op (BigTable.LockRoots.lockRoots rootIds future maxTries))
    else none
  | .lockRootsIndefinitely op rootIds future =>
    if callers op ∧ (s.calls op).isNone then
      some ([],s.set op (BigTable.LockRoots.lockRootsIndefinitely rootIds future))
    else none
  | .submit op n => (s.calls op).bind fun x => x.pending[n]?.bind fun root =>
    (poolCall x root).bind fun c =>
      startCall lockExpiry s op { x with pending := x.pending.eraseIdx n } root c
  | .client a =>
    if Permitted callers s a then
      (HBase.step lockExpiry s.client a).map fun r => (r.1,⟨r.2,r.1.foldl collect s.calls⟩)
    else none
  | .raise i =>
    match s.client.pc i with
    | .idle => none
    | .waiting c _ | .answered c _ _ =>
      some ([],⟨s.client.setPc i .idle,collect s.calls (.ret i c false)⟩)
  | .judge op => (s.calls op).bind fun x =>
    if x.phase = .locking ∧ Completed s op x then
      some ([],s.set op (BigTable.LockRoots.judge x))
    else none
  | .retry op => (s.calls op).bind fun x =>
    if x.phase = .unlocking ∧ Completed s op x then
      some ([],s.set op (BigTable.LockRoots.retry x))
    else none
  | .release op n => (s.calls op).bind fun x =>
    if x.phase = .returned true ∨ x.phase = .releasing then
      x.rootIds[n]?.bind fun root =>
        startCall lockExpiry s op { x with phase := .releasing } root (x.kind.unlock root)
    else none

def machine (lockExpiry : ℤ) (callers : ℕ → Bool) : Machine State Action LockEvent where
  init s := (HBase.machine lockExpiry).init s.client ∧ ∀ op, s.calls op = none
  step := step lockExpiry callers

def At (client : HBase.State) (i : Caller) (c : LockCall) (st : Stage) : Prop :=
  client.pc i = .waiting c st ∨ ∃ r, client.pc i = .answered c st r

def Begins (x : Call) : Prop :=
  (∃ rootIds future maxTries, x = BigTable.LockRoots.lockRoots rootIds future maxTries) ∨
    ∃ rootIds future, x = BigTable.LockRoots.lockRootsIndefinitely rootIds future

section Steps

variable {lockExpiry : ℤ} {callers : ℕ → Bool} {s u : State} {es : List LockEvent}

theorem startCall_eq_some {op root : ℕ} {y : Call} {c : LockCall}
    (h : startCall lockExpiry s op y root c = some (es,u)) :
    ∃ v, HBase.step lockExpiry s.client (.start (rootCaller op root) c) = some (es,v) ∧
      u = State.set ⟨v,s.calls⟩ op y := by
  obtain ⟨⟨es',v⟩,hs,heq⟩ := Option.map_eq_some_iff.mp h
  cases heq
  exact ⟨v,hs,rfl⟩

/-- What a step does: a call begins, the pool takes a root of it up, the client takes a step, a
call of the client raises, the results of a try are judged, a try is over, or a root is
released. -/
theorem step_cases {a : Action} (hs : step lockExpiry callers s a = some (es,u)) :
    (∃ op y, callers op = true ∧ s.calls op = none ∧ Begins y ∧ es = [] ∧ u = s.set op y) ∨
    (∃ op n x root c v, s.calls op = some x ∧ x.pending[n]? = some root ∧
      poolCall x root = some c ∧
      HBase.step lockExpiry s.client (.start (rootCaller op root) c) = some (es,v) ∧
      u = State.set ⟨v,s.calls⟩ op { x with pending := x.pending.eraseIdx n }) ∨
    (∃ b v, a = .client b ∧ Permitted callers s b ∧
      HBase.step lockExpiry s.client b = some (es,v) ∧ u = ⟨v,es.foldl collect s.calls⟩) ∨
    (∃ i c st, a = .raise i ∧ At s.client i c st ∧ es = [] ∧
      u = ⟨s.client.setPc i .idle,collect s.calls (.ret i c false)⟩) ∨
    (∃ op x, s.calls op = some x ∧ x.phase = .locking ∧ Completed s op x ∧ es = [] ∧
      u = s.set op (BigTable.LockRoots.judge x)) ∨
    (∃ op x, s.calls op = some x ∧ x.phase = .unlocking ∧ Completed s op x ∧ es = [] ∧
      u = s.set op (BigTable.LockRoots.retry x)) ∨
    ∃ op x root v, s.calls op = some x ∧ (x.phase = .returned true ∨ x.phase = .releasing) ∧
      HBase.step lockExpiry s.client (.start (rootCaller op root) (x.kind.unlock root)) =
        some (es,v) ∧
      u = State.set ⟨v,s.calls⟩ op { x with phase := .releasing } := by
  cases a with
  | lockRoots op rootIds future maxTries =>
    simp only [step] at hs
    split at hs
    · rename_i hop
      cases hs
      exact Or.inl ⟨op,_,hop.1,Option.isNone_iff_eq_none.mp hop.2,
        Or.inl ⟨rootIds,future,maxTries,rfl⟩,rfl,rfl⟩
    · cases hs
  | lockRootsIndefinitely op rootIds future =>
    simp only [step] at hs
    split at hs
    · rename_i hop
      cases hs
      exact Or.inl ⟨op,_,hop.1,Option.isNone_iff_eq_none.mp hop.2,Or.inr ⟨rootIds,future,rfl⟩,rfl,rfl⟩
    · cases hs
  | submit op n =>
    obtain ⟨x,hx,hs⟩ := Option.bind_eq_some_iff.mp hs
    obtain ⟨root,hroot,hs⟩ := Option.bind_eq_some_iff.mp hs
    obtain ⟨c,hc,hs⟩ := Option.bind_eq_some_iff.mp hs
    obtain ⟨v,hv,hu⟩ := startCall_eq_some hs
    exact Or.inr (Or.inl ⟨op,n,x,root,c,v,hx,hroot,hc,hv,hu⟩)
  | client b =>
    simp only [step] at hs
    split at hs
    · rename_i hb
      obtain ⟨⟨es',v⟩,hv,heq⟩ := Option.map_eq_some_iff.mp hs
      cases heq
      exact Or.inr (Or.inr (Or.inl ⟨b,v,rfl,hb,hv,rfl⟩))
    · cases hs
  | raise i =>
    simp only [step] at hs
    split at hs
    · cases hs
    · rename_i c st hpc
      cases hs
      exact Or.inr (Or.inr (Or.inr (Or.inl ⟨i,c,st,rfl,Or.inl hpc,rfl,rfl⟩)))
    · rename_i c st r hpc
      cases hs
      exact Or.inr (Or.inr (Or.inr (Or.inl ⟨i,c,st,rfl,Or.inr ⟨r,hpc⟩,rfl,rfl⟩)))
  | judge op =>
    obtain ⟨x,hx,hs⟩ := Option.bind_eq_some_iff.mp hs
    split at hs
    · rename_i hp
      cases hs
      exact Or.inr (Or.inr (Or.inr (Or.inr (Or.inl ⟨op,x,hx,hp.1,hp.2,rfl,rfl⟩))))
    · cases hs
  | retry op =>
    obtain ⟨x,hx,hs⟩ := Option.bind_eq_some_iff.mp hs
    split at hs
    · rename_i hp
      cases hs
      exact Or.inr (Or.inr (Or.inr (Or.inr (Or.inr (Or.inl ⟨op,x,hx,hp.1,hp.2,rfl,rfl⟩)))))
    · cases hs
  | release op n =>
    obtain ⟨x,hx,hs⟩ := Option.bind_eq_some_iff.mp hs
    split at hs
    · rename_i hp
      obtain ⟨root,-,hs⟩ := Option.bind_eq_some_iff.mp hs
      obtain ⟨v,hv,hu⟩ := startCall_eq_some hs
      exact Or.inr (Or.inr (Or.inr (Or.inr (Or.inr (Or.inr ⟨op,x,root,v,hx,hp,hv,hu⟩)))))
    · cases hs

end Steps

end LockRoots
end HBase
end KvdbClient
