import KvdbClient.BigTableRuns

/-! Bulk writes that first renew the root locks of their operation: `SimpleClient.write` and
`renew_locks` in `base.py`, over the BigTable client. -/
namespace KvdbClient
namespace BigTable
namespace GuardedWrite

open Lease Transition

/-- A row mutation sets cells that were stamped when the mutation was created. -/
structure RowMutationEntry where
  rowKey : Bytes
  mutations : List Cell
  deriving DecidableEq

def RowMutationEntry.store (t : Table) (entry : RowMutationEntry) : Table :=
  Function.update t entry.rowKey (entry.mutations.foldl Row.setCell (t entry.rowKey))

/-- A renewal as `renew_locks` sees it, and whether the row was fenced at that moment. -/
structure Renewal where
  rootId : ℕ
  result : Bool
  fenced : Bool
  deriving DecidableEq

inductive Phase
  | renewing
  | storing (remaining : List RowMutationEntry)
  | raised
  deriving DecidableEq

def Phase.remaining : Phase → List RowMutationEntry
  | .storing remaining => remaining
  | _ => []

structure Write where
  rows : List RowMutationEntry
  rootIds : List ℕ
  operationId : ℕ
  pending : List ℕ
  renewals : List Renewal
  phase : Phase

/-- `write` renews locks only when it is given both roots and an operation. -/
def write (rows : List RowMutationEntry) (rootIds : Option (List ℕ)) (operationId : Option ℕ) :
    Write :=
  match rootIds, operationId with
  | some roots, some op => ⟨rows,roots,op,roots,[],.renewing⟩
  | _, _ => ⟨rows,[],0,[],[],.storing rows⟩

structure State where
  locks : BigTable.State
  writes : ℕ → Option Write

/-- The renewals of a write run on a thread pool, so they are executed in any order and among
the steps of other calls. -/
inductive Action
  | lock (a : BigTable.Action)
  | write (w : ℕ) (rows : List RowMutationEntry) (rootIds : Option (List ℕ))
      (operationId : Option ℕ)
  | renew (w n : ℕ) (fault : Fault)
  | proceed (w : ℕ)
  | store (w n : ℕ)

inductive Event
  | stored (w : ℕ) (entry : RowMutationEntry)
  | lockingError (w : ℕ)
  deriving DecidableEq

def State.set (s : State) (w : ℕ) (x : Write) : State :=
  { s with writes := Function.update s.writes w (some x) }

def rootCaller (operationId rootId : ℕ) : Caller := ⟨operationId,serializeUint64 rootId false false,0⟩

/-- `renew_lock` of one root, and what its future holds: an exception counts as a failure. -/
def renewLock (lockExpiry : ℤ) (s : BigTable.State) (operationId rootId : ℕ) (fault : Fault) :
    Bool × BigTable.State :=
  let r := s.call lockExpiry (rootCaller operationId rootId) (.renewLock rootId)
  match fault with
  | .none => r
  | .before => (false,s)
  | .after => (false,r.2)

def renew (lockExpiry : ℤ) (s : State) (w : ℕ) (x : Write) (n rootId : ℕ) (fault : Fault) : State :=
  let r := renewLock lockExpiry s.locks x.operationId rootId fault
  let fenced := decide (Fenced lockExpiry s.locks.now x.operationId
    (s.locks.table (serializeUint64 rootId false false)))
  { s with locks := r.2 }.set w
    { x with pending := x.pending.eraseIdx n, renewals := ⟨rootId,r.1,fenced⟩ :: x.renewals }

/-- Once every future of `renew_locks` is done, the write stores its rows or raises. -/
def proceed (s : State) (w : ℕ) (x : Write) : List Event × State :=
  if x.renewals.all (·.result) then ([],s.set w { x with phase := .storing x.rows })
  else ([.lockingError w],s.set w { x with phase := .raised })

def store (s : State) (w : ℕ) (x : Write) (n : ℕ) (entry : RowMutationEntry) :
    List Event × State :=
  ([.stored w entry],
    { s with locks := { s.locks with table := entry.store s.locks.table } }.set w
      { x with phase := .storing (x.phase.remaining.eraseIdx n) })

def step (lockExpiry : ℤ) (s : State) : Action → Option (List Event × State)
  | .lock a => (BigTable.step lockExpiry s.locks a).map fun r => ([],{ s with locks := r.2 })
  | .write w rows rootIds operationId =>
    match s.writes w with
    | none => some ([],s.set w (GuardedWrite.write rows rootIds operationId))
    | some _ => none
  | .renew w n fault =>
    (s.writes w).bind fun x => x.pending[n]?.map fun root =>
      ([],renew lockExpiry s w x n root fault)
  | .proceed w =>
    (s.writes w).bind fun x =>
      if x.phase = .renewing ∧ x.pending = [] then some (GuardedWrite.proceed s w x) else none
  | .store w n =>
    (s.writes w).bind fun x => x.phase.remaining[n]?.map fun entry =>
      GuardedWrite.store s w x n entry

def machine (lockExpiry : ℤ) : Machine State Action Event where
  init s := (BigTable.machine lockExpiry).init s.locks ∧ ∀ w, s.writes w = none
  step := step lockExpiry

/-- Every renewal that is executed is made on a renewable row, and no stored row carries a cell
of the lock column. -/
def guarded (lockExpiry : ℤ) (s : State) : Action → Prop
  | .lock a => renewsRenewable lockExpiry s.locks a
  | .renew w n fault => ∀ x ∈ s.writes w, ∀ root ∈ x.pending[n]?, fault = .before ∨
      Renewable lockExpiry s.locks.now x.operationId
        (s.locks.table (serializeUint64 root false false))
  | .store w n => ∀ x ∈ s.writes w, ∀ entry ∈ x.phase.remaining[n]?,
      ∀ c ∈ entry.mutations, c.column ≠ Concurrency.lock.toColumn
  | _ => True

instance (lockExpiry : ℤ) (s : State) (a : Action) : Decidable (guarded lockExpiry s a) :=
  match a with
  | .lock a => inferInstanceAs (Decidable (renewsRenewable lockExpiry s.locks a))
  | .renew w n _ => inferInstanceAs (Decidable (∀ x ∈ s.writes w, ∀ root ∈ x.pending[n]?, _ ∨ _))
  | .store w n => inferInstanceAs (Decidable (∀ x ∈ s.writes w, ∀ entry ∈ x.phase.remaining[n]?,
      ∀ c ∈ entry.mutations, _))
  | .write .. => inferInstanceAs (Decidable True)
  | .proceed _ => inferInstanceAs (Decidable True)

def Event.write : Event → ℕ
  | .stored w _ | .lockingError w => w

def Stored (tr : List Event) (w : ℕ) : Prop := ∃ entry, .stored w entry ∈ tr

/-- A write stores rows only after every renewal answered `True`, and raises otherwise. -/
def PhaseSound (tr : List Event) (w : ℕ) (x : Write) : Prop :=
  match x.phase with
  | .renewing => ¬ Stored tr w ∧ .lockingError w ∉ tr
  | .storing _ => x.pending = [] ∧ (∀ r ∈ x.renewals, r.result = true) ∧ .lockingError w ∉ tr
  | .raised => x.pending = [] ∧ (∃ r ∈ x.renewals, r.result = false) ∧ ¬ Stored tr w ∧
      .lockingError w ∈ tr

structure Sound (tr : List Event) (w : ℕ) (x : Write) : Prop where
  perm : (x.renewals.map (·.rootId) ++ x.pending).Perm x.rootIds
  fenced : ∀ r ∈ x.renewals, r.result = true → r.fenced = true
  phase : PhaseSound tr w x

structure Invariant (lockExpiry : ℤ) (tr : List Event) (s : State) : Prop where
  locks : BigTable.Invariant lockExpiry s.locks
  fresh : ∀ w, s.writes w = none → ∀ e ∈ tr, e.write ≠ w
  sound : ∀ w x, s.writes w = some x → Sound tr w x

section Trace

variable {tr es : List Event} {w : ℕ}

theorem stored_append (h : ∀ e ∈ es, e.write ≠ w) : Stored (tr ++ es) w ↔ Stored tr w := by
  constructor
  · rintro ⟨entry,hm⟩
    rcases List.mem_append.mp hm with hm | hm
    · exact ⟨entry,hm⟩
    · exact absurd rfl (h _ hm)
  · rintro ⟨entry,hm⟩
    exact ⟨entry,List.mem_append_left _ hm⟩

theorem lockingError_append (h : ∀ e ∈ es, e.write ≠ w) :
    .lockingError w ∈ tr ++ es ↔ .lockingError w ∈ tr := by
  rw [List.mem_append,or_iff_left]
  exact fun hm => h _ hm rfl

theorem Sound.extend {x : Write} (h : Sound tr w x) (hes : ∀ e ∈ es, e.write ≠ w) :
    Sound (tr ++ es) w x where
  perm := h.perm
  fenced := h.fenced
  phase := by
    have hp := h.phase
    unfold PhaseSound at hp ⊢
    simpa only [stored_append hes,lockingError_append hes] using hp

theorem not_stored_of_fresh (h : ∀ e ∈ tr, e.write ≠ w) : ¬ Stored tr w :=
  fun ⟨_,hm⟩ => h _ hm rfl

theorem write_sound (h : ∀ e ∈ tr, e.write ≠ w) (rows : List RowMutationEntry)
    (rootIds : Option (List ℕ)) (operationId : Option ℕ) :
    Sound tr w (write rows rootIds operationId) := by
  have hno : .lockingError w ∉ tr := fun hm => h _ hm rfl
  cases rootIds with
  | none => exact ⟨by simp [write],by simp [write],by simp [write],by simp [write],hno⟩
  | some roots =>
    cases operationId with
    | none => exact ⟨by simp [write],by simp [write],by simp [write],by simp [write],hno⟩
    | some op => exact ⟨by simp [write],by simp [write],not_stored_of_fresh h,hno⟩

end Trace

/-- A renewal keeps the lock columns sound, and succeeds on fenced rows only. -/
theorem renewLock_spec {lockExpiry : ℤ} {s : BigTable.State} {op rootId : ℕ} {fault : Fault}
    (h : BigTable.Invariant lockExpiry s)
    (hok : fault = .before ∨
      Renewable lockExpiry s.now op (s.table (serializeUint64 rootId false false))) :
    BigTable.Invariant lockExpiry (renewLock lockExpiry s op rootId fault).2 ∧
      ((renewLock lockExpiry s op rootId fault).1 = true →
        Fenced lockExpiry s.now op (s.table (serializeUint64 rootId false false))) := by
  have hcall : fault ≠ .before → BigTable.Invariant lockExpiry
      (s.call lockExpiry (rootCaller op rootId) (.renewLock rootId)).2 :=
    fun hf => h.of_call rfl fun _ => hok.resolve_left hf
  cases fault with
  | before => exact ⟨h,fun hr => by simp [renewLock] at hr⟩
  | after => exact ⟨hcall (by simp),fun hr => by simp [renewLock] at hr⟩
  | none =>
    refine ⟨hcall (by simp),fun hr => ?_⟩
    rcases exec_renew (c := .renewLock rootId) lockExpiry s.now s.table op rfl with he | ⟨-,hown⟩
    · simp [renewLock,State.call,rootCaller,he] at hr
    · exact fenced_of_unopposed ((hok.resolve_left (by simp)).unopposed (h.exclusive _) hown)

theorem lockGrants_foldl_setCell {cells : List Cell} {r : Row}
    (h : ∀ c ∈ cells, c.column ≠ Concurrency.lock.toColumn) :
    lockGrants (cells.foldl Row.setCell r) = lockGrants r := by
  induction cells generalizing r with
  | nil => rfl
  | cons c cells ih =>
    rw [List.foldl_cons,ih fun d hd => h d (List.mem_cons_of_mem _ hd)]
    exact Row.grants_setCell_of_ne (h c List.mem_cons_self)

theorem store_locks {lockExpiry : ℤ} {s : BigTable.State} (h : BigTable.Invariant lockExpiry s)
    {entry : RowMutationEntry}
    (hok : ∀ c ∈ entry.mutations, c.column ≠ Concurrency.lock.toColumn) :
    BigTable.Invariant lockExpiry { s with table := entry.store s.table } :=
  h.frame (grants_update_of_eq (lockGrants_foldl_setCell hok)) fun _ _ => rfl

section Steps

variable {tr : List Event} {w n : ℕ} {x : Write}

theorem PhaseSound.renewing_of_pending (h : PhaseSound tr w x) {root : ℕ}
    (hroot : x.pending[n]? = some root) : x.phase = .renewing := by
  unfold PhaseSound at h
  cases hp : x.phase with
  | renewing => rfl
  | storing _ | raised =>
    simp only [hp] at h
    simp [h.1] at hroot

theorem Sound.renew (h : Sound tr w x) {root : ℕ} (hroot : x.pending[n]? = some root)
    {r : Renewal} (hid : r.rootId = root) (hr : r.result = true → r.fenced = true) :
    Sound tr w { x with pending := x.pending.eraseIdx n, renewals := r :: x.renewals } where
  perm := by
    obtain ⟨hn,rfl⟩ := List.getElem?_eq_some_iff.mp hroot
    refine List.Perm.trans ?_ h.perm
    simp only [List.map_cons,hid,List.cons_append]
    exact List.perm_middle.symm.trans ((List.getElem_cons_eraseIdx_perm hn).append_left _)
  fenced := by
    intro r' hr'
    rcases List.mem_cons.mp hr' with rfl | hr'
    · exact hr
    · exact h.fenced r' hr'
  phase := by
    have hp := h.phase
    have hren := hp.renewing_of_pending hroot
    simpa only [PhaseSound,hren] using hp

theorem Sound.proceed (h : Sound tr w x) (hp : x.phase = .renewing) (hnil : x.pending = []) :
    if x.renewals.all (·.result) then Sound (tr ++ []) w { x with phase := .storing x.rows }
    else Sound (tr ++ [.lockingError w]) w { x with phase := .raised } := by
  have hsound := h.phase
  simp only [PhaseSound,hp] at hsound
  split
  · rename_i hall
    exact ⟨h.perm,h.fenced,hnil,by simpa using hall,by simpa using hsound.2⟩
  · rename_i hall
    refine ⟨h.perm,h.fenced,hnil,by simpa using hall,?_,by simp⟩
    rintro ⟨entry,hm⟩
    exact hsound.1 ⟨entry,by simpa using hm⟩

theorem Sound.store (h : Sound tr w x) {entry : RowMutationEntry}
    (hn : x.phase.remaining[n]? = some entry) :
    Sound (tr ++ [.stored w entry]) w
      { x with phase := .storing (x.phase.remaining.eraseIdx n) } := by
  have hsound := h.phase
  cases hp : x.phase with
  | renewing | raised => simp [hp,Phase.remaining] at hn
  | storing remaining =>
    simp only [PhaseSound,hp] at hsound
    exact ⟨h.perm,h.fenced,hsound.1,hsound.2.1,by simpa using hsound.2.2⟩

end Steps

namespace Invariant

variable {lockExpiry : ℤ} {tr es : List Event} {s : State}

theorem set (h : Invariant lockExpiry tr s) {locks : BigTable.State} {w : ℕ} {x : Write}
    (hl : BigTable.Invariant lockExpiry locks) (hes : ∀ e ∈ es, e.write = w)
    (hx : Sound (tr ++ es) w x) :
    Invariant lockExpiry (tr ++ es) ({ s with locks := locks }.set w x) where
  locks := hl
  fresh w' hw' e he := by
    have hne : w' ≠ w := by
      rintro rfl
      simp [State.set] at hw'
    simp only [State.set,Function.update_of_ne hne] at hw'
    rcases List.mem_append.mp he with he | he
    · exact h.fresh w' hw' e he
    · exact fun heq => hne (heq.symm.trans (hes e he))
  sound w' x' hx' := by
    by_cases hne : w' = w
    · subst hne
      simp only [State.set,Function.update_self,Option.some.injEq] at hx'
      exact hx' ▸ hx
    · simp only [State.set,Function.update_of_ne hne] at hx'
      exact (h.sound w' x' hx').extend fun e he heq => hne (heq.symm.trans (hes e he))

theorem of_init (h : (machine lockExpiry).init s) : Invariant lockExpiry [] s where
  locks := BigTable.Invariant.of_init h.1
  fresh w hw := by simp
  sound w x hx := by simp [h.2] at hx

theorem of_step (h : Invariant lockExpiry tr s) {a : Action} {u : State}
    (hok : guarded lockExpiry s a) (hs : step lockExpiry s a = some (es,u)) :
    Invariant lockExpiry (tr ++ es) u := by
  cases a with
  | lock a =>
    obtain ⟨⟨les,locks⟩,hl,hsu⟩ := Option.map_eq_some_iff.mp hs
    cases hsu
    simpa using (⟨h.locks.of_step hok hl,h.fresh,h.sound⟩ :
      Invariant lockExpiry tr { s with locks := locks })
  | write w rows rootIds operationId =>
    simp only [step] at hs
    split at hs
    · rename_i hw
      cases hs
      exact h.set h.locks (by simp) (by simpa using write_sound (h.fresh w hw) rows rootIds operationId)
    · exact absurd hs (by simp)
  | renew w n fault =>
    obtain ⟨x,hx,hs⟩ := Option.bind_eq_some_iff.mp hs
    obtain ⟨root,hroot,hsu⟩ := Option.map_eq_some_iff.mp hs
    cases hsu
    obtain ⟨hl,hf⟩ := renewLock_spec h.locks (hok x hx root hroot)
    refine h.set hl (by simp) ?_
    simpa using (h.sound w x hx).renew hroot rfl fun hr => decide_eq_true (hf hr)
  | proceed w =>
    obtain ⟨x,hx,hs⟩ := Option.bind_eq_some_iff.mp hs
    split at hs
    · rename_i hp
      have hsound := (h.sound w x hx).proceed hp.1 hp.2
      simp only [GuardedWrite.proceed] at hs
      split at hs
      · rename_i hall
        cases hs
        exact h.set h.locks (by simp) (by simpa [hall] using hsound)
      · rename_i hall
        cases hs
        exact h.set h.locks (by simp [Event.write]) (by simpa [hall] using hsound)
    · exact absurd hs (by simp)
  | store w n =>
    obtain ⟨x,hx,hs⟩ := Option.bind_eq_some_iff.mp hs
    obtain ⟨entry,hn,hsu⟩ := Option.map_eq_some_iff.mp hs
    cases hsu
    exact h.set (store_locks h.locks (hok x hx entry hn)) (by simp [Event.write])
      ((h.sound w x hx).store hn)

theorem of_exec {s₀ : State} (hinit : (machine lockExpiry).init s₀)
    (hrun : Exec (machine lockExpiry) (guarded lockExpiry) s₀ tr s) : Invariant lockExpiry tr s :=
  hrun.induct (P := Invariant lockExpiry) (of_init hinit) fun _ _ _ _ _ _ hi hok hs =>
    hi.of_step hok hs

end Invariant

/-- Every root of the write was renewed, each time while no other operation had a live lock on
it. -/
def Write.Fenced (x : Write) : Prop :=
  (x.renewals.map (·.rootId)).Perm x.rootIds ∧
    ∀ r ∈ x.renewals, r.result = true ∧ r.fenced = true

theorem Sound.fenced_of_results {tr : List Event} {w : ℕ} {x : Write} (h : Sound tr w x)
    (hnil : x.pending = []) (hall : ∀ r ∈ x.renewals, r.result = true) : x.Fenced :=
  ⟨by simpa [hnil] using h.perm,fun r hr => ⟨hall r hr,h.fenced r hr (hall r hr)⟩⟩

/-- A write that stores rows is fenced; one that is not fenced raises once its renewals are done,
with no row stored. -/
theorem write_fenced (lockExpiry : ℤ) {s₀ s : State} {tr : List Event}
    (hinit : (machine lockExpiry).init s₀)
    (hrun : Exec (machine lockExpiry) (guarded lockExpiry) s₀ tr s) {w : ℕ} {x : Write}
    (hx : s.writes w = some x) :
    ((∃ remaining, x.phase = .storing remaining) ∨ Stored tr w → x.Fenced) ∧
    (x.pending = [] → ¬ x.Fenced → ¬ Stored tr w ∧ (.lockingError w ∈ tr ∨
      ∃ u, step lockExpiry s (.proceed w) = some ([.lockingError w],u) ∧ u.locks = s.locks)) ∧
    (.lockingError w ∈ tr → ¬ Stored tr w) := by
  have h := (Invariant.of_exec hinit hrun).sound w x hx
  have hp := h.phase
  cases hphase : x.phase with
  | renewing =>
    simp only [PhaseSound,hphase] at hp
    refine ⟨?_,fun hnil hno => ⟨hp.1,Or.inr ?_⟩,fun hm => absurd hm hp.2⟩
    · rintro (⟨_,hs⟩ | hs)
      · cases hs
      · exact absurd hs hp.1
    · have hall : ¬ (x.renewals.all (·.result)) = true := fun hall =>
        hno (h.fenced_of_results hnil (by simpa using hall))
      refine ⟨s.set w { x with phase := .raised },?_,rfl⟩
      have hproceed : GuardedWrite.proceed s w x = _ := if_neg hall
      simp [step,hx,hphase,hnil,hproceed]
  | storing remaining =>
    simp only [PhaseSound,hphase] at hp
    have hfenced := h.fenced_of_results hp.1 hp.2.1
    exact ⟨fun _ => hfenced,fun _ hno => absurd hfenced hno,fun hm => absurd hm hp.2.2⟩
  | raised =>
    simp only [PhaseSound,hphase] at hp
    refine ⟨?_,fun _ _ => ⟨hp.2.2.1,Or.inl hp.2.2.2⟩,fun _ => hp.2.2.1⟩
    rintro (⟨_,hs⟩ | hs)
    · cases hs
    · exact absurd hs hp.2.2.1

def start : State := ⟨BigTable.start,fun _ => none⟩

theorem start_init (lockExpiry : ℤ) : (machine lockExpiry).init start :=
  ⟨BigTable.start_init lockExpiry,fun _ => rfl⟩

def entry : RowMutationEntry := ⟨uint64String 7,[⟨Hierarchy.newParent,0,[]⟩]⟩

theorem write_fenced_stored :
    ∃ tr s x, Stored tr 0 ∧ s.writes 0 = some x ∧ x.rootIds = [7] ∧ x.Fenced ∧
      Exec (machine threeMinutes) (guarded threeMinutes) start tr s := by
  obtain ⟨tr,s,hrun,hstored,hroots⟩ := exists_exec (machine threeMinutes) (guarded threeMinutes)
    (s := start)
    (P := fun tr s => .stored 0 entry ∈ tr ∧ (s.writes 0).map (·.rootIds) = some [7])
    [.lock (.call (rootCaller 1 7) (.lockRoot 7)),.lock (.tick 1000),
      .write 0 [entry] (some [7]) (some 1),.renew 0 0 .none,.proceed 0,.store 0 0]
    (by decide +kernel)
  obtain ⟨x,hx,hroots⟩ := Option.map_eq_some_iff.mp hroots
  have h := write_fenced threeMinutes (start_init _) hrun hx
  exact ⟨tr,s,x,⟨entry,hstored⟩,hx,hroots,h.1 (Or.inr ⟨entry,hstored⟩),hrun⟩

def rootCalls (s : State) : Action → Prop
  | .lock (.call _ c) => c.temporalOnRoot = true
  | .store w n => ∀ x ∈ s.writes w, ∀ entry ∈ x.phase.remaining[n]?,
      ∀ c ∈ entry.mutations, c.column ≠ Concurrency.lock.toColumn
  | _ => True

instance (s : State) (a : Action) : Decidable (rootCalls s a) :=
  match a with
  | .lock (.call _ c) => inferInstanceAs (Decidable (c.temporalOnRoot = true))
  | .lock (.tick _) => inferInstanceAs (Decidable True)
  | .renew .. => inferInstanceAs (Decidable True)
  | .store w n => inferInstanceAs (Decidable (∀ x ∈ s.writes w, ∀ entry ∈ x.phase.remaining[n]?,
      ∀ c ∈ entry.mutations, _))
  | .write .. => inferInstanceAs (Decidable True)
  | .proceed _ => inferInstanceAs (Decidable True)

/-- The write of an operation whose lock expired and was taken over renews its stale version and
stores its row under the lock of the other operation. -/
theorem write_not_fenced :
    ¬ ∀ s₀ tr s w x, (machine threeMinutes).init s₀ →
      Exec (machine threeMinutes) rootCalls s₀ tr s → s.writes w = some x → Stored tr w →
      x.Fenced := by
  intro h
  obtain ⟨tr,s,hrun,hstored,hren⟩ := exists_exec (machine threeMinutes) rootCalls
    (s := start)
    (P := fun tr s => .stored 0 entry ∈ tr ∧
      (s.writes 0).map (·.renewals) = some [⟨7,true,false⟩])
    [.lock (.call (rootCaller 1 7) (.lockRoot 7)),.lock (.tick 181000000),
      .lock (.call (rootCaller 2 7) (.lockRoot 7)),.write 0 [entry] (some [7]) (some 1),
      .renew 0 0 .none,.proceed 0,.store 0 0] (by decide +kernel)
  obtain ⟨x,hx,hren⟩ := Option.map_eq_some_iff.mp hren
  have hf := (h _ _ _ 0 x (start_init _) hrun hx ⟨entry,hstored⟩).2 ⟨7,true,false⟩ (by simp [hren])
  exact absurd hf.2 (by decide)

end GuardedWrite
end BigTable
end KvdbClient
