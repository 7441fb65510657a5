import KvdbClient.GuardedWrite

/-! Roots that were replaced, on the BigTable client: a row with a `NewParent` cell refuses every root
lock and renewal from then on, and with them the writes that have still to renew it. -/
namespace KvdbClient
namespace BigTable

open Lease Transition

def Replaced (t : Table) (rootId : ℕ) : Prop :=
  ((t (serializeUint64 rootId false false)).grants Hierarchy.newParent).Nonempty

def replacements (t : Table) (rootId : ℕ) : Set ℤ :=
  {ts | ∃ g ∈ (t (serializeUint64 rootId false false)).grants Hierarchy.newParent, g.stamp = ts}

theorem replaced_iff {t : Table} {rootId : ℕ} : Replaced t rootId ↔ (replacements t rootId).Nonempty :=
  ⟨fun ⟨g,hg⟩ => ⟨g.stamp,g,hg,rfl⟩,fun ⟨_,g,hg,_⟩ => ⟨g,hg⟩⟩

theorem exists_grant_setCell {r : Row} (c : Cell) {column : Column} {ts : ℤ}
    (h : ∃ g ∈ r.grants column, g.stamp = ts) :
    ∃ g ∈ (r.setCell c).grants column, g.stamp = ts := by
  obtain ⟨g,⟨x,hx,hcolumn,rfl⟩,hts⟩ := h
  by_cases hsame : SameVersion c x
  · exact ⟨_,hsame.1.trans hcolumn ▸ Row.setCell_grant r c,hsame.2.trans hts⟩
  · exact ⟨_,⟨x,Row.mem_setCell.mpr (Or.inr ⟨hx,hsame⟩),hcolumn,rfl⟩,hts⟩

section Locks

variable {lockExpiry now : ℤ} {t : Table} {op : ℕ}

theorem newParent_ne_lock : Hierarchy.newParent ≠ Concurrency.lock.toColumn ∧
    Hierarchy.newParent ≠ Concurrency.indefiniteLock.toColumn := by
  decide

theorem exec_newParent (c : LockCall) (k : Bytes) :
    ((exec lockExpiry now t op c).2 k).grants Hierarchy.newParent =
      (t k).grants Hierarchy.newParent := by
  obtain ⟨hlock,hindefinite⟩ := newParent_ne_lock
  cases hrole : c.role with
  | acquire =>
    rcases exec_acquire lockExpiry now t op hrole with he | ⟨he,-⟩
    · rw [he]
    · rw [he]
      exact grants_update_of_eq (Row.grants_setCell_of_ne hlock.symm) k
  | acquireIndefinite =>
    rcases exec_acquireIndefinite lockExpiry now t op hrole with he | ⟨he,-⟩
    · rw [he]
    · rw [he]
      exact grants_update_of_eq (Row.grants_setCell_of_ne hindefinite.symm) k
  | renew =>
    rcases exec_renew lockExpiry now t op hrole with he | ⟨he,-⟩
    · rw [he]
    · rw [he]
      exact grants_update_of_eq (Row.grants_setCell_of_ne hlock.symm) k
  | release =>
    rcases exec_release lockExpiry now t op hrole with ⟨he,-⟩ | ⟨he,-⟩
    · rw [he]
    · rw [he]
      exact grants_update_of_eq (Row.grants_deleteColumn_of_ne hlock.symm) k
  | releaseIndefinite =>
    rcases exec_releaseIndefinite lockExpiry now t op hrole with ⟨he,-⟩ | ⟨he,-⟩
    · rw [he]
    · rw [he]
      exact grants_update_of_eq (Row.grants_deleteColumn_of_ne hindefinite.symm) k

/-- The calls that take or extend the lock of a root. -/
def LocksRoot (rootId : ℕ) (c : LockCall) : Prop :=
  c = .lockRoot rootId ∨ c = .lockRootIndefinitely rootId ∨ c = .renewLock rootId

/-- The filters find the successor, of a renewal also beside an own version. -/
theorem exec_of_replaced {rootId : ℕ} (h : Replaced t rootId) {c : LockCall}
    (hc : LocksRoot rootId c) : exec lockExpiry now t op c = (false,t) := by
  rcases hc with rfl | rfl | rfl
  · rcases acquireWith_cases (t := t) (k := serializeUint64 rootId false false)
      matches_getRootLockFilter (setLockMutation Concurrency.lock op now) with ⟨he,-⟩ | ⟨-,hp⟩
    · exact he
    · exact absurd (Or.inr h) hp
  · rcases acquireWith_cases (t := t) (k := serializeUint64 rootId false false)
      matches_getIndefiniteRootLockFilter (setLockMutation Concurrency.indefiniteLock op now) with
      ⟨he,-⟩ | ⟨-,hp⟩
    · exact he
    · exact absurd (Or.inr h) hp
  · rcases acquireWith_cases (t := t) (k := serializeUint64 rootId false false)
      matches_getRenewLockFilter (setLockMutation Concurrency.lock op now) with ⟨he,-⟩ | ⟨-,hp⟩
    · exact he
    · have hcell : ∃ x, x ∈ (t (serializeUint64 rootId false false)).cells := by
        obtain ⟨-,x,hx,-⟩ := h
        exact ⟨x,hx⟩
      refine absurd ?_ hp
      by_cases hown : ∃ g ∈ lockGrants (t (serializeUint64 rootId false false)),
          g.owner = uint64String op
      · exact Or.inl ⟨hown,h⟩
      · exact Or.inr ⟨hown,hcell⟩

theorem call_of_replaced {s : State} {rootId : ℕ} (h : Replaced s.table rootId) (i : Caller)
    {c : LockCall} (hc : LocksRoot rootId c) : s.call lockExpiry i c = (false,s) := by
  have hrole : c.role = .acquire ∨ c.role = .acquireIndefinite ∨ c.role = .renew := by
    rcases hc with rfl | rfl | rfl <;> simp [LockCall.role]
  have hhold : ∀ hold, holdAfter c.role false s.now hold = hold := fun hold => by
    rcases hrole with hr | hr | hr <;> rw [hr] <;> rfl
  simp only [State.call,exec_of_replaced h hc,hhold,setEntry_eq_self]

end Locks

namespace GuardedWrite

variable {lockExpiry : ℤ} {rootId : ℕ} {s₀ s u : State} {tr es : List Event} {w : ℕ} {x : Write}

theorem foldl_exists_grant {column : Column} {ts : ℤ} (cells : List Cell) {r : Row}
    (h : ∃ g ∈ r.grants column, g.stamp = ts) :
    ∃ g ∈ (cells.foldl Row.setCell r).grants column, g.stamp = ts := by
  induction cells generalizing r with
  | nil => exact h
  | cons c cells ih => exact ih (exists_grant_setCell c h)

theorem replacements_store (t : Table) (entry : RowMutationEntry) :
    replacements t rootId ⊆ replacements (entry.store t) rootId := by
  rintro ts ⟨g,hg,hts⟩
  rw [replacements,Set.mem_ofPred_eq,RowMutationEntry.store]
  by_cases hk : serializeUint64 rootId false false = entry.rowKey
  · rw [hk,Function.update_self]
    exact foldl_exists_grant _ ⟨g,hk ▸ hg,hts⟩
  · rw [Function.update_of_ne hk]
    exact ⟨g,hg,hts⟩

theorem replacements_renewLock (t : BigTable.State) (op root : ℕ) (fault : Fault) :
    replacements (renewLock lockExpiry t op root fault).2.table rootId =
      replacements t.table rootId := by
  have hcall : replacements (t.call lockExpiry (rootCaller op root) (.renewLock root)).2.table
      rootId = replacements t.table rootId := by
    rw [replacements,State.call,exec_newParent]
    rfl
  cases fault with
  | before => rfl
  | none | after => exact hcall

theorem replacements_step_cases {a : Action} (hs : step lockExpiry s a = some (es,u)) :
    (∀ r, replacements u.locks.table r = replacements s.locks.table r) ∨
      ∃ w entry, .stored w entry ∈ es ∧ u.locks.table = entry.store s.locks.table := by
  cases a with
  | lock a =>
    obtain ⟨⟨les,locks⟩,hl,hsu⟩ := Option.map_eq_some_iff.mp hs
    cases hsu
    cases a with
    | tick d =>
      cases hl
      exact Or.inl fun _ => rfl
    | call i c =>
      obtain ⟨-,-,rfl⟩ := step_call hl
      refine Or.inl fun r => ?_
      change replacements (s.locks.call lockExpiry i c).2.table r = replacements s.locks.table r
      rw [replacements,replacements,State.call,exec_newParent]
  | write w rows rootIds operationId =>
    simp only [step] at hs
    split at hs
    · cases hs
      exact Or.inl fun _ => rfl
    · cases hs
  | renew w n fault =>
    obtain ⟨x,-,hs⟩ := Option.bind_eq_some_iff.mp hs
    obtain ⟨root,-,hsu⟩ := Option.map_eq_some_iff.mp hs
    cases hsu
    exact Or.inl fun r => replacements_renewLock s.locks x.operationId root fault
  | proceed w =>
    obtain ⟨x,-,hs⟩ := Option.bind_eq_some_iff.mp hs
    split at hs
    · simp only [GuardedWrite.proceed] at hs
      split at hs <;> cases hs <;> exact Or.inl fun _ => rfl
    · cases hs
  | store w n =>
    obtain ⟨x,-,hs⟩ := Option.bind_eq_some_iff.mp hs
    obtain ⟨entry,-,hsu⟩ := Option.map_eq_some_iff.mp hs
    cases hsu
    exact Or.inr ⟨w,entry,List.mem_singleton_self _,rfl⟩

/-- Whatever happens, the successors of a root keep their times. -/
theorem replacements_step {a : Action} (hs : step lockExpiry s a = some (es,u)) :
    replacements s.locks.table rootId ⊆ replacements u.locks.table rootId := by
  rcases replacements_step_cases hs with h | ⟨-,entry,-,h⟩
  · exact (h rootId).ge
  · rw [h]
    exact replacements_store _ entry

theorem replaced_step (h : Replaced s.locks.table rootId) {a : Action}
    (hs : step lockExpiry s a = some (es,u)) : Replaced u.locks.table rootId :=
  replaced_iff.mpr ((replaced_iff.mp h).mono (replacements_step hs))

theorem replacements_run {tr : List Event} (hrun : Exec (machine lockExpiry) any s tr u) :
    replacements s.locks.table rootId ⊆ replacements u.locks.table rootId :=
  hrun.induct (P := fun _ u => replacements s.locks.table rootId ⊆ replacements u.locks.table rootId)
    subset_rfl fun _ _ _ _ _ _ ih _ hs => ih.trans (replacements_step hs)

/-- The write has not started to store, and the root is still to be renewed or was refused. -/
def Blocked (rootId : ℕ) (x : Write) : Prop :=
  x.phase.remaining = [] ∧ (∀ l, x.phase ≠ .storing l) ∧
    (rootId ∈ x.pending ∨ ∃ r ∈ x.renewals, r.rootId = rootId ∧ r.result = false)

/-- The write has still to renew the root, or is yet to begin. -/
def RenewsLater (rootId : ℕ) (s : State) (w : ℕ) : Prop :=
  ∀ x, s.writes w = some x → x.phase = .renewing ∧ rootId ∈ x.pending

theorem Blocked.write (rows : List RowMutationEntry) {rootIds : Option (List ℕ)}
    {operationId : Option ℕ} (h : rootId ∈ (write rows rootIds operationId).rootIds) :
    Blocked rootId (write rows rootIds operationId) := by
  cases rootIds with
  | none => simp [GuardedWrite.write] at h
  | some roots =>
    cases operationId with
    | none => simp [GuardedWrite.write] at h
    | some op => exact ⟨rfl,by simp [GuardedWrite.write],Or.inl h⟩

theorem Blocked.renew (h : Blocked rootId x) {n root : ℕ} (hroot : x.pending[n]? = some root)
    {r : Renewal} (hid : r.rootId = root) (hr : root = rootId → r.result = false) :
    Blocked rootId { x with pending := x.pending.eraseIdx n, renewals := r :: x.renewals } := by
  refine ⟨h.1,h.2.1,?_⟩
  by_cases heq : root = rootId
  · exact Or.inr ⟨r,List.mem_cons_self,hid.trans heq,hr heq⟩
  · rcases h.2.2 with hmem | ⟨r',hr',hfalse⟩
    · obtain ⟨hn,rfl⟩ := List.getElem?_eq_some_iff.mp hroot
      refine Or.inl ?_
      have hperm : rootId ∈ x.pending[n] :: x.pending.eraseIdx n :=
        (List.getElem_cons_eraseIdx_perm hn).mem_iff.mpr hmem
      exact (List.mem_cons.mp hperm).resolve_left (Ne.symm heq)
    · exact Or.inr ⟨r',List.mem_cons_of_mem _ hr',hfalse⟩

theorem Blocked.not_all (h : Blocked rootId x) (hnil : x.pending = []) :
    x.renewals.all (·.result) = false := by
  rcases h.2.2 with hmem | ⟨r,hr,-,hfalse⟩
  · rw [hnil] at hmem
    cases hmem
  · exact List.all_eq_false.mpr ⟨r,hr,by simp [hfalse]⟩

theorem renewLock_of_replaced {t : BigTable.State} (h : Replaced t.table rootId) (op : ℕ)
    (fault : Fault) : (renewLock lockExpiry t op rootId fault).1 = false := by
  have hcall : (t.call lockExpiry (rootCaller op rootId) (.renewLock rootId)).1 = false := by
    rw [State.call,exec_of_replaced h (Or.inr (Or.inr rfl))]
  cases fault with
  | none => exact hcall
  | before | after => rfl

/-- What holds of the writes that come late: nothing of them is stored. -/
structure LockedOut (rootId : ℕ) (s₀ : State) (tr : List Event) (s : State) : Prop where
  replaced : Replaced s.locks.table rootId
  notBegun : ∀ w, s.writes w = none → s₀.writes w = none ∧ ¬ Stored tr w
  late : ∀ w, RenewsLater rootId s₀ w → ∀ x, s.writes w = some x → rootId ∈ x.rootIds →
    ¬ Stored tr w ∧ Blocked rootId x

namespace LockedOut

theorem refl (h : Replaced s₀.locks.table rootId) : LockedOut rootId s₀ [] s₀ where
  replaced := h
  notBegun w hw := ⟨hw,not_stored_of_fresh (by simp)⟩
  late w hlate x hx _ := by
    obtain ⟨hphase,hmem⟩ := hlate x hx
    refine ⟨not_stored_of_fresh (by simp),?_,?_,Or.inl hmem⟩
    · rw [hphase]
      rfl
    · simp [hphase]

theorem set (h : LockedOut rootId s₀ tr s) {locks : BigTable.State}
    (hl : Replaced locks.table rootId) (hes : ∀ e ∈ es, e.write = w)
    (hx : RenewsLater rootId s₀ w → rootId ∈ x.rootIds → ¬ Stored (tr ++ es) w ∧ Blocked rootId x) :
    LockedOut rootId s₀ (tr ++ es) ({ s with locks := locks }.set w x) where
  replaced := hl
  notBegun w' hw' := by
    have hne : w' ≠ w := by
      rintro rfl
      simp [State.set] at hw'
    simp only [State.set,Function.update_of_ne hne] at hw'
    rw [stored_append fun e he heq => hne (heq.symm.trans (hes e he))]
    exact h.notBegun w' hw'
  late w' hlate x' hx' hroot := by
    by_cases hne : w' = w
    · subst hne
      simp only [State.set,Function.update_self,Option.some.injEq] at hx'
      subst hx'
      exact hx hlate hroot
    · simp only [State.set,Function.update_of_ne hne] at hx'
      rw [stored_append fun e he heq => hne (heq.symm.trans (hes e he))]
      exact h.late w' hlate x' hx' hroot

theorem of_step (h : LockedOut rootId s₀ tr s) {a : Action}
    (hs : step lockExpiry s a = some (es,u)) : LockedOut rootId s₀ (tr ++ es) u := by
  have hsup := replaced_step h.replaced hs
  cases a with
  | lock a =>
    obtain ⟨⟨les,locks⟩,-,hsu⟩ := Option.map_eq_some_iff.mp hs
    cases hsu
    rw [List.append_nil]
    exact ⟨hsup,h.notBegun,h.late⟩
  | write w rows rootIds operationId =>
    simp only [step] at hs
    split at hs
    · rename_i hw
      cases hs
      refine h.set h.replaced (by simp) fun _ hroot => ?_
      rw [List.append_nil]
      exact ⟨(h.notBegun w hw).2,Blocked.write rows hroot⟩
    · cases hs
  | renew w n fault =>
    obtain ⟨x,hx,hs⟩ := Option.bind_eq_some_iff.mp hs
    obtain ⟨root,hroot,hsu⟩ := Option.map_eq_some_iff.mp hs
    cases hsu
    refine h.set hsup (by simp) fun hlate hmem => ?_
    obtain ⟨hstored,hblocked⟩ := h.late w hlate x hx hmem
    rw [List.append_nil]
    refine ⟨hstored,hblocked.renew hroot rfl ?_⟩
    rintro rfl
    exact renewLock_of_replaced h.replaced _ _
  | proceed w =>
    obtain ⟨x,hx,hs⟩ := Option.bind_eq_some_iff.mp hs
    split at hs
    · rename_i hp
      simp only [GuardedWrite.proceed] at hs
      split at hs
      · rename_i hall
        cases hs
        refine h.set h.replaced (by simp) fun hlate hmem => ?_
        obtain ⟨-,hblocked⟩ := h.late w hlate x hx hmem
        rw [hblocked.not_all hp.2] at hall
        cases hall
      · cases hs
        refine h.set h.replaced (by simp [Event.write]) fun hlate hmem => ?_
        obtain ⟨hstored,hblocked⟩ := h.late w hlate x hx hmem
        refine ⟨?_,rfl,by simp,hblocked.2.2⟩
        rintro ⟨entry,hm⟩
        exact hstored ⟨entry,by simpa using hm⟩
    · cases hs
  | store w n =>
    obtain ⟨x,hx,hs⟩ := Option.bind_eq_some_iff.mp hs
    obtain ⟨entry,hentry,hsu⟩ := Option.map_eq_some_iff.mp hs
    cases hsu
    refine h.set hsup (by simp [Event.write]) fun hlate hmem => ?_
    obtain ⟨-,hblocked⟩ := h.late w hlate x hx hmem
    rw [hblocked.1] at hentry
    cases hentry

end LockedOut

/-- From the moment a root is replaced it stays so in every run: no call takes or extends its lock,
and a write of it that has still to renew it, or is yet to begin, stores nothing. -/
theorem replaced_lockedOut (lockExpiry : ℤ) {rootId : ℕ} {s₀ s : State} {tr : List Event}
    (hsup : Replaced s₀.locks.table rootId)
    (hrun : Exec (machine lockExpiry) any s₀ tr s) :
    Replaced s.locks.table rootId ∧
    (∀ i c, LocksRoot rootId c → s.locks.call lockExpiry i c = (false,s.locks)) ∧
    ∀ w, RenewsLater rootId s₀ w → ∀ x, s.writes w = some x → rootId ∈ x.rootIds →
      ¬ Stored tr w ∧ (x.pending = [] → x.phase = .renewing → ∃ u,
        step lockExpiry s (.proceed w) = some ([.lockingError w],u) ∧ u.locks = s.locks) := by
  have h := hrun.induct (P := LockedOut rootId s₀) (LockedOut.refl hsup)
    fun _ _ _ _ _ _ hl _ hs => hl.of_step hs
  refine ⟨h.replaced,fun i _ hc => call_of_replaced h.replaced i hc,fun w hlate x hx hmem => ?_⟩
  obtain ⟨hstored,hblocked⟩ := h.late w hlate x hx hmem
  refine ⟨hstored,fun hnil hphase => ⟨s.set w { x with phase := .raised },?_,rfl⟩⟩
  have hproceed : GuardedWrite.proceed s w x = _ := if_neg (by simp [hblocked.not_all hnil])
  simp [step,hx,hphase,hnil,hproceed]

def oneReplaced : State :=
  ⟨{ BigTable.start with table := entry.store BigTable.start.table },fun _ => none⟩

theorem replaced_lockedOut_write :
    ∃ tr s x, s.writes 0 = some x ∧ x.rootIds = [7] ∧ ¬ Stored tr 0 ∧
      (∃ u, step threeMinutes s (.proceed 0) = some ([.lockingError 0],u)) ∧
      Exec (machine threeMinutes) any oneReplaced tr s := by
  obtain ⟨tr,s,hrun,hx⟩ := exists_exec (machine threeMinutes) any (s := oneReplaced)
    (P := fun _ s => (s.writes 0).map (fun x => (x.rootIds,x.pending,x.phase)) =
      some ([7],[],.renewing))
    [.lock (.call (rootCaller 1 7) (.lockRoot 7)),.write 0 [entry] (some [7]) (some 1),
      .renew 0 0 .none] (by decide +kernel)
  obtain ⟨x,hx,hfields⟩ := Option.map_eq_some_iff.mp hx
  obtain ⟨hroots,hpending,hphase⟩ : x.rootIds = [7] ∧ x.pending = [] ∧ x.phase = .renewing := by
    simpa using hfields
  have hsup : Replaced oneReplaced.locks.table 7 :=
    ⟨_,⟨Hierarchy.newParent,0,[]⟩,by decide +kernel,rfl,rfl⟩
  obtain ⟨hstored,hraises⟩ := (replaced_lockedOut threeMinutes hsup hrun).2.2 0
    (fun y hy => by cases hy) x hx (by simp [hroots])
  obtain ⟨u,hu,-⟩ := hraises hpending hphase
  exact ⟨tr,s,x,hx,hroots,hstored,⟨u,hu⟩,hrun⟩

end GuardedWrite
end BigTable
end KvdbClient
