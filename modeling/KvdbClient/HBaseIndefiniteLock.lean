import KvdbClient.HBaseSingleOwner
import KvdbClient.IndefiniteLock

/-! Crash safety of the indefinite lock on HBase, where a guarded acquire takes the temporal cell,
then looks at the indefinite column and rolls back. -/
namespace KvdbClient

open Lease Transition

namespace HBase

def indefiniteVersions (t : Table) (k : Bytes) : Versions := t k Concurrency.indefiniteLock.toColumn

/-- The column is not empty, and all its versions carry the operation. -/
def Owned (vs : Versions) (op : ℕ) : Prop :=
  vs.list ≠ [] ∧ ∀ v ∈ vs.list, v.value = uint64String op

theorem Owned.unique {vs : Versions} {o p : ℕ} (ho : Owned vs o) (hp : Owned vs p) : o = p := by
  obtain ⟨v,hv⟩ := List.exists_mem_of_ne_nil _ ho.1
  exact uint64String_injective ((ho.2 v hv).symm.trans (hp.2 v hv))

/-- No request but an indefinite release of the owner changes an owned indefinite column. -/
theorem serve_keeps_indefinite {t : Table} {k : Bytes} {op : ℕ}
    (hown : Owned (indefiniteVersions t k) op) (now : ℤ) (k' : Bytes) (op' : ℕ) (st : Stage)
    (h : ¬ (k' = k ∧ op' = op ∧ st = .release Concurrency.indefiniteLock.toColumn)) :
    indefiniteVersions (serve now t (st.request k' op')).2 k = indefiniteVersions t k := by
  have hlock : ∀ vs, indefiniteVersions (t.set k' Concurrency.lock.toColumn vs) k =
      indefiniteVersions t k := fun vs =>
    Table.set_of_ne fun hc => lock_ne_indefiniteLock hc.2.symm
  cases st with
  | acquirePut ts =>
    rcases serve_putAbsent now t k' Concurrency.lock.toColumn (uint64String op') ts with
      ⟨he,-⟩ | ⟨he,-⟩
    · simp only [Stage.request,he]
    · simp only [Stage.request,he,hlock]
  | acquireRead | readIndefinite _ => rfl
  | acquireDelete | rollbackDelete => exact hlock _
  | putIndefinite ts =>
    rcases serve_putAbsent now t k' Concurrency.indefiniteLock.toColumn (uint64String op') ts with
      ⟨he,-⟩ | ⟨he,hnil⟩
    · simp only [Stage.request,he]
    · simp only [Stage.request,he]
      refine Table.set_of_ne fun hc => hown.1 ?_
      rw [← hc.1] at hnil
      exact hnil
  | release col =>
    rcases serve_checkAndDelete now t k' col (uint64String op') with ⟨he,-⟩ | ⟨he,n,hn,hv⟩
    · simp only [Stage.request,he]
    · simp only [Stage.request,he]
      refine Table.set_of_ne fun hc => h ?_
      obtain ⟨rfl,rfl⟩ := hc
      have hop := hown.2 n (List.mem_of_head? hn)
      exact ⟨rfl,uint64String_injective (hv.symm.trans hop),rfl⟩
  | renew =>
    rcases serve_putOwn now t k' Concurrency.lock.toColumn (uint64String op') with ⟨he,-⟩ | ⟨he,-⟩
    · simp only [Stage.request,he]
    · simp only [Stage.request,he,hlock]

def Stage.acquiring : Stage → Bool
  | .acquirePut _ | .acquireRead | .acquireDelete | .readIndefinite _ | .rollbackDelete => true
  | .putIndefinite _ | .release _ | .renew => false

def Fits (c : LockCall) (st : Stage) : Prop :=
  (st.acquiring = true ↔ c.role = .acquire) ∧
    (c.role = .acquireIndefinite → ∃ ts, st = .putIndefinite ts)

theorem fits_firstRequest (now : ℤ) (c : LockCall) : Fits c (firstRequest now c) := by
  cases c <;> simp [Fits,firstRequest,acquireLockCell,Stage.acquiring,LockCall.role]

theorem acquiring_of_send {lockExpiry now : ℤ} {c : LockCall} {r : Response} {st st' : Stage}
    (h : next lockExpiry now c r st = .send st') : st.acquiring = true ∧ st'.acquiring = true := by
  cases st <;> simp only [next] at h <;> grind [acquired,acquireLockCell,Stage.acquiring]

theorem Fits.send {lockExpiry now : ℤ} {c : LockCall} {r : Response} {st st' : Stage}
    (h : Fits c st) (hn : next lockExpiry now c r st = .send st') : Fits c st' := by
  obtain ⟨ha,ha'⟩ := acquiring_of_send hn
  have hrole := h.1.mp ha
  exact ⟨⟨fun _ => hrole,fun _ => ha'⟩,fun hc => by rw [hrole] at hc; cases hc⟩

theorem Fits.put_of_ret {lockExpiry now : ℤ} {c : LockCall} {r : Response} {st : Stage}
    (h : Fits c st) (hc : c.role = .acquireIndefinite)
    (hn : next lockExpiry now c r st = .ret true) :
    ∃ ts, st = .putIndefinite ts ∧ r.success = true := by
  obtain ⟨ts,rfl⟩ := h.2 hc
  exact ⟨ts,rfl,by simpa [next] using hn⟩

theorem Fits.read_of_ret {lockExpiry now : ℤ} {c : LockCall} {r : Response} {st : Stage}
    (h : Fits c st) (hc : c.guarded = true) (hn : next lockExpiry now c r st = .ret true) :
    ∃ ts, st = .readIndefinite ts ∧ r.cells = [] := by
  have ha := h.1.mpr (LockCall.role_of_guarded hc)
  cases st with
  | acquirePut ts =>
    simp only [next,acquired,hc,if_true] at hn
    split at hn <;> cases hn
  | acquireRead =>
    simp only [next] at hn
    split at hn <;> (try split at hn) <;> cases hn
  | readIndefinite ts =>
    simp only [next] at hn
    split at hn
    · rename_i hr
      exact ⟨ts,rfl,List.isEmpty_iff.mp hr⟩
    · cases hn
  | acquireDelete | rollbackDelete => cases hn
  | putIndefinite _ | release _ | renew => cases ha

/-- Calls fit their stages, and a put that was answered `True` owns its column. -/
structure PutsOwn (s : State) : Prop where
  thread : ∀ i, s.pc i ≠ .idle → i.thread = 0
  fits_waiting : ∀ i c st, s.pc i = .waiting c st → Fits c st
  fits_answered : ∀ i c st r, s.pc i = .answered c st r → Fits c st
  owned : ∀ i c ts r, s.pc i = .answered c (.putIndefinite ts) r → r.success = true →
    Owned (indefiniteVersions s.table i.rowKey) i.operationId

section Steps

variable {lockExpiry : ℤ} {s u : State} {es : List LockEvent}

theorem caller_eq {i j : Caller} (hi : i.thread = 0) (hj : j.thread = 0)
    (hop : i.operationId = j.operationId) (hk : i.rowKey = j.rowKey) : i = j := by
  cases i
  cases j
  simp_all

theorem PutsOwn.of_init (h : (machine lockExpiry).init s) : PutsOwn s where
  thread i hi := absurd (h.2.1 i) hi
  fits_waiting i c st hpc := by simp [h.2.1 i] at hpc
  fits_answered i c st r hpc := by simp [h.2.1 i] at hpc
  owned i c ts r hpc := by simp [h.2.1 i] at hpc

/-- A served indefinite put succeeds on an empty column, and then owns it. -/
theorem owned_of_put {i : Caller} {c : LockCall} {ts : ℤ}
    (hr : (serve s.now s.table ((Stage.putIndefinite ts).request i.rowKey i.operationId)).1.success =
      true) :
    (indefiniteVersions s.table i.rowKey).list = [] ∧
    Owned (indefiniteVersions (serveCall s i c (.putIndefinite ts)).2.table i.rowKey)
      i.operationId := by
  rcases serve_putAbsent s.now s.table i.rowKey Concurrency.indefiniteLock.toColumn
    (uint64String i.operationId) ts with ⟨he,-⟩ | ⟨he,hnil⟩
  · simp [Stage.request,he] at hr
  · refine ⟨hnil,?_⟩
    have hlist : (s.table i.rowKey Concurrency.indefiniteLock.toColumn).insertCell
        ⟨uint64String i.operationId,ts⟩ =
        indefiniteVersions (serveCall s i c (.putIndefinite ts)).2.table i.rowKey := by
      simp [serveCall,Stage.request,he,indefiniteVersions]
    rw [← hlist]
    refine ⟨List.ne_nil_of_mem (Versions.mem_insertCell.mpr (Or.inl rfl)),fun v hv => ?_⟩
    rcases Versions.mem_insertCell.mp hv with rfl | hv
    · rfl
    · simp [hnil] at hv

theorem PutsOwn.setPc (h : PutsOwn s) {j : Caller} {p : Pc} {u : State}
    (hpc : u.pc = Function.update s.pc j p)
    (hcol : ∀ i c ts r, s.pc i = .answered c (.putIndefinite ts) r → r.success = true → i ≠ j →
      indefiniteVersions u.table i.rowKey = indefiniteVersions s.table i.rowKey)
    (hthread : p ≠ .idle → j.thread = 0) (hw : ∀ c st, p = .waiting c st → Fits c st)
    (ha : ∀ c st r, p = .answered c st r → Fits c st)
    (ho : ∀ c ts r, p = .answered c (.putIndefinite ts) r → r.success = true →
      Owned (indefiniteVersions u.table j.rowKey) j.operationId) : PutsOwn u where
  thread i hi := by
    by_cases hij : i = j
    · subst hij
      exact hthread (by simpa [hpc] using hi)
    · exact h.thread i (by simpa [hpc,hij] using hi)
  fits_waiting i c st hi := by
    by_cases hij : i = j
    · subst hij
      exact hw c st (by simpa [hpc] using hi)
    · exact h.fits_waiting i c st (by simpa [hpc,hij] using hi)
  fits_answered i c st r hi := by
    by_cases hij : i = j
    · subst hij
      exact ha c st r (by simpa [hpc] using hi)
    · exact h.fits_answered i c st r (by simpa [hpc,hij] using hi)
  owned i c ts r hi hr := by
    by_cases hij : i = j
    · subst hij
      exact ho c ts r (by simpa [hpc] using hi) hr
    · have hs : s.pc i = .answered c (.putIndefinite ts) r := by simpa [hpc,hij] using hi
      rw [hcol i c ts r hs hr hij]
      exact h.owned i c ts r hs hr

theorem PutsOwn.of_step (h : PutsOwn s) {a : Action} (hok : sequential s a)
    (hs : step lockExpiry s a = some (es,u)) : PutsOwn u := by
  rcases step_cases hs with ⟨d,-,-,rfl⟩ | ⟨j,c,rfl,-,-,-,rfl⟩ | ⟨j,c,st,rfl,hpc,-,rfl⟩ |
    ⟨j,c,st,r,rfl,hpc,-,rfl⟩
  · exact ⟨h.thread,h.fits_waiting,h.fits_answered,h.owned⟩
  · refine h.setPc rfl (fun _ _ _ _ _ _ _ => rfl) (fun _ => hok) (fun c' st' heq => ?_)
      (by simp) (by simp)
    cases heq
    exact fits_firstRequest s.now c
  · have hj := h.thread j (by simp [hpc])
    refine h.setPc rfl (fun i c' ts r hi hr hij => ?_) (fun _ => hj) (by simp)
      (fun c' st' r heq => ?_) (fun c' ts r heq hr => ?_)
    · -- Another caller owns the column, so this one cannot release it.
      have hi0 := h.thread i (by simp [hi])
      exact serve_keeps_indefinite (h.owned i c' ts r hi hr) s.now j.rowKey j.operationId st
        fun hc => hij (caller_eq hi0 hj hc.2.1.symm hc.1.symm)
    · cases heq
      exact h.fits_waiting j c st hpc
    · cases heq
      exact (owned_of_put hr).2
  · have hj := h.thread j (by simp [hpc])
    have hfits := h.fits_answered j c st r hpc
    unfold resumeCall
    split
    · rename_i st' hn
      refine h.setPc rfl (fun _ _ _ _ _ _ _ => rfl) (fun _ => hj) (fun c' st'' heq => ?_)
        (by simp) (by simp)
      cases heq
      exact hfits.send hn
    · exact h.setPc rfl (fun _ _ _ _ _ _ _ => rfl) (by simp) (by simp) (by simp) (by simp)

theorem PutsOwn.of_reachable (h : Reachable (machine lockExpiry) sequential s) : PutsOwn s :=
  Reachable.invariant h (fun _ => of_init) fun _ _ _ _ hi hok hs => hi.of_step hok hs

end Steps

theorem pair_sublist_append {α : Type} {a b : α} {l m : List α} :
    [a,b].Sublist (l ++ m) → [a,b].Sublist l ∨ a ∈ l ∧ b ∈ m ∨ [a,b].Sublist m := by
  intro h
  obtain ⟨l₁,l₂,heq,h₁,h₂⟩ := List.sublist_append_iff.mp h
  match l₁, l₂, heq with
  | [], _, rfl => exact Or.inr (Or.inr h₂)
  | [_], [_], rfl => exact Or.inr (Or.inl ⟨List.singleton_sublist.mp h₁,List.singleton_sublist.mp h₂⟩)
  | [_,_], [], rfl => exact Or.inl h₁

/-- What holds of a row since the indefinite acquire of `i` returned `True`, as long as its
operation has not released it. -/
structure Since (i : Caller) (vs : Versions) (tr : List LockEvent) (t : State) : Prop where
  column : indefiniteVersions t.table i.rowKey = vs
  puts : ∀ j c ts r, j.rowKey = i.rowKey → t.pc j = .answered c (.putIndefinite ts) r →
    r.success = false
  fresh : ∀ j c ts r, j.rowKey = i.rowKey → t.pc j = .answered c (.readIndefinite ts) r →
    r.cells = [] → ∀ c', .call j c' ∉ tr
  rets : ∀ j c, j.rowKey = i.rowKey → c.role = .acquireIndefinite → .ret j c true ∉ tr
  guarded : ∀ j c, j.rowKey = i.rowKey → c.guarded = true →
    ¬ [.call j c,.ret j c true].Sublist tr

namespace Since

variable {lockExpiry : ℤ} {i j : Caller} {vs : Versions} {tr es : List LockEvent} {t u : State}

theorem extend (h : Since i vs tr t) (hcol : indefiniteVersions u.table i.rowKey = vs)
    {p : Pc} (hpc : u.pc = Function.update t.pc j p)
    (hput : ∀ c ts r, j.rowKey = i.rowKey → p = .answered c (.putIndefinite ts) r →
      r.success = false)
    (hread : ∀ c ts r, j.rowKey = i.rowKey → p = .answered c (.readIndefinite ts) r → r.cells ≠ [])
    (hcall : ∀ l c, .call l c ∈ es → l = j)
    (hret : ∀ l c, l.rowKey = i.rowKey → .ret l c true ∈ es →
      c.role ≠ .acquireIndefinite ∧ (c.guarded = true → ∀ c', .call l c' ∉ tr))
    (hpair : ∀ l c, ¬ [.call l c,.ret l c true].Sublist es) : Since i vs (tr ++ es) u where
  column := hcol
  puts l c ts r hl hp := by
    by_cases hlj : l = j
    · subst hlj
      exact hput c ts r hl (by simpa [hpc] using hp)
    · exact h.puts l c ts r hl (by simpa [hpc,hlj] using hp)
  fresh l c ts r hl hp hnil c' hm := by
    by_cases hlj : l = j
    · subst hlj
      exact hread c ts r hl (by simpa [hpc] using hp) hnil
    · rcases List.mem_append.mp hm with hm | hm
      · exact h.fresh l c ts r hl (by simpa [hpc,hlj] using hp) hnil c' hm
      · exact hlj (hcall l c' hm)
  rets l c hl hc hm := by
    rcases List.mem_append.mp hm with hm | hm
    · exact h.rets l c hl hc hm
    · exact (hret l c hl hm).1 hc
  guarded l c hl hc hsub := by
    rcases pair_sublist_append hsub with hsub | ⟨hm,hm'⟩ | hsub
    · exact h.guarded l c hl hc hsub
    · exact (hret l c hl hm').2 hc c hm
    · exact hpair l c hsub

theorem serveCall (h : Since i vs tr t) (hown : Owned vs i.operationId) {c : LockCall} {st : Stage}
    (hno : Unreleased i.operationId i.rowKey (serveCall t j c st).1) :
    Since i vs (tr ++ (HBase.serveCall t j c st).1) (HBase.serveCall t j c st).2 := by
  have hown' : Owned (indefiniteVersions t.table i.rowKey) i.operationId := h.column ▸ hown
  have hevents : ∀ e ∈ (HBase.serveCall t j c st).1, ∃ col, e = .released j col := by
    intro e he
    simp only [HBase.serveCall,servedEvents] at he
    split at he
    · exact ⟨_,List.mem_singleton.mp he⟩
    · simp at he
  refine h.extend ?_ rfl ?_ ?_ (fun l c' hm => ?_) (fun l c' _ hm => ?_) (fun l c' hsub => ?_)
  · by_cases hrel : j.rowKey = i.rowKey ∧ j.operationId = i.operationId ∧
        st = .release Concurrency.indefiniteLock.toColumn
    · obtain ⟨hk,hop,rfl⟩ := hrel
      rcases serve_checkAndDelete t.now t.table j.rowKey Concurrency.indefiniteLock.toColumn
        (uint64String j.operationId) with ⟨he,-⟩ | ⟨he,-⟩
      · simpa [HBase.serveCall,Stage.request,he] using h.column
      · exact absurd (by simp [HBase.serveCall,Stage.request,he,servedEvents]) (hno j hop hk)
    · exact (serve_keeps_indefinite hown' t.now j.rowKey j.operationId st hrel).trans h.column
  · intro c' ts r hk heq
    cases heq
    by_contra hr
    refine hown.1 ?_
    have hnil := (owned_of_put (c := c) ((Bool.not_eq_false _).mp hr)).1
    rw [hk,h.column] at hnil
    exact hnil
  · intro c' ts r hk heq
    cases heq
    have hcells : indefiniteVersions t.table j.rowKey = vs := by rw [hk,h.column]
    simp only [Stage.request,serve]
    rw [show t.table j.rowKey Concurrency.indefiniteLock.toColumn = vs from hcells]
    exact hown.1
  · obtain ⟨col,heq⟩ := hevents _ hm
    cases heq
  · obtain ⟨col,heq⟩ := hevents _ hm
    cases heq
  · obtain ⟨col,heq⟩ := hevents _ (hsub.subset (List.mem_cons_self))
    cases heq

theorem resumeCall (h : Since i vs tr t) {c : LockCall} {st : Stage} {r : Response}
    (hpc : t.pc j = .answered c st r) (hfits : Fits c st) :
    Since i vs (tr ++ (resumeCall lockExpiry t j c st r).1) (resumeCall lockExpiry t j c st r).2 := by
  cases hn : next lockExpiry t.now c r st with
  | send st' =>
    simp only [HBase.resumeCall,hn]
    exact h.extend h.column rfl (by simp) (by simp) (by simp) (by simp) (by simp)
  | ret b =>
    simp only [HBase.resumeCall,hn]
    refine h.extend h.column rfl (by simp) (by simp) (by simp) (fun l c' hl hm => ?_)
      (fun l c' hsub => by simpa using hsub.length_le)
    have hm := List.mem_singleton.mp hm
    cases hm
    constructor
    · intro hc
      obtain ⟨ts,rfl,hr⟩ := hfits.put_of_ret hc hn
      rw [h.puts j c ts r hl hpc] at hr
      cases hr
    · intro hc
      obtain ⟨ts,rfl,hnil⟩ := hfits.read_of_ret hc hn
      exact h.fresh j c ts r hl hpc hnil

theorem of_step (h : Since i vs tr t) (hown : Owned vs i.operationId) (hp : PutsOwn t) {a : Action}
    (hs : step lockExpiry t a = some (es,u)) (hno : Unreleased i.operationId i.rowKey es) :
    Since i vs (tr ++ es) u := by
  rcases step_cases hs with ⟨d,-,rfl,rfl⟩ | ⟨j,c,-,-,-,rfl,rfl⟩ | ⟨j,c,st,-,hpc,rfl,rfl⟩ |
    ⟨j,c,st,r,-,hpc,rfl,rfl⟩
  · rw [List.append_nil]
    exact ⟨h.column,h.puts,h.fresh,h.rets,h.guarded⟩
  · exact h.extend h.column rfl (by simp) (by simp) (by simp) (by simp)
      (fun l c' hsub => by simpa using hsub.length_le)
  · exact h.serveCall hown hno
  · exact h.resumeCall hpc (hp.fits_answered j c st r hpc)

end Since

theorem since_of_acquired {lockExpiry : ℤ} {s s₁ : State} {a : Action} {es : List LockEvent}
    {i : Caller} {c : LockCall} (hp : PutsOwn s) (hs : step lockExpiry s a = some (es,s₁))
    (hc : c.role = .acquireIndefinite) (hret : .ret i c true ∈ es) :
    Owned (indefiniteVersions s₁.table i.rowKey) i.operationId ∧
      Since i (indefiniteVersions s₁.table i.rowKey) [] s₁ := by
  rcases step_cases hs with ⟨d,-,rfl,-⟩ | ⟨j,c',-,-,-,rfl,-⟩ | ⟨j,c',st,-,hpc,rfl,-⟩ |
    ⟨j,c',st,r,-,hpc,rfl,rfl⟩
  · simp at hret
  · simp at hret
  · simp only [serveCall,servedEvents] at hret
    split at hret <;> simp at hret
  · have hfits := hp.fits_answered j c' st r hpc
    cases hn : next lockExpiry s.now c' r st with
    | send st' => simp [resumeCall,hn] at hret
    | ret b =>
      simp only [resumeCall,hn,List.mem_singleton] at hret
      cases hret
      obtain ⟨ts,rfl,hr⟩ := hfits.put_of_ret hc hn
      have hown := hp.owned i c ts r hpc hr
      refine ⟨by simpa [indefiniteVersions] using hown,rfl,?_,by simp,by simp,by simp⟩
      intro j c' ts' r' hj hpc'
      by_cases hji : j = i
      · subst hji
        simp [resumeCall,hn] at hpc'
      · rw [resumeCall_pc_of_ne hji] at hpc'
        by_contra hr'
        have hown' := hp.owned j c' ts' r' hpc' ((Bool.not_eq_false _).mp hr')
        rw [hj] at hown'
        exact hji (caller_eq (hp.thread j (by simp [hpc'])) (hp.thread i (by simp [hpc]))
          (hown'.unique hown) hj)

theorem crashSafe (lockExpiry : ℤ) : CrashSafe (machine lockExpiry) sequential
    fun s k => (indefiniteVersions s.table k).grants := by
  intro s a es s₁ i c hreach hok hs hc hret tr t hrun hno
  obtain ⟨hown,hsince⟩ := since_of_acquired (PutsOwn.of_reachable hreach) hs hc hret
  have hrun' := hrun.induct (P := fun tr t => Unreleased i.operationId i.rowKey tr →
    Since i (indefiniteVersions s₁.table i.rowKey) tr t) (fun _ => hsince)
    fun tr t a es u hrun ih _ hs hno => (ih hno.left).of_step hown
      (PutsOwn.of_reachable ((hreach.step hok ‹_›).extend hrun)) hs hno.right
  obtain ⟨hcol,-,-,hrets,hguarded⟩ := hrun' hno
  obtain ⟨v,hv⟩ := List.exists_mem_of_ne_nil _ hown.1
  exact ⟨hrets,hguarded,congrArg Versions.grants hcol,_,⟨v,hv,rfl⟩,hown.2 v hv⟩

end HBase

/-- On both backends an indefinite lock survives everything but its own release; on HBase for
operations that make their calls on a row one after the other. -/
theorem indefiniteLock_crashSafe (lockExpiry : ℤ) :
    CrashSafe (BigTable.machine lockExpiry) any
      (fun s k => BigTable.indefiniteGrants (s.table k)) ∧
    CrashSafe (HBase.machine lockExpiry) HBase.sequential
      fun s k => (HBase.indefiniteVersions s.table k).grants :=
  ⟨BigTable.crashSafe lockExpiry,HBase.crashSafe lockExpiry⟩

end KvdbClient
