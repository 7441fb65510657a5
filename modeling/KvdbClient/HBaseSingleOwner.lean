import KvdbClient.HBaseLocks

/-! Each lock column of an HBase row has a single owner in every run of the lock requests. -/
namespace KvdbClient
namespace HBase

open Lease Transition

def LockColumn (col : Column) : Prop :=
  col = Concurrency.lock.toColumn ∨ col = Concurrency.indefiniteLock.toColumn

/-- All versions in a lock column carry one operation id. -/
def SingleOwner (t : Table) : Prop := ∀ k col, LockColumn col → SoleOwner (t k col).grants

namespace SingleOwner

variable {t : Table}

theorem set (h : SingleOwner t) {k : Bytes} {col : Column} {vs : Versions}
    (hv : LockColumn col → SoleOwner vs.grants) :
    SingleOwner (t.set k col vs) := by
  intro r c hc
  by_cases hrc : r = k ∧ c = col
  · obtain ⟨rfl,rfl⟩ := hrc
    simpa using hv hc
  · simpa only [Table.set_of_ne hrc] using h r c hc

theorem set_empty (h : SingleOwner t) (k : Bytes) (col : Column) :
    SingleOwner (t.set k col .empty) :=
  h.set fun _ => by simpa using soleOwner_empty

theorem putAbsent (h : SingleOwner t) (now : ℤ) (k : Bytes) (col : Column) (v : Bytes) (ts : ℤ) :
    SingleOwner (serve now t (.checkAndPut k col none col v (some ts))).2 := by
  rcases serve_putAbsent now t k col v ts with ⟨he,-⟩ | ⟨he,hnil⟩
  · rwa [he]
  · rw [he]
    refine h.set fun _ => ?_
    rw [Versions.grants_insertCell,Versions.grants_eq_empty hnil]
    simpa using soleOwner_singleton _

theorem putOwn (h : SingleOwner t) (now : ℤ) (k : Bytes) (col : Column) (v : Bytes) :
    SingleOwner (serve now t (.checkAndPut k col (some v) col v none)).2 := by
  rcases serve_putOwn now t k col v with ⟨he,-⟩ | ⟨he,n,hn,hv⟩
  · rwa [he]
  · rw [he]
    refine h.set fun hc => ?_
    rw [Versions.grants_insertCell]
    exact (h k col hc).insert (Versions.newest_mem hn) hv.symm

theorem checkAndDelete (h : SingleOwner t) (now : ℤ) (k : Bytes) (col : Column) (v : Bytes) :
    SingleOwner (serve now t (.checkAndDelete k col v)).2 := by
  rcases serve_checkAndDelete now t k col v with ⟨he,-⟩ | ⟨he,-⟩
  · rwa [he]
  · rw [he]
    exact h.set_empty k col

theorem request (h : SingleOwner t) (now : ℤ) (k : Bytes) (op : ℕ) (st : Stage) :
    SingleOwner (serve now t (st.request k op)).2 := by
  cases st with
  | acquirePut ts => exact h.putAbsent now k _ _ ts
  | putIndefinite ts => exact h.putAbsent now k _ _ ts
  | acquireRead | readIndefinite _ => exact h
  | acquireDelete | rollbackDelete => exact h.set_empty k _
  | release col => exact h.checkAndDelete now k col _
  | renew => exact h.putOwn now k _ _

end SingleOwner

section Steps

variable {lockExpiry : ℤ} {s u : State} {es : List LockEvent}

@[simp] theorem State.setPc_table (s : State) (i : Caller) (p : Pc) : (s.setPc i p).table = s.table :=
  rfl

@[simp] theorem State.setHold_table (s : State) (i : Caller) (h : Option ℤ → Option ℤ) :
    (s.setHold i h).table = s.table := rfl

@[simp] theorem resumeCall_table (i : Caller) (c : LockCall) (st : Stage) (r : Response) :
    (resumeCall lockExpiry s i c st r).2.table = s.table := by
  unfold resumeCall
  split <;> rfl

/-- What a step does, by kind: the clock moves, a call starts, its pending request is served, or
it looks at a response. -/
theorem step_cases {a : Action} (hs : step lockExpiry s a = some (es,u)) :
    (∃ d : ℕ, a = .tick d ∧ es = [] ∧ u = { s with now := s.now + d }) ∨
    (∃ i c, a = .start i c ∧ s.pc i = .idle ∧ c.rowKey = i.rowKey ∧ es = [.call i c] ∧
      u = s.setPc i (.waiting c (firstRequest s.now c))) ∨
    (∃ i c st, a = .serve i ∧ s.pc i = .waiting c st ∧ es = (serveCall s i c st).1 ∧
      u = (serveCall s i c st).2) ∨
    ∃ i c st r, a = .resume i ∧ s.pc i = .answered c st r ∧
      es = (resumeCall lockExpiry s i c st r).1 ∧ u = (resumeCall lockExpiry s i c st r).2 := by
  cases a with
  | tick d =>
    cases hs
    exact Or.inl ⟨d,rfl,rfl,rfl⟩
  | start i c =>
    simp only [step] at hs
    split at hs
    · rename_i h
      cases hs
      exact Or.inr (Or.inl ⟨i,c,rfl,h.1,h.2,rfl,rfl⟩)
    · exact absurd hs (by simp)
  | serve i =>
    simp only [step] at hs
    split at hs
    · rename_i c st h
      have hsu := Option.some.inj hs
      exact Or.inr (Or.inr (Or.inl ⟨i,c,st,rfl,h,congrArg Prod.fst hsu.symm,
        congrArg Prod.snd hsu.symm⟩))
    · exact absurd hs (by simp)
  | resume i =>
    simp only [step] at hs
    split at hs
    · rename_i c st r h
      have hsu := Option.some.inj hs
      exact Or.inr (Or.inr (Or.inr ⟨i,c,st,r,rfl,h,congrArg Prod.fst hsu.symm,
        congrArg Prod.snd hsu.symm⟩))
    · exact absurd hs (by simp)

theorem singleOwner_of_step (h : SingleOwner s.table) {a : Action}
    (hs : step lockExpiry s a = some (es,u)) : SingleOwner u.table := by
  rcases step_cases hs with ⟨d,-,-,rfl⟩ | ⟨i,c,-,-,-,-,rfl⟩ | ⟨i,c,st,-,-,-,rfl⟩ |
    ⟨i,c,st,r,-,-,-,rfl⟩
  · exact h
  · exact h
  · exact h.request s.now i.rowKey i.operationId st
  · simpa using h

theorem singleOwner_of_init (h : (machine lockExpiry).init s) : SingleOwner s.table := by
  rintro k col (rfl | rfl)
  · simpa only [Versions.grants_eq_empty (h.1 k).1] using soleOwner_empty
  · simpa only [Versions.grants_eq_empty (h.1 k).2] using soleOwner_empty

theorem singleOwner_of_reachable {ok : State → Action → Prop}
    (h : Reachable (machine lockExpiry) ok s) : SingleOwner s.table :=
  Reachable.invariant (P := fun s => SingleOwner s.table) h (fun _ => singleOwner_of_init)
    fun _ _ _ _ hi _ hs => singleOwner_of_step hi hs

def Action.caller : Action → Option Caller
  | .tick _ => none
  | .start i _ | .serve i | .resume i => some i

@[simp] theorem State.setPc_pc_self (s : State) (i : Caller) (p : Pc) : (s.setPc i p).pc i = p :=
  Function.update_self ..

theorem State.setPc_pc_of_ne {s : State} {i j : Caller} {p : Pc} (h : j ≠ i) :
    (s.setPc i p).pc j = s.pc j :=
  Function.update_of_ne h ..

theorem resumeCall_pc_of_ne {i j : Caller} {c : LockCall} {st : Stage} {r : Response}
    (h : j ≠ i) : (resumeCall lockExpiry s i c st r).2.pc j = s.pc j := by
  unfold resumeCall
  split <;> exact State.setPc_pc_of_ne h

theorem step_pc_of_ne {a : Action} (hs : step lockExpiry s a = some (es,u)) {j : Caller}
    (h : a.caller ≠ some j) : u.pc j = s.pc j := by
  rcases step_cases hs with ⟨d,rfl,-,rfl⟩ | ⟨i,c,rfl,-,-,-,rfl⟩ | ⟨i,c,st,rfl,-,-,rfl⟩ |
    ⟨i,c,st,r,rfl,-,-,rfl⟩
  · rfl
  · exact State.setPc_pc_of_ne fun hj => h (by rw [hj]; rfl)
  · exact State.setPc_pc_of_ne fun hj => h (by rw [hj]; rfl)
  · exact resumeCall_pc_of_ne fun hj => h (by rw [hj]; rfl)

theorem answered_until_ret {u t : State} {tr : List LockEvent} {i : Caller} {c : LockCall}
    {st : Stage} {r : Response} (hst : ∀ now, next lockExpiry now c r st = .ret r.success)
    (hu : u.pc i = .answered c st r) (hrun : Exec (machine lockExpiry) any u tr t)
    (hno : ∀ b, .ret i c b ∉ tr) :
    t.pc i = .answered c st r := by
  refine hrun.induct (P := fun tr t => (∀ b, .ret i c b ∉ tr) → t.pc i = .answered c st r)
    (fun _ => hu) ?_ hno
  intro tr t a es v hrun ih _ hs hno
  have hpc := ih fun b hm => hno b (List.mem_append_left _ hm)
  by_cases ha : a.caller = some i
  · rcases step_cases hs with ⟨d,rfl,-,rfl⟩ | ⟨j,c',rfl,hidle,-,-,-⟩ | ⟨j,c',st',rfl,hw,-,-⟩ |
      ⟨j,c',st',r',rfl,hans,rfl,-⟩
    · cases ha
    · cases ha
      rw [hpc] at hidle
      cases hidle
    · cases ha
      rw [hpc] at hw
      cases hw
    · cases ha
      rw [hpc] at hans
      cases hans
      refine absurd ?_ (hno r.success)
      simp [resumeCall,hst]
  · exact (step_pc_of_ne hs ha).trans hpc

end Steps

/-- In every reachable state each lock column has one owner; a renewal or release by anybody else
is answered `False`, returns `False` and leaves the table as it is. -/
theorem lockColumns_singleOwner (lockExpiry : ℤ) {s : State}
    (h : Reachable (machine lockExpiry) any s) :
    SingleOwner s.table ∧
    ∀ i c st col, LockColumn col → s.pc i = .waiting c st →
      (st = .renew ∧ col = Concurrency.lock.toColumn ∨ st = .release col) →
      ((s.table i.rowKey col).list = [] ∨
        ∃ v ∈ (s.table i.rowKey col).list, v.value ≠ uint64String i.operationId) →
      ∃ u, step lockExpiry s (.serve i) = some ([],u) ∧ u.table = s.table ∧
        ∀ tr t, Exec (machine lockExpiry) any u tr t → (∀ b, .ret i c b ∉ tr) →
          ∃ w, step lockExpiry t (.resume i) = some ([.ret i c false],w) ∧ w.table = t.table := by
  have hsingle := singleOwner_of_reachable h
  refine ⟨hsingle,fun i c st col hcol hpc hst hforeign => ?_⟩
  have hnot : ¬ ∃ n, (s.table i.rowKey col).list.head? = some n ∧
      n.value = uint64String i.operationId := by
    rintro ⟨n,hn,hv⟩
    rcases hforeign with hnil | ⟨v,hv',hne⟩
    · simp [hnil] at hn
    · exact hne ((hsingle _ col hcol _ ⟨v,hv',rfl⟩ _ (Versions.newest_mem hn)).trans hv)
  have hserve : serve s.now s.table (st.request i.rowKey i.operationId) = (⟨false,[]⟩,s.table) ∧
      ∀ now, next lockExpiry now c ⟨false,[]⟩ st = .ret false := by
    rcases hst with ⟨rfl,rfl⟩ | rfl
    · rcases serve_putOwn s.now s.table i.rowKey _ (uint64String i.operationId) with
        ⟨he,-⟩ | ⟨-,hown⟩
      · exact ⟨he,fun _ => rfl⟩
      · exact absurd hown hnot
    · rcases serve_checkAndDelete s.now s.table i.rowKey col (uint64String i.operationId) with
        ⟨he,-⟩ | ⟨-,hown⟩
      · exact ⟨he,fun _ => rfl⟩
      · exact absurd hown hnot
  obtain ⟨hserve,hnext⟩ := hserve
  have hquiet : servedEvents i st false = [] := by cases st <;> rfl
  refine ⟨(serveCall s i c st).2,?_,?_,fun tr t hrun hno => ?_⟩
  · simp [step,hpc,serveCall,hserve,hquiet]
  · simp [serveCall,hserve]
  · have hans : t.pc i = .answered c st ⟨false,[]⟩ :=
      answered_until_ret hnext (by simp [serveCall,hserve]) hrun hno
    exact ⟨_,by simp [step,hans,resumeCall,hnext]; rfl,by simp⟩

theorem lockColumns_singleOwner_wrong_operation :
    ∃ s u, (s.table sampleKey Concurrency.lock.toColumn).list = [⟨uint64String 1,0⟩] ∧
      SingleOwner s.table ∧ step threeMinutes s (.serve (caller 2)) = some ([],u) ∧
      u.table = s.table := by
  obtain ⟨tr,s,hrun,hpc,hlist⟩ := exists_exec (machine threeMinutes) any
    (s := start)
    (P := fun _ s => s.pc (caller 2) = .waiting (.unlockByRowKey sampleKey)
        (.release Concurrency.lock.toColumn) ∧
      (s.table sampleKey Concurrency.lock.toColumn).list = [⟨uint64String 1,0⟩])
    [.start (caller 1) (.lockByRowKey sampleKey),.serve (caller 1),.resume (caller 1),
      .start (caller 2) (.unlockByRowKey sampleKey)] (by decide +kernel)
  obtain ⟨hsingle,hserve⟩ := lockColumns_singleOwner threeMinutes ⟨_,_,start_init _,hrun⟩
  obtain ⟨u,hstep,htable,-⟩ := hserve _ _ _ _ (Or.inl rfl) hpc (Or.inr rfl)
    (Or.inr ⟨⟨uint64String 1,0⟩,by simp [caller,hlist],
      fun hv => absurd (uint64String_injective hv) (by decide)⟩)
  exact ⟨s,u,hlist,hsingle,hstep,htable⟩

end HBase
end KvdbClient
