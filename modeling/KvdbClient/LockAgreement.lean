import KvdbClient.BigTableLocks
import KvdbClient.HBaseLocks

/-! Lock acquisition on the BigTable and the HBase client, run on the same row without
interference: one filter on the server against several requests with a test of the client's own. -/
namespace KvdbClient

open Lease Transition

namespace LockCall

/-- The acquires of a root, which Bigtable refuses on a superseded root. -/
def onRoot : LockCall → Bool
  | lockRoot _ | lockRootIndefinitely _ => true
  | _ => false

/-- The acquires that an indefinite lock cell blocks: all but `lock_by_row_key`. -/
def heedsIndefinite : LockCall → Bool
  | lockByRowKey _ => false
  | _ => true

end LockCall

namespace HBase

section Alone

variable (lockExpiry now : ℤ) (op : ℕ) (c : LockCall)

/-- The rest of a call with every request served and answered before the next, at a standing
clock. The number bounds the requests. -/
def runAlone : ℕ → Next → Table → Option (Bool × Table)
  | _, .ret b, t => some (b,t)
  | 0, .send _, _ => none
  | n+1, .send st, t =>
    let r := serve now t (st.request c.rowKey op)
    runAlone n (next lockExpiry now c r.1 st) r.2

/-- What a call returns when it is run alone. No call sends more than six requests. -/
def resultAlone (t : Table) : Option Bool :=
  (runAlone lockExpiry now op c 6 (.send (firstRequest now c)) t).map Prod.fst

variable {lockExpiry now op c}

theorem runAlone_ret (n : ℕ) (b : Bool) (t : Table) :
    runAlone lockExpiry now op c n (.ret b) t = some (b,t) := by
  cases n <;> rfl

theorem runAlone_send (n : ℕ) (st : Stage) (t : Table) :
    runAlone lockExpiry now op c (n+1) (.send st) t =
      runAlone lockExpiry now op c n
        (next lockExpiry now c (serve now t (st.request c.rowKey op)).1 st)
        (serve now t (st.request c.rowKey op)).2 := rfl

theorem step_resume_send {s : State} {i : Caller} {st st' : Stage} {r : Response}
    (hpc : s.pc i = .answered c st r) (h : next lockExpiry s.now c r st = .send st') :
    (machine lockExpiry).step s (.resume i) = some ([],s.setPc i (.waiting c st')) := by
  simp [machine,step,hpc,resumeCall,h]

theorem step_resume_ret {s : State} {i : Caller} {st : Stage} {r : Response} {b : Bool}
    (hpc : s.pc i = .answered c st r) (h : next lockExpiry s.now c r st = .ret b) :
    (machine lockExpiry).step s (.resume i) =
      some ([.ret i c b],(s.setHold i (holdReturned st b)).setPc i .idle) := by
  simp [machine,step,hpc,resumeCall,h]

theorem exec_of_runAlone {i : Caller} (hk : i.rowKey = c.rowKey) {n : ℕ} {st : Stage} {b : Bool}
    {s : State} {t : Table} (hpc : s.pc i = .waiting c st)
    (h : runAlone lockExpiry s.now i.operationId c n (.send st) s.table = some (b,t)) :
    ∃ tr u, Exec (machine lockExpiry) any s (tr ++ [.ret i c b]) u ∧ u.table = t := by
  induction n generalizing st s with
  | zero => cases h
  | succ n ih =>
    rw [runAlone_send,← hk] at h
    have hserve : (machine lockExpiry).step s (.serve i) = some (serveCall s i c st) := by
      simp [machine,step,hpc]
    have hrun : Exec (machine lockExpiry) any s _ _ := Exec.single trivial hserve
    have hanswered : (serveCall s i c st).2.pc i =
        .answered c st (serve s.now s.table (st.request i.rowKey i.operationId)).1 := by
      simp [serveCall,State.setPc]
    cases hn : next lockExpiry s.now c
        (serve s.now s.table (st.request i.rowKey i.operationId)).1 st with
    | send st' =>
      rw [hn] at h
      have hresume := step_resume_send hanswered hn
      obtain ⟨tr,u,hrest,hu⟩ := ih (s := (serveCall s i c st).2.setPc i (.waiting c st'))
        (by simp [State.setPc]) h
      have hall := (hrun.trans (Exec.single trivial hresume)).trans hrest
      exact ⟨_,u,by rwa [← List.append_assoc] at hall,hu⟩
    | ret b' =>
      rw [hn,runAlone_ret] at h
      obtain ⟨rfl,rfl⟩ := Prod.mk.inj (Option.some.inj h)
      exact ⟨_,_,hrun.trans (Exec.single trivial (step_resume_ret hanswered hn)),rfl⟩

/-- The newest version is older than the expiry, or there is none. -/
def Stale (lockExpiry now : ℤ) (vs : Versions) : Prop :=
  ∀ v ∈ vs.list.head?, lockExpiry < now - hbaseTsToDatetime v.ts

variable (lockExpiry now op)

theorem runAlone_acquired (n : ℕ) (ts : ℤ) (t : Table) :
    ∃ b t', runAlone lockExpiry now op c (n+2) (acquired c ts) t = some (b,t') ∧
      (b = true ↔ (c.guarded = true → (t c.rowKey Concurrency.indefiniteLock.toColumn).list = [])) := by
  cases hg : c.guarded with
  | false =>
    simp only [acquired,hg,Bool.false_eq_true,if_false,runAlone_ret]
    exact ⟨_,_,rfl,by simp⟩
  | true =>
    simp only [acquired,hg,if_true,runAlone_send,Stage.request,serve,next]
    by_cases hl : (t c.rowKey Concurrency.indefiniteLock.toColumn).list = []
    · exact ⟨true,t,by simp [hl,runAlone_ret],by simp [hl]⟩
    · exact ⟨false,_,by simp [hl,runAlone_send,next,runAlone_ret]; rfl,by simp [hl]⟩

theorem resultAlone_acquire (h : c.role = .acquire) (t : Table) :
    ∃ b, resultAlone lockExpiry now op c t = some b ∧
      (b = true ↔ Stale lockExpiry now (t c.rowKey Concurrency.lock.toColumn) ∧
        (c.guarded = true → (t c.rowKey Concurrency.indefiniteLock.toColumn).list = [])) := by
  have hfirst : firstRequest now c = acquireLockCell now := by
    cases c <;> first | rfl | cases h
  -- Writing the lock column leaves the indefinite one as it was.
  have hset : ∀ (t : Table) vs, t.set c.rowKey Concurrency.lock.toColumn vs c.rowKey
      Concurrency.indefiniteLock.toColumn = t c.rowKey Concurrency.indefiniteLock.toColumn :=
    fun t vs => Table.set_of_ne fun hc => lock_ne_indefiniteLock hc.2.symm
  have hput : ∀ (n : ℕ) (t : Table), (t c.rowKey Concurrency.lock.toColumn).list = [] →
      ∃ b t', runAlone lockExpiry now op c (n+3) (.send (acquireLockCell now)) t = some (b,t') ∧
        (b = true ↔
          (c.guarded = true → (t c.rowKey Concurrency.indefiniteLock.toColumn).list = [])) := by
    intro n t hnil
    obtain ⟨b,t',hrun,hb⟩ := runAlone_acquired (c := c) lockExpiry now op n
      (putTimestamp now) (t.set c.rowKey Concurrency.lock.toColumn
        ((t c.rowKey Concurrency.lock.toColumn).insertCell ⟨uint64String op,putTimestamp now⟩))
    rw [hset] at hb
    refine ⟨b,t',?_,hb⟩
    rw [runAlone_send]
    simpa [acquireLockCell,Stage.request,serve,checks_none_iff.mpr hnil,next] using hrun
  rw [resultAlone,hfirst]
  cases hl : (t c.rowKey Concurrency.lock.toColumn).list with
  | nil =>
    obtain ⟨b,t',hrun,hb⟩ := hput 3 t hl
    exact ⟨b,by rw [hrun]; rfl,by simpa [Stale,hl] using hb⟩
  | cons v vs =>
    have hheld : checks (t c.rowKey Concurrency.lock.toColumn) none = false := by
      simp [checks,hl]
    by_cases hv : lockExpiry < now - hbaseTsToDatetime v.ts
    · obtain ⟨b,t',hrun,hb⟩ := hput 0 (t.set c.rowKey Concurrency.lock.toColumn .empty)
        (by simp [Versions.empty])
      rw [hset] at hb
      refine ⟨b,?_,by simpa [Stale,hl,hv] using hb⟩
      have hsteps : runAlone lockExpiry now op c 6 (.send (acquireLockCell now)) t =
          runAlone lockExpiry now op c 3 (.send (acquireLockCell now))
            (t.set c.rowKey Concurrency.lock.toColumn .empty) := by
        simp [runAlone_send,acquireLockCell,Stage.request,serve,hheld,next,hl,hv]
      rw [hsteps,hrun]
      rfl
    · refine ⟨false,?_,by simp [Stale,hl,hv]⟩
      simp [runAlone_send,acquireLockCell,Stage.request,serve,hheld,next,hl,hv,runAlone_ret]

theorem resultAlone_acquireIndefinite (h : c.role = .acquireIndefinite) (t : Table) :
    ∃ b, resultAlone lockExpiry now op c t = some b ∧
      (b = true ↔ (t c.rowKey Concurrency.indefiniteLock.toColumn).list = []) := by
  have hfirst : firstRequest now c = .putIndefinite (putTimestamp now) := by
    cases c <;> first | rfl | cases h
  rw [resultAlone,hfirst,runAlone_send]
  simp only [next,runAlone_ret]
  rcases serve_putAbsent now t c.rowKey Concurrency.indefiniteLock.toColumn (uint64String op)
    (putTimestamp now) with ⟨he,hne⟩ | ⟨he,hnil⟩
  · exact ⟨false,by simp only [Stage.request,he]; rfl,by simpa using hne⟩
  · exact ⟨true,by simp only [Stage.request,he]; rfl,by simpa using hnil⟩

end Alone

end HBase

namespace BigTable

/-- A grant that has not expired by the client clock, to the microsecond. -/
def Unexpired (lockExpiry now : ℤ) (g : Grant Bytes ℤ) : Prop := now - g.stamp ≤ lockExpiry

instance (lockExpiry now : ℤ) (g : Grant Bytes ℤ) : Decidable (Unexpired lockExpiry now g) :=
  inferInstanceAs (Decidable (_ ≤ _))

/-- The row is locked against an acquire: by an unexpired lock cell if the acquire is a temporal
one, by an indefinite lock cell if it heeds these. -/
def Held (lockExpiry now : ℤ) (c : LockCall) (r : Row) : Prop :=
  c.role = .acquire ∧ (∃ g ∈ lockGrants r, Unexpired lockExpiry now g) ∨
    c.heedsIndefinite = true ∧ (indefiniteGrants r).Nonempty

/-- An acquire of a root that has a `NewParent`. -/
def Superseded (c : LockCall) (r : Row) : Prop :=
  c.onRoot = true ∧ (r.grants Hierarchy.newParent).Nonempty

/-- A temporal acquire of a row with a lock cell in the millisecond of the cutoff. -/
def AtCutoff (lockExpiry now : ℤ) (c : LockCall) (r : Row) : Prop :=
  c.role = .acquire ∧ ∃ g ∈ lockGrants r, g.stamp = timeCutoff now lockExpiry

theorem acquireWith_result {t : Table} {k : Bytes} {f : RowFilter} {P : Prop}
    (h : Matches f (t k).cells ↔ P) (m : Mutation) : (acquireWith t k f m).1 = true ↔ ¬ P := by
  rcases acquireWith_cases h m with ⟨he,hp⟩ | ⟨he,hp⟩
  · simp [he,hp]
  · simp [he,hp]

theorem exec_result (lockExpiry now : ℤ) (t : Table) (op : ℕ) {c : LockCall}
    (h : c.role = .acquire ∨ c.role = .acquireIndefinite) :
    (exec lockExpiry now t op c).1 = true ↔
      ¬ ((c.role = .acquire ∧ ∃ g ∈ lockGrants (t c.rowKey), Live (timeCutoff now lockExpiry) g) ∨
        (c.heedsIndefinite = true ∧ (indefiniteGrants (t c.rowKey)).Nonempty) ∨
        Superseded c (t c.rowKey)) := by
  cases c with
  | lockRoot r =>
    refine (acquireWith_result matches_getRootLockFilter _).trans (not_congr ?_)
    simp only [LockCall.role,LockCall.heedsIndefinite,LockCall.onRoot,Superseded,true_and,
      LockCall.rowKey]
    rw [or_assoc,or_left_comm]
  | lockRootIndefinitely r =>
    refine (acquireWith_result matches_getIndefiniteRootLockFilter _).trans (not_congr ?_)
    simp [LockCall.role,LockCall.heedsIndefinite,LockCall.onRoot,Superseded,LockCall.rowKey]
  | lockByRowKey k =>
    refine (acquireWith_result matches_getRowKeyLockFilter _).trans (not_congr ?_)
    simp [LockCall.role,LockCall.heedsIndefinite,LockCall.onRoot,Superseded,LockCall.rowKey]
  | lockByRowKeyWithIndefinite k =>
    refine (acquireWith_result matches_getRowKeyLockFilterWithIndefinite _).trans (not_congr ?_)
    simp only [LockCall.role,LockCall.heedsIndefinite,LockCall.onRoot,Superseded,true_and,
      LockCall.rowKey,Bool.false_eq_true,false_and,or_false]
    rw [or_comm]
  | lockByRowKeyIndefinitely k =>
    refine (acquireWith_result matches_column_iff _).trans (not_congr ?_)
    simp [LockCall.role,LockCall.heedsIndefinite,LockCall.onRoot,Superseded,LockCall.rowKey]
  | _ => rcases h with h | h <;> cases h

/-- Beyond what has not expired, the floored cutoff only finds versions in its own millisecond. -/
theorem live_iff {lockExpiry now : ℤ} {g : Grant Bytes ℤ} (h : 1000 ∣ g.stamp) :
    Live (timeCutoff now lockExpiry) g ↔
      Unexpired lockExpiry now g ∨ g.stamp = timeCutoff now lockExpiry := by
  simp only [Live,Unexpired,timeCutoff]
  omega

end BigTable

/-- The same versions of every column, in milliseconds on HBase. -/
def SameContent (r : BigTable.Row) (h : Column → HBase.Versions) : Prop :=
  ∀ col, r.grants col = (fun g => ⟨g.owner,HBase.hbaseTsToDatetime g.stamp⟩) '' (h col).grants

def versionsOf (r : BigTable.Row) (col : Column) : HBase.Versions where
  list := ((r.cells.filter fun x => x.column = col).map fun x =>
    ⟨x.value,HBase.datetimeToHbaseTs x.timestampMicros⟩).insertionSort fun a b => b.ts ≤ a.ts
  sorted := by
    have : Std.Total fun a b : HBase.Version => b.ts ≤ a.ts := ⟨fun a b => le_total b.ts a.ts⟩
    have : IsTrans HBase.Version fun a b => b.ts ≤ a.ts := ⟨fun _ _ _ hab hbc => le_trans hbc hab⟩
    exact List.pairwise_insertionSort _ _

theorem mem_versionsOf {r : BigTable.Row} {col : Column} {v : HBase.Version} :
    v ∈ (versionsOf r col).list ↔ ∃ x ∈ r.cells, x.column = col ∧
      v = ⟨x.value,HBase.datetimeToHbaseTs x.timestampMicros⟩ := by
  simp [versionsOf,and_assoc,eq_comm]

theorem sameContent_versionsOf {r : BigTable.Row} (h : ∀ x ∈ r.cells, 1000 ∣ x.timestampMicros) :
    SameContent r (versionsOf r) := by
  have hback : ∀ x ∈ r.cells, HBase.hbaseTsToDatetime (HBase.datetimeToHbaseTs x.timestampMicros) =
      x.timestampMicros := fun x hx => Int.ediv_mul_cancel (h x hx)
  intro col
  ext g
  constructor
  · rintro ⟨x,hx,hcol,rfl⟩
    exact ⟨_,⟨_,mem_versionsOf.mpr ⟨x,hx,hcol,rfl⟩,rfl⟩,by simp only [hback x hx]⟩
  · rintro ⟨_,⟨_,hv,rfl⟩,rfl⟩
    obtain ⟨x,hx,hcol,rfl⟩ := mem_versionsOf.mp hv
    exact ⟨x,hx,hcol,by simp only [hback x hx]⟩

section Content

variable {r : BigTable.Row} {h : Column → HBase.Versions}

theorem SameContent.nonempty_iff (hs : SameContent r h) (col : Column) :
    (r.grants col).Nonempty ↔ (h col).list ≠ [] := by
  rw [hs col,Set.image_nonempty]
  constructor
  · rintro ⟨g,v,hv,rfl⟩
    exact List.ne_nil_of_mem hv
  · intro hne
    obtain ⟨v,hv⟩ := List.exists_mem_of_ne_nil _ hne
    exact ⟨_,v,hv,rfl⟩

/-- The newest version is stale iff no version is unexpired. -/
theorem SameContent.stale_iff (hs : SameContent r h) (col : Column) (lockExpiry now : ℤ) :
    HBase.Stale lockExpiry now (h col) ↔
      ¬ ∃ g ∈ r.grants col, BigTable.Unexpired lockExpiry now g := by
  rw [hs col]
  constructor
  · rintro hstale ⟨_,⟨g,hg,rfl⟩,hu⟩
    obtain ⟨w,hw,-⟩ := id hg
    obtain ⟨v,hv⟩ := Option.ne_none_iff_exists'.mp
      (fun hnone => List.ne_nil_of_mem hw (List.head?_eq_none_iff.mp hnone))
    have hle := HBase.Versions.stamp_le_of_head hv hg
    have hlt := hstale v hv
    simp only [BigTable.Unexpired,HBase.hbaseTsToDatetime] at hu hlt
    omega
  · intro hall v hv
    by_contra hlt
    exact hall ⟨_,⟨_,HBase.Versions.newest_mem hv,rfl⟩,not_lt.mp hlt⟩

theorem SameContent.dvd_stamp (hs : SameContent r h) {col : Column} {g : Grant Bytes ℤ}
    (hg : g ∈ r.grants col) : 1000 ∣ g.stamp := by
  rw [hs col] at hg
  obtain ⟨g,-,rfl⟩ := hg
  exact Int.dvd_mul_left _ _

end Content

/-- On HBase an acquire succeeds exactly on the rows that are not held. -/
theorem hbase_result (lockExpiry now : ℤ) (op : ℕ) {c : LockCall}
    (hc : c.role = .acquire ∨ c.role = .acquireIndefinite) {r : BigTable.Row} {t : HBase.Table}
    (hs : SameContent r (t c.rowKey)) :
    ∃ b, HBase.resultAlone lockExpiry now op c t = some b ∧
      (b = true ↔ ¬ BigTable.Held lockExpiry now c r) := by
  have hind : (BigTable.indefiniteGrants r).Nonempty ↔ _ := hs.nonempty_iff _
  rcases hc with hc | hc
  · obtain ⟨b,hb,hiff⟩ := HBase.resultAlone_acquire lockExpiry now op hc t
    have hguard : c.heedsIndefinite = c.guarded := by
      cases c <;> first | rfl | cases hc
    refine ⟨b,hb,hiff.trans ?_⟩
    rw [hs.stale_iff,BigTable.Held,hguard,hind]
    simp only [hc,true_and,not_or,not_and,ne_eq,not_not]
  · obtain ⟨b,hb,hiff⟩ := HBase.resultAlone_acquireIndefinite lockExpiry now op hc t
    have hheeds : c.heedsIndefinite = true := by
      cases c <;> first | rfl | cases hc
    refine ⟨b,hb,hiff.trans ?_⟩
    simp [BigTable.Held,hheeds,hc,hind]

def Agree (lockExpiry now : ℤ) (op : ℕ) (c : LockCall) (bt : BigTable.Table) (t : HBase.Table) :
    Prop :=
  HBase.resultAlone lockExpiry now op c t = some (BigTable.exec lockExpiry now bt op c).1

/-- Two clients agree on every acquire of a held row. On a free one they agree unless the root is
superseded, which HBase does not look at, or a lock cell lies in the millisecond of the cutoff,
which Bigtable still counts as live. -/
theorem acquires_agree (lockExpiry now : ℤ) (op : ℕ) {c : LockCall}
    (hc : c.role = .acquire ∨ c.role = .acquireIndefinite) {bt : BigTable.Table} {t : HBase.Table}
    (hs : SameContent (bt c.rowKey) (t c.rowKey)) :
    Agree lockExpiry now op c bt t ↔
      BigTable.Held lockExpiry now c (bt c.rowKey) ∨
        ¬ BigTable.Superseded c (bt c.rowKey) ∧ ¬ BigTable.AtCutoff lockExpiry now c (bt c.rowKey) := by
  obtain ⟨b,hb,hfree⟩ := hbase_result lockExpiry now op hc hs
  have hbt := BigTable.exec_result lockExpiry now bt op hc
  have hlive : (∃ g ∈ BigTable.lockGrants (bt c.rowKey), Live (timeCutoff now lockExpiry) g) ↔
      (∃ g ∈ BigTable.lockGrants (bt c.rowKey), BigTable.Unexpired lockExpiry now g) ∨
        ∃ g ∈ BigTable.lockGrants (bt c.rowKey), g.stamp = timeCutoff now lockExpiry := by
    simp only [← exists_or,← and_or_left]
    exact exists_congr fun g => and_congr_right fun hg => BigTable.live_iff (hs.dvd_stamp hg)
  rw [Agree,hb,Option.some.injEq,Bool.eq_iff_iff,hfree,hbt,hlive,not_iff_not]
  simp only [BigTable.Held,BigTable.AtCutoff]
  grind

def rowWith (x : BigTable.Cell) : BigTable.Row := ⟨[x],List.pairwise_singleton _ _⟩

def supersededRow : BigTable.Row := rowWith ⟨Hierarchy.newParent,0,[]⟩

def heldRow : BigTable.Row := rowWith (BigTable.lockCell Concurrency.lock 3 1000)

theorem acquires_agree_held :
    Agree threeMinutes 5000 7 (.lockRoot 1) (fun _ => heldRow) (fun _ => versionsOf heldRow) :=
  (acquires_agree threeMinutes 5000 7 (Or.inl rfl) (sameContent_versionsOf (by decide))).mpr
    (Or.inl (Or.inl ⟨rfl,_,⟨_,List.mem_singleton.mpr rfl,rfl,rfl⟩,by decide⟩))

/-- HBase takes the lock of a superseded root, Bigtable refuses it. -/
theorem lockRoot_disagrees_superseded :
    SameContent supersededRow (versionsOf supersededRow) ∧
      ¬ Agree threeMinutes 5000 7 (.lockRoot 1) (fun _ => supersededRow)
        (fun _ => versionsOf supersededRow) := by
  refine ⟨sameContent_versionsOf (by decide),?_⟩
  rw [Agree]
  decide +kernel

end KvdbClient
