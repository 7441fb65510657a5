import KvdbClient.HBaseLockRoots

/-! What the calls of a thread pool rely on while the HBase client takes its steps: which roots are
submitted, with the pool or done, and that an operation keeps the locks it was told it has. -/
namespace KvdbClient
namespace HBase
namespace LockRoots

open Lease Transition
open BigTable.LockRoots (LockKind Phase Call rootKey)

/-- The operation has the lock of a kind: it owns the indefinite column, or holds the row by a
temporal one. -/
def Granted (client : HBase.State) (kind : LockKind) (op : ℕ) (k : Bytes) : Prop :=
  match kind with
  | .temporal => ∃ ts, client.hold op k = some ts
  | .indefinite => Owned (indefiniteVersions client.table k) op

def column : LockKind → Column
  | .temporal => Concurrency.lock.toColumn
  | .indefinite => Concurrency.indefiniteLock.toColumn

def Has (client : HBase.State) (kind : LockKind) (op : ℕ) (k : Bytes) : Prop :=
  ∃ v ∈ (client.table k (column kind)).list, v.value = uint64String op

/-- A root is to be submitted, with the pool, or has a result. -/
structure Locking (client : HBase.State) (op : ℕ) (x : Call) : Prop where
  nodup : x.pending.Nodup
  pending : ∀ r ∈ x.pending, r ∈ x.rootIds ∧ client.pc (rootCaller op r) = .idle
  running : ∀ k c st, At client ⟨op,k,0⟩ c st →
    ∃ r ∈ x.rootIds, k = rootKey r ∧ r ∉ x.pending ∧ c = x.kind.lock r
  results : ∀ p ∈ x.results, p.1 ∉ x.pending ∧ client.pc (rootCaller op p.1) = .idle
  covered : ∀ r ∈ x.rootIds, client.pc (rootCaller op r) = .idle → r ∉ x.pending →
    ∃ b, (r,b) ∈ x.results
  granted : ∀ r, (r,true) ∈ x.results → Granted client x.kind op (rootKey r)

structure Unlocking (client : HBase.State) (op : ℕ) (x : Call) : Prop where
  pending : ∀ r ∈ x.pending, r ∈ x.rootIds
  running : ∀ k c st, At client ⟨op,k,0⟩ c st →
    st = .release (column x.kind) ∧ ∃ r ∈ x.rootIds, k = rootKey r ∧ c = x.kind.unlock r

def PhaseSound (client : HBase.State) (op : ℕ) (x : Call) : Prop :=
  match x.phase with
  | .locking => Locking client op x
  | .unlocking => Unlocking client op x
  | .returned true => (∀ r ∈ x.rootIds, Granted client x.kind op (rootKey r)) ∧
      ∀ k c st, At client ⟨op,k,0⟩ c st → c.role = .renew ∧ st = .renew
  | .returned false | .raised => ∀ k, client.pc ⟨op,k,0⟩ = .idle
  | .releasing => True

section Client

variable {lockExpiry : ℤ} {s u : HBase.State} {a : HBase.Action} {es : List LockEvent}
  {kind : LockKind} {op : ℕ} {k : Bytes} {i : Caller} {c : LockCall} {st : Stage}

theorem At.not_idle (h : At s i c st) : s.pc i ≠ .idle := by
  rcases h with h | ⟨r,h⟩ <;> simp [h]

theorem idle_or_at (s : HBase.State) (i : Caller) : s.pc i = .idle ∨ ∃ c st, At s i c st := by
  cases h : s.pc i with
  | idle => exact Or.inl rfl
  | waiting c st => exact Or.inr ⟨c,st,Or.inl h⟩
  | answered c st r => exact Or.inr ⟨c,st,Or.inr ⟨r,h⟩⟩

theorem at_congr {i : Caller} (h : u.pc i = s.pc i) : At u i c st ↔ At s i c st := by
  rw [At,At,h]

theorem rootKey_injective {r r' : ℕ} (h : rootKey r = rootKey r') : r = r' :=
  uint64String_injective h

theorem exists_holdServed (hne : ∀ col, st ≠ .release col) (now ts : ℤ) {success : Bool} :
    ∃ ts', holdServed now st success (some ts) = some ts' := by
  unfold holdServed
  split
  · exact ⟨_,rfl⟩
  · exact absurd rfl (hne _)
  · exact ⟨_,rfl⟩

theorem Granted.step (h : Granted s kind op k) (hp : PutsOwn s)
    (hs : HBase.step lockExpiry s a = some (es,u))
    (hno : ∀ c col, a = .serve ⟨op,k,0⟩ → s.pc ⟨op,k,0⟩ ≠ .waiting c (.release col)) :
    Granted u kind op k := by
  rcases HBase.step_cases hs with ⟨d,-,-,rfl⟩ | ⟨j,c,-,-,-,-,rfl⟩ | ⟨j,c,st,rfl,hpc,-,rfl⟩ |
    ⟨j,c,st,r,-,-,-,rfl⟩
  · exact h
  · exact h
  · have hst : ∀ col, ¬ (j.rowKey = k ∧ j.operationId = op ∧ st = .release col) := by
      rintro col ⟨rfl,rfl,rfl⟩
      have hj : j = ⟨j.operationId,j.rowKey,0⟩ :=
        caller_eq (hp.thread j (by simp [hpc])) rfl rfl rfl
      exact hno c col (congrArg _ hj) (hj ▸ hpc)
    cases kind with
    | indefinite =>
      have hkeep := serve_keeps_indefinite h s.now j.rowKey j.operationId st (hst _)
      have hcol : indefiniteVersions (serveCall s j c st).2.table k = indefiniteVersions s.table k :=
        hkeep
      rw [Granted,hcol]
      exact h
    | temporal =>
      obtain ⟨ts,hts⟩ := h
      by_cases hjk : op = j.operationId ∧ k = j.rowKey
      · obtain ⟨rfl,rfl⟩ := hjk
        have hne : ∀ col, st ≠ .release col := fun col heq => hst col ⟨rfl,rfl,heq⟩
        simp only [Granted,serveCall,State.setHold,State.setPc,setEntry_self,hts]
        exact exists_holdServed hne s.now ts
      · exact ⟨ts,(setEntry_of_ne hjk).trans hts⟩
  · cases kind with
    | indefinite => simpa [Granted,indefiniteVersions] using h
    | temporal =>
      obtain ⟨ts,hts⟩ := h
      unfold resumeCall
      split
      · exact ⟨ts,hts⟩
      · by_cases hjk : op = j.operationId ∧ k = j.rowKey
        · obtain ⟨rfl,rfl⟩ := hjk
          simp only [Granted,State.setHold,State.setPc,setEntry_self,hts]
          unfold holdReturned
          split <;> exact ⟨_,rfl⟩
        · exact ⟨ts,(setEntry_of_ne hjk).trans hts⟩

/-- The requests that may give a column its first version. -/
def puts : Stage → Bool
  | .acquirePut _ | .putIndefinite _ => true
  | _ => false

theorem mem_set_insertCell {t : Table} {k' : Bytes} {col col' : Column} {e v : Version}
    (h : v ∈ (t.set k' col' ((t k' col').insertCell e) k col).list) :
    v ∈ (t k col).list ∨ v = e ∧ k = k' ∧ col = col' := by
  by_cases hk : k = k' ∧ col = col'
  · obtain ⟨rfl,rfl⟩ := hk
    rw [Table.set_self] at h
    exact (Versions.mem_insertCell.mp h).symm.imp_right fun he => ⟨he,rfl,rfl⟩
  · rw [Table.set_of_ne hk] at h
    exact Or.inl h

theorem mem_set_empty {t : Table} {k' : Bytes} {col col' : Column} {v : Version}
    (h : v ∈ (t.set k' col' .empty k col).list) : v ∈ (t k col).list := by
  by_cases hk : k = k' ∧ col = col'
  · obtain ⟨rfl,rfl⟩ := hk
    simp [Versions.empty] at h
  · rwa [Table.set_of_ne hk] at h

theorem has_of_serve {now : ℤ} {t : Table} {k' : Bytes} {op' : ℕ} {col : Column}
    (h : ∃ v ∈ ((serve now t (st.request k' op')).2 k col).list, v.value = uint64String op) :
    (∃ v ∈ (t k col).list, v.value = uint64String op) ∨ k' = k ∧ op' = op ∧ puts st = true := by
  obtain ⟨v,hv,hop⟩ := h
  have hput : ∀ {col' ts},
      v ∈ (t.set k' col' ((t k' col').insertCell ⟨uint64String op',ts⟩) k col).list →
      v ∈ (t k col).list ∨ op' = op ∧ k = k' ∧ col = col' := by
    intro col' ts hv
    refine (mem_set_insertCell hv).imp_right ?_
    rintro ⟨rfl,hk,hcol⟩
    exact ⟨uint64String_injective hop,hk,hcol⟩
  cases st with
  | acquirePut ts =>
    rcases serve_putAbsent now t k' Concurrency.lock.toColumn (uint64String op') ts with
      ⟨he,-⟩ | ⟨he,-⟩
    · simp only [Stage.request,he] at hv
      exact Or.inl ⟨v,hv,hop⟩
    · simp only [Stage.request,he] at hv
      exact (hput hv).imp (fun hv => ⟨v,hv,hop⟩) fun h => ⟨h.2.1.symm,h.1,rfl⟩
  | putIndefinite ts =>
    rcases serve_putAbsent now t k' Concurrency.indefiniteLock.toColumn (uint64String op') ts with
      ⟨he,-⟩ | ⟨he,-⟩
    · simp only [Stage.request,he] at hv
      exact Or.inl ⟨v,hv,hop⟩
    · simp only [Stage.request,he] at hv
      exact (hput hv).imp (fun hv => ⟨v,hv,hop⟩) fun h => ⟨h.2.1.symm,h.1,rfl⟩
  | acquireRead | readIndefinite _ => exact Or.inl ⟨v,hv,hop⟩
  | acquireDelete | rollbackDelete => exact Or.inl ⟨v,mem_set_empty hv,hop⟩
  | release col' =>
    rcases serve_checkAndDelete now t k' col' (uint64String op') with ⟨he,-⟩ | ⟨he,-⟩
    · simp only [Stage.request,he] at hv
      exact Or.inl ⟨v,hv,hop⟩
    · simp only [Stage.request,he] at hv
      exact Or.inl ⟨v,mem_set_empty hv,hop⟩
  | renew =>
    rcases serve_putOwn now t k' Concurrency.lock.toColumn (uint64String op') with
      ⟨he,-⟩ | ⟨he,n,hn,hown⟩
    · simp only [Stage.request,he] at hv
      exact Or.inl ⟨v,hv,hop⟩
    · simp only [Stage.request,he] at hv
      refine Or.inl ?_
      rcases hput hv with hv | ⟨rfl,rfl,rfl⟩
      · exact ⟨v,hv,hop⟩
      · exact ⟨n,List.mem_of_head? hn,hown⟩

/-- A version of an operation comes from a put of its own. -/
theorem Has.of_step (h : Has u kind op k) (hp : PutsOwn s)
    (hs : HBase.step lockExpiry s a = some (es,u)) :
    Has s kind op k ∨
      ∃ c st, a = .serve ⟨op,k,0⟩ ∧ s.pc ⟨op,k,0⟩ = .waiting c st ∧ puts st = true := by
  rcases HBase.step_cases hs with ⟨d,-,-,rfl⟩ | ⟨j,c,-,-,-,-,rfl⟩ | ⟨j,c,st,rfl,hpc,-,rfl⟩ |
    ⟨j,c,st,r,-,-,-,rfl⟩
  · exact Or.inl h
  · exact Or.inl h
  · refine (has_of_serve h).imp_right ?_
    rintro ⟨rfl,rfl,hst⟩
    have hj : j = ⟨j.operationId,j.rowKey,0⟩ :=
      caller_eq (hp.thread j (by simp [hpc])) rfl rfl rfl
    exact ⟨c,st,congrArg _ hj,hj ▸ hpc,hst⟩
  · simp only [Has,resumeCall_table] at h
    exact Or.inl h

theorem lockColumn_column (kind : LockKind) : LockColumn (column kind) := by
  cases kind
  · exact Or.inl rfl
  · exact Or.inr rfl

theorem not_has_of_release (hsingle : SingleOwner s.table) :
    ¬ Has (serveCall s ⟨op,k,0⟩ c (.release (column kind))).2 kind op k := by
  rintro ⟨v,hv,hop⟩
  rcases serve_checkAndDelete s.now s.table k (column kind) (uint64String op) with
    ⟨he,hnot⟩ | ⟨he,-⟩
  · simp only [serveCall,Stage.request,he] at hv
    obtain ⟨n,hn⟩ := Option.isSome_iff_exists.mp
      (List.isSome_head?.mpr (List.ne_nil_of_mem hv))
    refine hnot ⟨n,hn,?_⟩
    exact (hsingle k _ (lockColumn_column kind) _ (Versions.newest_mem hn) _ ⟨v,hv,rfl⟩).trans hop
  · simp only [serveCall,Stage.request,he] at hv
    simp [State.setPc,State.setHold,Versions.empty] at hv

end Client

section Phases

variable {client client' : HBase.State} {op : ℕ} {x : Call}

theorem phaseSound_locking (hp : x.phase = .locking) :
    PhaseSound client op x ↔ Locking client op x := by
  rw [PhaseSound,hp]

theorem phaseSound_unlocking (hp : x.phase = .unlocking) :
    PhaseSound client op x ↔ Unlocking client op x := by
  rw [PhaseSound,hp]

theorem phaseSound_returned (hp : x.phase = .returned true) :
    PhaseSound client op x ↔ (∀ r ∈ x.rootIds, Granted client x.kind op (rootKey r)) ∧
      ∀ k c st, At client ⟨op,k,0⟩ c st → c.role = .renew ∧ st = .renew := by
  rw [PhaseSound,hp]

theorem phaseSound_idle (hp : x.phase = .returned false ∨ x.phase = .raised) :
    PhaseSound client op x ↔ ∀ k, client.pc ⟨op,k,0⟩ = .idle := by
  rcases hp with hp | hp <;> rw [PhaseSound,hp]

theorem phaseSound_releasing (hp : x.phase = .releasing) : PhaseSound client op x := by
  rw [PhaseSound,hp]
  trivial

theorem rootCaller_injective {r r' : ℕ} (h : rootCaller op r = rootCaller op r') : r = r' :=
  rootKey_injective (congrArg Caller.rowKey h)

theorem idle_of_rows {k : Bytes} {rs : List ℕ}
    (h : ∀ c st, At client ⟨op,k,0⟩ c st → ∃ r ∈ rs, k = rootKey r)
    (hidle : ∀ r ∈ rs, client.pc (rootCaller op r) = .idle) : client.pc ⟨op,k,0⟩ = .idle := by
  rcases idle_or_at client ⟨op,k,0⟩ with hi | ⟨c,st,hat⟩
  · exact hi
  · obtain ⟨r,hr,rfl⟩ := h c st hat
    exact hidle r hr

theorem Locking.frame (h : Locking client op x)
    (hpc : ∀ k, client'.pc ⟨op,k,0⟩ = client.pc ⟨op,k,0⟩)
    (hg : ∀ k, Granted client x.kind op k → Granted client' x.kind op k) :
    Locking client' op x where
  nodup := h.nodup
  pending r hr := ⟨(h.pending r hr).1,(hpc (rootKey r)).trans (h.pending r hr).2⟩
  running k c st hat := h.running k c st ((at_congr (hpc k)).mp hat)
  results p hp := ⟨(h.results p hp).1,(hpc (rootKey p.1)).trans (h.results p hp).2⟩
  covered r hr hidle := h.covered r hr ((hpc (rootKey r)).symm.trans hidle)
  granted r hr := hg _ (h.granted r hr)

theorem PhaseSound.frame (h : PhaseSound client op x)
    (hpc : ∀ k, client'.pc ⟨op,k,0⟩ = client.pc ⟨op,k,0⟩)
    (hg : ∀ k, Granted client x.kind op k → Granted client' x.kind op k) :
    PhaseSound client' op x := by
  have hat : ∀ {k c st}, At client' ⟨op,k,0⟩ c st → At client ⟨op,k,0⟩ c st := fun {k _ _} =>
    (at_congr (hpc k)).mp
  cases hp : x.phase with
  | locking =>
    rw [phaseSound_locking hp] at h ⊢
    exact h.frame hpc hg
  | unlocking =>
    rw [phaseSound_unlocking hp] at h ⊢
    exact ⟨h.pending,fun k c st hk => h.running k c st (hat hk)⟩
  | returned all =>
    cases all with
    | true =>
      rw [phaseSound_returned hp] at h ⊢
      exact ⟨fun r hr => hg _ (h.1 r hr),fun k c st hk => h.2 k c st (hat hk)⟩
    | false =>
      rw [phaseSound_idle (Or.inl hp)] at h ⊢
      exact fun k => (hpc k).trans (h k)
  | raised =>
    rw [phaseSound_idle (Or.inr hp)] at h ⊢
    exact fun k => (hpc k).trans (h k)
  | releasing => exact phaseSound_releasing hp

theorem Locking.move (h : Locking client op x) {r : ℕ} {p : Pc}
    (hpc : client'.pc = Function.update client.pc (rootCaller op r) p)
    (hrun : client.pc (rootCaller op r) ≠ .idle) (hne : p ≠ .idle)
    (hat : ∀ c st, At client' (rootCaller op r) c st → ∃ st', At client (rootCaller op r) c st')
    (hg : ∀ k, k ≠ rootKey r → Granted client x.kind op k → Granted client' x.kind op k) :
    Locking client' op x := by
  have hself : client'.pc (rootCaller op r) = p := by rw [hpc,Function.update_self]
  have hother : ∀ i, i ≠ rootCaller op r → client'.pc i = client.pc i := fun i hi => by
    rw [hpc,Function.update_of_ne hi]
  have hroot : ∀ r', client.pc (rootCaller op r') = .idle → rootCaller op r' ≠ rootCaller op r :=
    fun r' hidle heq => hrun (heq ▸ hidle)
  refine ⟨h.nodup,fun r' hr' => ?_,fun k c st hk => ?_,fun q hq => ?_,fun r' hr' hidle hnp => ?_,
    fun r' hr' => ?_⟩
  · obtain ⟨hmem,hidle⟩ := h.pending r' hr'
    exact ⟨hmem,(hother _ (hroot r' hidle)).trans hidle⟩
  · by_cases hkr : (⟨op,k,0⟩ : Caller) = rootCaller op r
    · rw [hkr] at hk
      obtain ⟨st',hst'⟩ := hat c st hk
      exact h.running k c st' (hkr ▸ hst')
    · exact h.running k c st ((at_congr (hother _ hkr)).mp hk)
  · obtain ⟨hnp,hidle⟩ := h.results q hq
    exact ⟨hnp,(hother _ (hroot q.1 hidle)).trans hidle⟩
  · by_cases hrr : rootCaller op r' = rootCaller op r
    · rw [hrr,hself] at hidle
      exact absurd hidle hne
    · exact h.covered r' hr' ((hother _ hrr).symm.trans hidle) hnp
  · have hidle := (h.results _ hr').2
    refine hg _ (fun heq => hroot r' hidle ?_) (h.granted r' hr')
    rw [rootKey_injective heq]

theorem Locking.finish (h : Locking client op x) {r : ℕ} {b : Bool}
    (hpc : client'.pc = Function.update client.pc (rootCaller op r) .idle)
    (hrun : client.pc (rootCaller op r) ≠ .idle)
    (hg : ∀ k, k ≠ rootKey r → Granted client x.kind op k → Granted client' x.kind op k)
    (hgot : b = true → Granted client' x.kind op (rootKey r)) :
    Locking client' op { x with results := x.results ++ [(r,b)] } := by
  have hself : client'.pc (rootCaller op r) = .idle := by rw [hpc,Function.update_self]
  have hother : ∀ i, i ≠ rootCaller op r → client'.pc i = client.pc i := fun i hi => by
    rw [hpc,Function.update_of_ne hi]
  have hroot : ∀ r', client.pc (rootCaller op r') = .idle → rootCaller op r' ≠ rootCaller op r :=
    fun r' hidle heq => hrun (heq ▸ hidle)
  have hnp : r ∉ x.pending := fun hr => hrun (h.pending r hr).2
  refine ⟨h.nodup,fun r' hr' => ?_,fun k c st hk => ?_,fun q hq => ?_,fun r' hr' hidle hnp => ?_,
    fun r' hr' => ?_⟩
  · obtain ⟨hmem,hidle⟩ := h.pending r' hr'
    exact ⟨hmem,(hother _ (hroot r' hidle)).trans hidle⟩
  · by_cases hkr : (⟨op,k,0⟩ : Caller) = rootCaller op r
    · rw [hkr] at hk
      exact absurd hself hk.not_idle
    · exact h.running k c st ((at_congr (hother _ hkr)).mp hk)
  · rcases List.mem_append.mp hq with hq | hq
    · obtain ⟨hnp,hidle⟩ := h.results q hq
      exact ⟨hnp,(hother _ (hroot q.1 hidle)).trans hidle⟩
    · obtain rfl := List.mem_singleton.mp hq
      exact ⟨hnp,hself⟩
  · by_cases hrr : rootCaller op r' = rootCaller op r
    · rw [rootCaller_injective hrr]
      exact ⟨b,by simp⟩
    · obtain ⟨b',hb'⟩ := h.covered r' hr' ((hother _ hrr).symm.trans hidle) hnp
      exact ⟨b',List.mem_append_left _ hb'⟩
  · rcases List.mem_append.mp hr' with hr' | hr'
    · have hidle := (h.results _ hr').2
      refine hg _ (fun heq => hroot r' hidle ?_) (h.granted r' hr')
      rw [rootKey_injective heq]
    · have heq := List.mem_singleton.mp hr'
      simp only [Prod.mk.injEq] at heq
      rw [heq.1]
      exact hgot heq.2.symm

theorem phaseSound_beginTry (hidle : ∀ k, client.pc ⟨op,k,0⟩ = .idle) :
    PhaseSound client op (BigTable.LockRoots.beginTry x) := by
  have hno : ∀ k c st, ¬ At client ⟨op,k,0⟩ c st := fun k c st hat => hat.not_idle (hidle k)
  unfold BigTable.LockRoots.beginTry
  split
  · exact hidle
  · rename_i roots hroots
    obtain ⟨new,-,rfl⟩ := Option.map_eq_some_iff.mp hroots
    exact
      { nodup := (BigTable.LockRoots.npUnique_sorted new).imp fun h => h.ne
        pending := fun r hr => ⟨hr,hidle _⟩
        running := fun k c st hat => absurd hat (hno k c st)
        results := by simp
        covered := fun r hr _ hnp => absurd hr hnp
        granted := by simp }

theorem Begins.phaseSound (h : Begins x) (hidle : ∀ k, client.pc ⟨op,k,0⟩ = .idle) :
    PhaseSound client op x := by
  rcases h with ⟨rootIds,future,maxTries,rfl⟩ | ⟨rootIds,future,rfl⟩
  · simp only [BigTable.LockRoots.lockRoots]
    split
    · exact phaseSound_beginTry hidle
    · exact hidle
  · exact phaseSound_beginTry hidle

theorem PhaseSound.submit (h : PhaseSound client op x) {n root : ℕ} {c : LockCall} {now : ℤ}
    (hroot : x.pending[n]? = some root) (hc : poolCall x root = some c)
    (hpc : client'.pc = Function.update client.pc (rootCaller op root)
      (.waiting c (firstRequest now c)))
    (hg : ∀ k, Granted client x.kind op k → Granted client' x.kind op k) :
    PhaseSound client' op { x with pending := x.pending.eraseIdx n } := by
  obtain ⟨hn,hget⟩ := List.getElem?_eq_some_iff.mp hroot
  have hmem : root ∈ x.pending := List.mem_of_getElem? hroot
  have hsub : ∀ r ∈ x.pending.eraseIdx n, r ∈ x.pending := fun r hr => List.mem_of_mem_eraseIdx hr
  have hnot : x.pending.Nodup → root ∉ x.pending.eraseIdx n := by
    intro hnd hr
    have hperm := (List.getElem_cons_eraseIdx_perm hn).nodup_iff.mpr hnd
    exact (List.nodup_cons.mp hperm).1 (hget.symm ▸ hr)
  have hself : client'.pc (rootCaller op root) = .waiting c (firstRequest now c) := by
    rw [hpc,Function.update_self]
  have hother : ∀ i, i ≠ rootCaller op root → client'.pc i = client.pc i := fun i hi => by
    rw [hpc,Function.update_of_ne hi]
  have hat : ∀ c' st, At client' (rootCaller op root) c' st → c' = c ∧ st = firstRequest now c := by
    rintro c' st (hw | ⟨r,hw⟩)
    · rw [hself] at hw
      cases hw
      exact ⟨rfl,rfl⟩
    · rw [hself] at hw
      cases hw
  unfold poolCall at hc
  cases hp : x.phase with
  | locking =>
    rw [phaseSound_locking hp] at h
    rw [phaseSound_locking rfl]
    rw [hp] at hc
    cases hc
    refine ⟨h.nodup.eraseIdx n,fun r hr => ?_,fun k c st hk => ?_,fun q hq => ?_,
      fun r hr hidle hnp => ?_,fun r hr => hg _ (h.granted r hr)⟩
    · obtain ⟨hmem',hidle⟩ := h.pending r (hsub r hr)
      refine ⟨hmem',(hother _ fun heq => ?_).trans hidle⟩
      exact hnot h.nodup (rootCaller_injective heq ▸ hr)
    · by_cases hkr : (⟨op,k,0⟩ : Caller) = rootCaller op root
      · rw [hkr] at hk
        exact ⟨root,(h.pending root hmem).1,congrArg Caller.rowKey hkr,hnot h.nodup,(hat c st hk).1⟩
      · obtain ⟨r,hr,rfl,hnp,hc⟩ := h.running k c st ((at_congr (hother _ hkr)).mp hk)
        exact ⟨r,hr,rfl,fun hr' => hnp (hsub r hr'),hc⟩
    · obtain ⟨hnp,hidle⟩ := h.results q hq
      refine ⟨fun hr => hnp (hsub _ hr),(hother _ fun heq => hnp ?_).trans hidle⟩
      exact rootCaller_injective heq ▸ hmem
    · have hne : rootCaller op r ≠ rootCaller op root := fun heq => by
        rw [heq,hself] at hidle
        cases hidle
      refine h.covered r hr ((hother _ hne).symm.trans hidle) fun hr' => hnp ?_
      rcases List.mem_cons.mp ((List.getElem_cons_eraseIdx_perm hn).symm.subset hr') with rfl | hr'
      · exact absurd (congrArg (rootCaller op) hget) hne
      · exact hr'
  | unlocking =>
    rw [phaseSound_unlocking hp] at h
    rw [phaseSound_unlocking rfl]
    rw [hp] at hc
    cases hc
    refine ⟨fun r hr => h.pending r (hsub r hr),fun k c st hk => ?_⟩
    by_cases hkr : (⟨op,k,0⟩ : Caller) = rootCaller op root
    · rw [hkr] at hk
      refine ⟨(hat c st hk).2.trans ?_,root,h.pending root hmem,congrArg Caller.rowKey hkr,
        (hat c st hk).1⟩
      show firstRequest now (x.kind.unlock root) = .release (column x.kind)
      cases x.kind <;> rfl
    · exact h.running k c st ((at_congr (hother _ hkr)).mp hk)
  | returned b =>
    rw [hp] at hc
    cases hc
  | raised =>
    rw [hp] at hc
    cases hc
  | releasing => exact phaseSound_releasing rfl

theorem Locking.idle (h : Locking client op x)
    (hidle : ∀ r ∈ x.rootIds, client.pc (rootCaller op r) = .idle) (k : Bytes) :
    client.pc ⟨op,k,0⟩ = .idle :=
  idle_of_rows (fun c st hat =>
    let ⟨r,hr,hk,_⟩ := h.running k c st hat
    ⟨r,hr,hk⟩) hidle

theorem Unlocking.idle (h : Unlocking client op x)
    (hidle : ∀ r ∈ x.rootIds, client.pc (rootCaller op r) = .idle) (k : Bytes) :
    client.pc ⟨op,k,0⟩ = .idle :=
  idle_of_rows (fun c st hat =>
    let ⟨_,r,hr,hk,_⟩ := h.running k c st hat
    ⟨r,hr,hk⟩) hidle

theorem Locking.judge (h : Locking client op x) (hnil : x.pending = [])
    (hidle : ∀ r ∈ x.rootIds, client.pc (rootCaller op r) = .idle) :
    PhaseSound client op (BigTable.LockRoots.judge x) := by
  have hno : ∀ k c st, ¬ At client ⟨op,k,0⟩ c st := fun k c st hat =>
    hat.not_idle (h.idle hidle k)
  unfold BigTable.LockRoots.judge
  split
  · rename_i hall
    refine ⟨fun r hr => ?_,fun k c st hat => absurd hat (hno k c st)⟩
    obtain ⟨b,hb⟩ := h.covered r hr (hidle r hr) (by simp [hnil])
    obtain rfl : b = true := List.all_eq_true.mp hall (r,b) hb
    exact h.granted r hb
  · exact ⟨fun r hr => hr,fun k c st hat => absurd hat (hno k c st)⟩

theorem Unlocking.retry (h : Unlocking client op x)
    (hidle : ∀ r ∈ x.rootIds, client.pc (rootCaller op r) = .idle) :
    PhaseSound client op (BigTable.LockRoots.retry x) := by
  unfold BigTable.LockRoots.retry
  split
  · exact phaseSound_beginTry (h.idle hidle)
  · exact h.idle hidle

theorem PhaseSound.finish (h : PhaseSound client op x) {k : Bytes} {c : LockCall} {st : Stage}
    {b : Bool} (hat : At client ⟨op,k,0⟩ c st)
    (hpc : client'.pc = Function.update client.pc ⟨op,k,0⟩ .idle)
    (hg : ∀ k, Granted client x.kind op k → Granted client' x.kind op k)
    (hgot : b = true → ∀ r, c = x.kind.lock r → Granted client' x.kind op k) :
    PhaseSound client' op (addResult x c b) := by
  have hother : ∀ {k' c' st'}, At client' ⟨op,k',0⟩ c' st' → At client ⟨op,k',0⟩ c' st' := by
    intro k' c' st' hat'
    by_cases hk : k' = k
    · subst hk
      exact absurd (by rw [hpc,Function.update_self]) hat'.not_idle
    · exact (at_congr (by rw [hpc,Function.update_of_ne (by simpa using hk)])).mp hat'
  cases hp : x.phase with
  | locking =>
    rw [phaseSound_locking hp] at h
    obtain ⟨r,-,rfl,-,rfl⟩ := h.running k c st hat
    rw [phaseSound_locking (by simpa using hp),addResult_lock]
    exact h.finish hpc hat.not_idle (fun k _ => hg k) fun hb => hgot hb r rfl
  | unlocking =>
    rw [phaseSound_unlocking hp] at h
    obtain ⟨-,r,-,-,rfl⟩ := h.running k c st hat
    rw [addResult_unlock,phaseSound_unlocking hp]
    exact ⟨h.pending,fun k' c' st' hat' => h.running k' c' st' (hother hat')⟩
  | returned all =>
    cases all with
    | true =>
      rw [phaseSound_returned hp] at h
      rw [addResult_renew x (h.2 k c st hat).1,phaseSound_returned hp]
      exact ⟨fun r hr => hg _ (h.1 r hr),fun k' c' st' hat' => h.2 k' c' st' (hother hat')⟩
    | false =>
      rw [phaseSound_idle (Or.inl hp)] at h
      exact absurd (h k) hat.not_idle
  | raised =>
    rw [phaseSound_idle (Or.inr hp)] at h
    exact absurd (h k) hat.not_idle
  | releasing => exact phaseSound_releasing (by simpa using hp)

theorem PhaseSound.move (h : PhaseSound client op x) {k : Bytes} {c : LockCall} {st : Stage}
    {p : Pc} (hat : At client ⟨op,k,0⟩ c st)
    (hpc : client'.pc = Function.update client.pc ⟨op,k,0⟩ p) (hne : p ≠ .idle)
    (hat' : ∀ c' st', At client' ⟨op,k,0⟩ c' st' → c' = c ∧ (st' = st ∨ st.acquiring = true))
    (hg : ∀ k', (∀ col, k' = k → st ≠ .release col) → Granted client x.kind op k' →
      Granted client' x.kind op k') :
    PhaseSound client' op x := by
  have hother : ∀ {k' c' st'}, k' ≠ k → At client' ⟨op,k',0⟩ c' st' → At client ⟨op,k',0⟩ c' st' :=
    fun hk => (at_congr (by rw [hpc,Function.update_of_ne (by simpa using hk)])).mp
  cases hp : x.phase with
  | locking =>
    rw [phaseSound_locking hp] at h ⊢
    obtain ⟨r,-,rfl,-,rfl⟩ := h.running k c st hat
    refine h.move hpc hat.not_idle hne (fun c' st' hk => ?_) fun k hk => hg k fun _ heq => absurd heq hk
    obtain ⟨rfl,-⟩ := hat' c' st' hk
    exact ⟨st,hat⟩
  | unlocking =>
    rw [phaseSound_unlocking hp] at h ⊢
    refine ⟨h.pending,fun k' c' st' hk => ?_⟩
    by_cases hkk : k' = k
    · subst hkk
      obtain ⟨rfl,rfl | hst⟩ := hat' c' st' hk
      · exact h.running k' c' st' hat
      · rw [(h.running k' c' st hat).1] at hst
        cases hst
    · exact h.running k' c' st' (hother hkk hk)
  | returned all =>
    cases all with
    | true =>
      rw [phaseSound_returned hp] at h ⊢
      have hrenew := (h.2 k c st hat).2
      refine ⟨fun r hr => hg _ (fun col _ heq => ?_) (h.1 r hr),fun k' c' st' hk => ?_⟩
      · rw [hrenew] at heq
        cases heq
      · by_cases hkk : k' = k
        · subst hkk
          obtain ⟨rfl,rfl | hst⟩ := hat' c' st' hk
          · exact h.2 k' c' st' hat
          · rw [hrenew] at hst
            cases hst
        · exact h.2 k' c' st' (hother hkk hk)
    | false =>
      rw [phaseSound_idle (Or.inl hp)] at h
      exact absurd (h k) hat.not_idle
  | raised =>
    rw [phaseSound_idle (Or.inr hp)] at h
    exact absurd (h k) hat.not_idle
  | releasing => exact phaseSound_releasing hp

end Phases

section Client

variable {lockExpiry : ℤ} {s u : HBase.State} {a : HBase.Action} {es : List LockEvent}
  {calls : ℕ → Option Call} {op : ℕ} {i : Caller} {c : LockCall} {x : Call}

theorem step_start (hs : HBase.step lockExpiry s (.start i c) = some (es,u)) :
    s.pc i = .idle ∧ es = [.call i c] ∧ u = s.setPc i (.waiting c (firstRequest s.now c)) := by
  rcases HBase.step_cases hs with ⟨d,ha,-,-⟩ | ⟨j,c',ha,hidle,-,rfl,rfl⟩ | ⟨j,c',st,ha,-,-,-⟩ |
    ⟨j,c',st,r,ha,-,-,-⟩
  · cases ha
  · cases ha
    exact ⟨hidle,rfl,rfl⟩
  · cases ha
  · cases ha

theorem caller_of_ret {b : Bool} (hs : HBase.step lockExpiry s a = some (es,u))
    (hret : .ret i c b ∈ es) : a = .resume i := by
  rcases HBase.step_cases hs with ⟨d,-,rfl,-⟩ | ⟨j,c',-,-,-,rfl,-⟩ | ⟨j,c',st,-,-,rfl,-⟩ |
    ⟨j,c',st,r,rfl,-,rfl,-⟩
  · cases hret
  · simp at hret
  · simp only [serveCall,servedEvents] at hret
    split at hret <;> simp at hret
  · simp only [resumeCall] at hret
    split at hret
    · cases hret
    · simp only [List.mem_singleton,LockEvent.ret.injEq] at hret
      rw [hret.1]

theorem foldl_collect_of_ne (h : ∀ i c b, .ret i c b ∈ es → i.operationId ≠ op) :
    es.foldl collect calls op = calls op := by
  induction es generalizing calls with
  | nil => rfl
  | cons e es ih =>
    rw [List.foldl_cons,ih fun i c b hm => h i c b (List.mem_cons_of_mem _ hm)]
    cases e with
    | call i c => rfl
    | released i col => rfl
    | ret i c b => exact collect_ret_of_ne calls (h i c b List.mem_cons_self).symm c b

theorem collect_eq_none (e : LockEvent) : collect calls e op = none ↔ calls op = none := by
  cases e with
  | call i c => exact Iff.rfl
  | released i col => exact Iff.rfl
  | ret i c b =>
    by_cases hop : op = i.operationId
    · subst hop
      rw [collect_ret_self,Option.map_eq_none_iff]
    · rw [collect_ret_of_ne calls hop]

theorem foldl_collect_eq_none : es.foldl collect calls op = none ↔ calls op = none := by
  induction es generalizing calls with
  | nil => exact Iff.rfl
  | cons e es ih => exact ih.trans (collect_eq_none e)

theorem granted_of_answer (hp : PutsOwn s) {k : Bytes} {kind : LockKind} {r : ℕ} {st : Stage}
    {res : Response} (hpc : s.pc ⟨op,k,0⟩ = .answered (kind.lock r) st res)
    (hn : next lockExpiry s.now (kind.lock r) res st = .ret true) :
    Granted (resumeCall lockExpiry s ⟨op,k,0⟩ (kind.lock r) st res).2 kind op k := by
  have hfits := hp.fits_answered _ _ _ _ hpc
  cases kind with
  | temporal =>
    obtain ⟨ts,rfl,-⟩ := hfits.read_of_ret rfl hn
    simp [Granted,resumeCall,hn,State.setPc,State.setHold,holdReturned]
  | indefinite =>
    obtain ⟨ts,rfl,hr⟩ := hfits.put_of_ret rfl hn
    simpa [Granted,indefiniteVersions] using hp.owned _ _ _ _ hpc hr

end Client

section Steps

variable {lockExpiry : ℤ} {callers : ℕ → Bool} {s u : State} {v : HBase.State}
  {a : HBase.Action} {es : List LockEvent} {op : ℕ} {x : Call}

theorem firstRequest_of_renew {c : LockCall} (hc : c.role = .renew) (now : ℤ) :
    firstRequest now c = .renew := by
  cases c <;> first | rfl | cases hc

theorem PhaseSound.renew (h : PhaseSound s.client op x) (hp : x.phase = .returned true) {k : Bytes}
    {c : LockCall} (hc : c.role = .renew) :
    PhaseSound (s.client.setPc ⟨op,k,0⟩ (.waiting c (firstRequest s.client.now c))) op x := by
  rw [phaseSound_returned hp] at h ⊢
  refine ⟨h.1,fun k' c' st hat => ?_⟩
  by_cases hk : k' = k
  · subst hk
    rcases hat with hat | ⟨r,hat⟩
    · simp only [State.setPc_pc_self,Pc.waiting.injEq] at hat
      obtain ⟨rfl,rfl⟩ := hat
      exact ⟨hc,firstRequest_of_renew hc _⟩
    · simp at hat
  · exact h.2 k' c' st ((at_congr (State.setPc_pc_of_ne (by simpa using hk))).mp hat)

theorem PhaseSound.serve (h : PhaseSound s.client op x) (hp : PutsOwn s.client) {k : Bytes}
    {c : LockCall} {st : Stage} (hpc : s.client.pc ⟨op,k,0⟩ = .waiting c st) :
    PhaseSound (serveCall s.client ⟨op,k,0⟩ c st).2 op x := by
  have hs : HBase.step 0 s.client (.serve ⟨op,k,0⟩) =
      some (serveCall s.client ⟨op,k,0⟩ c st) := by
    simp [HBase.step,hpc]
  refine h.move (Or.inl hpc) rfl (by simp) (fun c' st' hat => ?_) fun k' hrel hk =>
    hk.step hp hs fun c' col ha hw => ?_
  · rcases hat with hat | ⟨r,hat⟩
    · simp [serveCall] at hat
    · simp only [serveCall,State.setPc_pc_self,Pc.answered.injEq] at hat
      exact ⟨hat.1.symm,Or.inl hat.2.1.symm⟩
  · cases ha
    rw [hpc] at hw
    cases hw
    exact hrel col rfl rfl

theorem PhaseSound.resume (h : PhaseSound s.client op x) (hp : PutsOwn s.client) {k : Bytes}
    {c : LockCall} {st : Stage} {r : Response} (hx : s.calls op = some x)
    (hpc : s.client.pc ⟨op,k,0⟩ = .answered c st r) :
    ∃ y, (resumeCall lockExpiry s.client ⟨op,k,0⟩ c st r).1.foldl collect s.calls op = some y ∧
      PhaseSound (resumeCall lockExpiry s.client ⟨op,k,0⟩ c st r).2 op y := by
  have hs : HBase.step lockExpiry s.client (.resume ⟨op,k,0⟩) =
      some (resumeCall lockExpiry s.client ⟨op,k,0⟩ c st r) := by
    simp [HBase.step,hpc]
  have hg : ∀ k', Granted s.client x.kind op k' →
      Granted (resumeCall lockExpiry s.client ⟨op,k,0⟩ c st r).2 x.kind op k' := fun k' hk =>
    hk.step hp hs fun c' col ha => by cases ha
  cases hn : next lockExpiry s.client.now c r st with
  | send st' =>
    have hpc' : (resumeCall lockExpiry s.client ⟨op,k,0⟩ c st r).2.pc =
        Function.update s.client.pc ⟨op,k,0⟩ (.waiting c st') := by
      simp only [resumeCall,hn,State.setPc]
    refine ⟨x,by simp only [resumeCall,hn]; exact hx,h.move (Or.inr ⟨r,hpc⟩) hpc' (by simp)
      (fun c' st'' hat => ?_) fun k' _ => hg k'⟩
    rcases hat with hat | ⟨r',hat⟩
    · simp only [hpc',Function.update_self,Pc.waiting.injEq] at hat
      exact ⟨hat.1.symm,Or.inr (acquiring_of_send hn).1⟩
    · simp [hpc'] at hat
  | ret b =>
    refine ⟨addResult x c b,by simp [resumeCall,hn,collect,hx],
      h.finish (Or.inr ⟨r,hpc⟩) (by simp only [resumeCall,hn,State.setPc,State.setHold]) hg ?_⟩
    rintro rfl root rfl
    exact granted_of_answer hp hpc hn

theorem PhaseSound.client (h : PhaseSound s.client op x) (hp : PutsOwn s.client)
    (hx : s.calls op = some x) (hop : callers op = true) (hok : sequential s.client a)
    (hperm : Permitted callers s a) (hs : HBase.step lockExpiry s.client a = some (es,v)) :
    ∃ y, es.foldl collect s.calls op = some y ∧ PhaseSound v op y := by
  by_cases hmine : ∃ i, a.caller = some i ∧ i.operationId = op
  · obtain ⟨⟨o,k,thread⟩,hi,rfl⟩ := hmine
    rcases HBase.step_cases hs with ⟨d,rfl,-,-⟩ | ⟨j,c,rfl,hidle,-,rfl,rfl⟩ |
      ⟨j,c,st,rfl,hpc,rfl,rfl⟩ | ⟨j,c,st,r,rfl,hpc,rfl,rfl⟩
    · cases hi
    · cases hi
      obtain rfl : thread = 0 := hok
      rcases hperm with hperm | ⟨hc,hphase⟩
      · rw [hop] at hperm
        cases hperm
      · rw [hx] at hphase
        exact ⟨x,hx,h.renew (Option.some.inj hphase) hc⟩
    · cases hi
      obtain rfl : thread = 0 := hp.thread ⟨o,k,thread⟩ (by simp [hpc])
      refine ⟨x,?_,h.serve hp hpc⟩
      rw [foldl_collect_of_ne fun i c' b hm => (nomatch caller_of_ret hs hm),hx]
    · cases hi
      obtain rfl : thread = 0 := hp.thread ⟨o,k,thread⟩ (by simp [hpc])
      exact h.resume hp hx hpc
  · have hne : ∀ i, a.caller = some i → i.operationId ≠ op := fun i hi heq => hmine ⟨i,hi,heq⟩
    refine ⟨x,?_,h.frame (fun k => step_pc_of_ne hs fun hi => hne _ hi rfl) fun k hk =>
      hk.step hp hs fun c col ha => absurd rfl (hne ⟨op,k,0⟩ (by rw [ha]; rfl))⟩
    rw [foldl_collect_of_ne fun i c b hm => hne i (caller_of_ret hs hm ▸ rfl),hx]

/-- An exception counts as `False`. -/
theorem PhaseSound.raise (h : PhaseSound s.client op x) {k : Bytes} {c : LockCall} {st : Stage}
    (hat : At s.client ⟨op,k,0⟩ c st) :
    PhaseSound (s.client.setPc ⟨op,k,0⟩ .idle) op (addResult x c false) :=
  h.finish hat rfl (fun _ hk => hk) fun hb => by cases hb

end Steps

end LockRoots
end HBase
end KvdbClient
