import KvdbClient.HBaseSingleOwner

/-! Mutual exclusion of the temporal lock over interleaved HBase requests. -/
namespace KvdbClient
namespace HBase

open Lease Transition

def Unexpired (lockExpiry now ts : ℤ) : Prop := now ≤ hbaseTsToDatetime ts + lockExpiry

instance (lockExpiry now ts : ℤ) : Decidable (Unexpired lockExpiry now ts) :=
  inferInstanceAs (Decidable (_ ≤ _))

def Holds (lockExpiry : ℤ) (s : State) (op : ℕ) (k : Bytes) : Prop :=
  ∃ ts, s.hold op k = some ts ∧ Unexpired lockExpiry s.now ts

def MutualExclusion (lockExpiry : ℤ) (s : State) : Prop :=
  ∀ k o p, Holds lockExpiry s o k → Holds lockExpiry s p k → o = p

/-- The lock column is empty, or its newest version is the operation's own or expired. -/
def Deletable (lockExpiry now : ℤ) (op : ℕ) (vs : Versions) : Prop :=
  ∀ n ∈ vs.list.head?, n.value = uint64String op ∨ ¬ Unexpired lockExpiry now n.ts

instance (lockExpiry now : ℤ) (op : ℕ) (vs : Versions) :
    Decidable (Deletable lockExpiry now op vs) :=
  inferInstanceAs (Decidable (∀ n ∈ _, _ ∨ _))

def Pc.deleting : Pc → Bool
  | .waiting _ .acquireDelete | .waiting _ .rollbackDelete => true
  | _ => false

/-- The clients of a row are sequential, and an unconditional delete reaches a deletable
column. -/
def deletesDeletable (lockExpiry : ℤ) (s : State) : Action → Prop
  | .start i _ => i.thread = 0
  | .serve i => (s.pc i).deleting = true →
    Deletable lockExpiry s.now i.operationId (s.table i.rowKey Concurrency.lock.toColumn)
  | _ => True

instance (lockExpiry : ℤ) (s : State) (a : Action) : Decidable (deletesDeletable lockExpiry s a) :=
  match a with
  | .tick _ => inferInstanceAs (Decidable True)
  | .start i _ => inferInstanceAs (Decidable (i.thread = 0))
  | .serve i => inferInstanceAs (Decidable ((s.pc i).deleting = true → _))
  | .resume _ => inferInstanceAs (Decidable True)

/-- The put a call will hold the row by, once it returns `True`. -/
def Pc.claim : Pc → Option ℤ
  | .answered _ (.acquirePut ts) r => if r.success then some ts else none
  | .waiting _ (.readIndefinite ts) | .answered _ (.readIndefinite ts) _ => some ts
  | _ => none

/-- Points a call reaches only after an earlier hold of its operation has expired. -/
def Pc.lapsed : Pc → Bool
  | .answered _ (.acquirePut _) r => r.success
  | .waiting _ (.readIndefinite _) | .answered _ (.readIndefinite _) _ => true
  | .waiting _ .acquireDelete | .waiting _ .rollbackDelete => true
  | _ => false

/-- What is kept for one operation on one row: unexpired holds and claims are backed by a version,
and the operation judges stale only what is newer than its hold. -/
structure Sound (lockExpiry now : ℤ) (op : ℕ) (vs : Versions) (pc : Pc) (hold : Option ℤ) :
    Prop where
  backed : ∀ ts, hold = some ts ∨ pc.claim = some ts → Unexpired lockExpiry now ts →
    Backed vs.grants (uint64String op) ts
  lapsed : pc.lapsed = true → ∀ ts, hold = some ts → ¬ Unexpired lockExpiry now ts
  judged : ∀ c r, pc = .answered c .acquireRead r → ∀ v ∈ r.cells.head?, ∀ ts, hold = some ts →
    Unexpired lockExpiry now ts → ts ≤ v.ts

structure Invariant (lockExpiry : ℤ) (s : State) : Prop where
  single : SingleOwner s.table
  thread : ∀ i, s.pc i ≠ .idle → i.thread = 0
  sound : ∀ op k, Sound lockExpiry s.now op (s.table k Concurrency.lock.toColumn)
    (s.pc ⟨op,k,0⟩) (s.hold op k)

section Sound

variable {lockExpiry now now' : ℤ} {op : ℕ} {vs ws : Versions} {pc : Pc} {hold : Option ℤ}

theorem Unexpired.earlier {ts : ℤ} (h : Unexpired lockExpiry now' ts) (hle : now ≤ now') :
    Unexpired lockExpiry now ts := hle.trans h

theorem Unexpired.newer {ts ts' : ℤ} (h : Unexpired lockExpiry now ts) (hle : ts ≤ ts') :
    Unexpired lockExpiry now ts' := by
  simp only [Unexpired,hbaseTsToDatetime] at h ⊢
  omega

theorem not_backed_of_nil (h : vs.list = []) {o : Bytes} {ts : ℤ} : ¬ Backed vs.grants o ts := by
  rintro ⟨g,hg,-⟩
  simp [Versions.grants_eq_empty h] at hg

theorem Sound.later (h : Sound lockExpiry now op vs pc hold) (hle : now ≤ now') :
    Sound lockExpiry now' op vs pc hold where
  backed ts hts hun := h.backed ts hts (hun.earlier hle)
  lapsed hl ts hts hun := h.lapsed hl ts hts (hun.earlier hle)
  judged c r hpc v hv ts hts hun := h.judged c r hpc v hv ts hts (hun.earlier hle)

theorem Sound.column (h : Sound lockExpiry now op vs pc hold)
    (hb : ∀ ts, Unexpired lockExpiry now ts → Backed vs.grants (uint64String op) ts →
      Backed ws.grants (uint64String op) ts) :
    Sound lockExpiry now op ws pc hold :=
  ⟨fun ts hts hun => hb ts hun (h.backed ts hts hun),h.lapsed,h.judged⟩

theorem Sound.goto (h : Sound lockExpiry now op vs pc hold) {p : Pc}
    (hc : ∀ ts, p.claim = some ts → pc.claim = some ts) (hl : p.lapsed = true → pc.lapsed = true)
    (hj : ∀ c r, p ≠ .answered c .acquireRead r) : Sound lockExpiry now op vs p hold where
  backed ts hts hun := h.backed ts (hts.imp_right (hc ts)) hun
  lapsed hl' := h.lapsed (hl hl')
  judged c r hpc := absurd hpc (hj c r)

theorem Sound.returned (h : Sound lockExpiry now op vs pc hold) {ts : ℤ}
    (hts : pc.claim = some ts) : Sound lockExpiry now op vs .idle (some ts) where
  backed ts' hts' hun := by
    rcases hts' with hts' | hts'
    · cases hts'
      exact h.backed ts (Or.inr hts) hun
    · cases hts'
  lapsed hl := by cases hl
  judged c r hpc := by cases hpc

end Sound

namespace Invariant

variable {lockExpiry : ℤ} {s : State}

theorem of_init (h : (machine lockExpiry).init s) : Invariant lockExpiry s where
  single := singleOwner_of_init h
  thread i hi := absurd (h.2.1 i) hi
  sound op k := by
    rw [h.2.1,h.2.2]
    exact ⟨by simp [Pc.claim],by simp [Pc.lapsed],by simp⟩

theorem mutualExclusion (h : Invariant lockExpiry s) : MutualExclusion lockExpiry s := by
  rintro k o p ⟨t,ht,hnt⟩ ⟨u,hu,hnu⟩
  obtain ⟨g,hg,hown,-⟩ := (h.sound p k).backed u (Or.inl hu) hnu
  have howner := (h.single k _ (Or.inl rfl)).owner_of_backed hg
    ((h.sound o k).backed t (Or.inl ht) hnt)
  exact uint64String_injective (howner.trans hown)

/-- One operation moves on one row. The others keep what backs them. -/
theorem move (h : Invariant lockExpiry s) {op : ℕ} {k : Bytes} {t : Table} {pc : Pc}
    {hold : Option ℤ} (hsingle : SingleOwner t)
    (hrows : ∀ r, r ≠ k → t r Concurrency.lock.toColumn = s.table r Concurrency.lock.toColumn)
    (hothers : ∀ o ts, o ≠ op → Unexpired lockExpiry s.now ts →
      Backed (s.table k Concurrency.lock.toColumn).grants (uint64String o) ts →
      Backed (t k Concurrency.lock.toColumn).grants (uint64String o) ts)
    (hown : Sound lockExpiry s.now op (t k Concurrency.lock.toColumn) pc hold) :
    Invariant lockExpiry
      ⟨s.now,t,Function.update s.pc ⟨op,k,0⟩ pc,setEntry s.hold op k hold⟩ where
  single := hsingle
  thread i hi := by
    by_cases hik : i = ⟨op,k,0⟩
    · rw [hik]
    · exact h.thread i (by simpa only [Function.update_of_ne hik] using hi)
  sound o r := by
    by_cases hor : o = op ∧ r = k
    · obtain ⟨rfl,rfl⟩ := hor
      simpa using hown
    · have hne : (⟨o,r,0⟩ : Caller) ≠ ⟨op,k,0⟩ := fun heq => hor (by cases heq; exact ⟨rfl,rfl⟩)
      simp only [setEntry_of_ne hor,Function.update_of_ne hne]
      by_cases hr : r = k
      · subst hr
        exact (h.sound o r).column fun ts hun hb => hothers o ts (fun ho => hor ⟨ho,rfl⟩) hun hb
      · rw [hrows r hr]
        exact h.sound o r

/-- The call looked at something and goes on; the table stays. -/
theorem keep (h : Invariant lockExpiry s) {op : ℕ} {k : Bytes} {p : Pc} {hold : Option ℤ}
    (hown : Sound lockExpiry s.now op (s.table k Concurrency.lock.toColumn) p hold) :
    Invariant lockExpiry
      ⟨s.now,s.table,Function.update s.pc ⟨op,k,0⟩ p,setEntry s.hold op k hold⟩ :=
  h.move h.single (fun _ _ => rfl) (fun _ _ _ _ hb => hb) hown

/-- The lock column of a row is rewritten under a version of the operation, so nobody else has a
backed hold on it. -/
theorem rewrite (h : Invariant lockExpiry s) {op : ℕ} {k : Bytes} {vs : Versions} {n : Version}
    {pc : Pc} {hold : Option ℤ}
    (hn : (s.table k Concurrency.lock.toColumn).list.head? = some n)
    (hv : n.value = uint64String op) (hvs : SoleOwner vs.grants)
    (hown : Sound lockExpiry s.now op vs pc hold) :
    Invariant lockExpiry ⟨s.now,s.table.set k Concurrency.lock.toColumn vs,
      Function.update s.pc ⟨op,k,0⟩ pc,setEntry s.hold op k hold⟩ := by
  refine h.move (h.single.set fun _ => hvs) (fun r hr => Table.set_of_ne fun hc => hr hc.1)
    (fun o ts ho _ hb => ?_) (by simpa using hown)
  have howner := (h.single k _ (Or.inl rfl)).owner_of_backed (Versions.newest_mem hn) hb
  exact absurd (uint64String_injective (howner.trans hv)) ho

/-- A column that nobody has a backed hold on is replaced. -/
theorem replace (h : Invariant lockExpiry s) {op : ℕ} {k : Bytes} {vs : Versions} {pc : Pc}
    {hold : Option ℤ} (hvs : SoleOwner vs.grants)
    (hnone : ∀ o ts, o ≠ op → Unexpired lockExpiry s.now ts →
      ¬ Backed (s.table k Concurrency.lock.toColumn).grants (uint64String o) ts)
    (hown : Sound lockExpiry s.now op vs pc hold) :
    Invariant lockExpiry ⟨s.now,s.table.set k Concurrency.lock.toColumn vs,
      Function.update s.pc ⟨op,k,0⟩ pc,setEntry s.hold op k hold⟩ :=
  h.move (h.single.set fun _ => hvs) (fun r hr => Table.set_of_ne fun hc => hr hc.1)
    (fun o ts ho hun hb => absurd hb (hnone o ts ho hun)) (by simpa using hown)

/-- The lock columns stay when another column is written. -/
theorem elsewhere (h : Invariant lockExpiry s) {op : ℕ} {k : Bytes} {col : Column} {vs : Versions}
    {pc : Pc} {hold : Option ℤ} (hcol : col ≠ Concurrency.lock.toColumn)
    (hsingle : SingleOwner (s.table.set k col vs))
    (hown : Sound lockExpiry s.now op (s.table k Concurrency.lock.toColumn) pc hold) :
    Invariant lockExpiry ⟨s.now,s.table.set k col vs,
      Function.update s.pc ⟨op,k,0⟩ pc,setEntry s.hold op k hold⟩ := by
  have hsame : ∀ r, s.table.set k col vs r Concurrency.lock.toColumn =
      s.table r Concurrency.lock.toColumn := fun r => Table.set_of_ne fun hc => hcol hc.2.symm
  refine h.move hsingle (fun r _ => hsame r) (fun o ts _ _ hb => ?_) ?_
  · rwa [hsame]
  · rwa [hsame]

/-- On a deletable column nobody but the deleting operation has an unexpired backed hold. -/
theorem not_backed_of_deletable (h : Invariant lockExpiry s) {op o : ℕ} {k : Bytes} {ts : ℤ}
    (hdel : Deletable lockExpiry s.now op (s.table k Concurrency.lock.toColumn)) (ho : o ≠ op)
    (hun : Unexpired lockExpiry s.now ts) :
    ¬ Backed (s.table k Concurrency.lock.toColumn).grants (uint64String o) ts := by
  intro hb
  cases hn : (s.table k Concurrency.lock.toColumn).list.head? with
  | none => exact not_backed_of_nil (List.head?_eq_none_iff.mp hn) hb
  | some n =>
    rcases hdel n hn with hv | hexp
    · have howner := (h.single k _ (Or.inl rfl)).owner_of_backed (Versions.newest_mem hn) hb
      exact ho (uint64String_injective (howner.trans hv))
    · obtain ⟨g,hg,-,hts⟩ := hb
      exact hexp (hun.newer (hts.trans (Versions.stamp_le_of_head hn hg)))

end Invariant

section Serve

variable {lockExpiry : ℤ} {s : State} {op : ℕ} {k : Bytes} {c : LockCall}

/-- The served put of an acquire: on an empty column it backs the claim it makes. -/
theorem Invariant.serve_acquirePut (h : Invariant lockExpiry s) {ts : ℤ}
    (hpc : s.pc ⟨op,k,0⟩ = .waiting c (.acquirePut ts)) :
    Invariant lockExpiry (serveCall s ⟨op,k,0⟩ c (.acquirePut ts)).2 := by
  have hs := h.sound op k
  rw [hpc] at hs
  rcases serve_putAbsent s.now s.table k Concurrency.lock.toColumn (uint64String op) ts with
    ⟨he,-⟩ | ⟨he,hnil⟩
  · simp only [serveCall,Stage.request,he]
    exact h.keep (hs.goto (by simp [Pc.claim]) (by simp [Pc.lapsed]) (by simp))
  · simp only [serveCall,Stage.request,he]
    have hgrants : ((s.table k Concurrency.lock.toColumn).insertCell
        ⟨uint64String op,ts⟩).grants = {⟨uint64String op,ts⟩} := by
      rw [Versions.grants_insertCell,Versions.grants_eq_empty hnil,insert_empty_eq]
    refine h.replace (hgrants ▸ soleOwner_singleton _) (fun _ _ _ _ => not_backed_of_nil hnil)
      ⟨?_,?_,by simp⟩
    · rintro ts' (hts | hts) hun
      · exact absurd (hs.backed ts' (Or.inl hts) hun) (not_backed_of_nil hnil)
      · simp only [Pc.claim,if_true,Option.some.injEq] at hts
        exact ⟨⟨uint64String op,ts⟩,by simp [hgrants],rfl,hts.ge⟩
    · intro _ ts' hts hun
      exact not_backed_of_nil hnil (hs.backed ts' (Or.inl hts) hun)

theorem Invariant.serve_acquireRead (h : Invariant lockExpiry s)
    (hpc : s.pc ⟨op,k,0⟩ = .waiting c .acquireRead) :
    Invariant lockExpiry (serveCall s ⟨op,k,0⟩ c .acquireRead).2 := by
  have hs := h.sound op k
  rw [hpc] at hs
  refine h.keep ⟨fun ts hts => ?_,by simp [Pc.lapsed],?_⟩
  · exact hs.backed ts (hts.imp_right fun hc => by simp [Pc.claim] at hc)
  · rintro c' r hr v hv ts hts hun
    cases hr
    obtain ⟨g,hg,-,hle⟩ := hs.backed ts (Or.inl hts) hun
    exact hle.trans (Versions.stamp_le_of_head hv hg)

theorem Invariant.serve_delete (h : Invariant lockExpiry s) {st : Stage}
    (hst : st = .acquireDelete ∨ st = .rollbackDelete)
    (hpc : s.pc ⟨op,k,0⟩ = .waiting c st)
    (hdel : Deletable lockExpiry s.now op (s.table k Concurrency.lock.toColumn)) :
    Invariant lockExpiry (serveCall s ⟨op,k,0⟩ c st).2 := by
  have hs := h.sound op k
  rw [hpc] at hs
  rcases hst with rfl | rfl
  all_goals
    refine h.replace (by simpa using soleOwner_empty)
      (fun o ts ho hun => h.not_backed_of_deletable hdel ho hun) ⟨?_,by simp [Pc.lapsed],by simp⟩
    rintro ts (hts | hts) hun
    · exact absurd hun (hs.lapsed rfl ts hts)
    · simp [Pc.claim] at hts

theorem Invariant.serve_putIndefinite (h : Invariant lockExpiry s) {ts : ℤ}
    (hpc : s.pc ⟨op,k,0⟩ = .waiting c (.putIndefinite ts)) :
    Invariant lockExpiry (serveCall s ⟨op,k,0⟩ c (.putIndefinite ts)).2 := by
  have hs := h.sound op k
  rw [hpc] at hs
  have hown : ∀ r, Sound lockExpiry s.now op (s.table k Concurrency.lock.toColumn)
      (.answered c (.putIndefinite ts) r) (s.hold op k) := fun r =>
    hs.goto (by simp [Pc.claim]) (by simp [Pc.lapsed]) (by simp)
  have hsingle := h.single.putAbsent s.now k Concurrency.indefiniteLock.toColumn (uint64String op) ts
  rcases serve_putAbsent s.now s.table k Concurrency.indefiniteLock.toColumn (uint64String op) ts with
    ⟨he,-⟩ | ⟨he,-⟩
  · simp only [serveCall,Stage.request,he]
    exact h.keep (hown _)
  · rw [he] at hsingle
    simp only [serveCall,Stage.request,he]
    exact h.elsewhere lock_ne_indefiniteLock.symm hsingle (hown _)

theorem Invariant.serve_release (h : Invariant lockExpiry s) {col : Column}
    (hpc : s.pc ⟨op,k,0⟩ = .waiting c (.release col)) :
    Invariant lockExpiry (serveCall s ⟨op,k,0⟩ c (.release col)).2 := by
  have hs := h.sound op k
  rw [hpc] at hs
  have hown : ∀ r, Sound lockExpiry s.now op (s.table k Concurrency.lock.toColumn)
      (.answered c (.release col) r) (s.hold op k) := fun r =>
    hs.goto (by simp [Pc.claim]) (by simp [Pc.lapsed]) (by simp)
  rcases serve_checkAndDelete s.now s.table k col (uint64String op) with ⟨he,-⟩ | ⟨he,n,hn,hv⟩
  · simp only [serveCall,Stage.request,he]
    exact h.keep (hown _)
  · simp only [serveCall,Stage.request,he]
    by_cases hcol : col = Concurrency.lock.toColumn
    · subst hcol
      refine h.rewrite hn hv (by simpa using soleOwner_empty) ⟨?_,by simp [Pc.lapsed],by simp⟩
      rintro ts (hts | hts)
      · simp [holdServed] at hts
      · simp [Pc.claim] at hts
    · have hhold : holdServed s.now (.release col) true (s.hold op k) = s.hold op k := if_neg hcol
      exact h.elsewhere hcol (h.single.set_empty k col) (by simpa only [hhold] using hown _)

theorem Invariant.serve_renew (h : Invariant lockExpiry s)
    (hpc : s.pc ⟨op,k,0⟩ = .waiting c .renew) :
    Invariant lockExpiry (serveCall s ⟨op,k,0⟩ c .renew).2 := by
  have hs := h.sound op k
  rw [hpc] at hs
  rcases serve_putOwn s.now s.table k Concurrency.lock.toColumn (uint64String op) with
    ⟨he,-⟩ | ⟨he,n,hn,hv⟩
  · simp only [serveCall,Stage.request,he]
    exact h.keep (hs.goto (by simp [Pc.claim]) (by simp [Pc.lapsed]) (by simp))
  · simp only [serveCall,Stage.request,he]
    have hgrants := (s.table k Concurrency.lock.toColumn).grants_insertCell
      ⟨uint64String op,nowMs s.now⟩
    have hsole := (h.single k _ (Or.inl rfl)).insert (k := ⟨uint64String op,nowMs s.now⟩)
      (Versions.newest_mem hn) hv.symm
    refine h.rewrite hn hv (hgrants ▸ hsole) ⟨?_,by simp [Pc.lapsed],by simp⟩
    rintro ts (hts | hts) hun
    · simp only [holdServed,Option.some.injEq] at hts
      exact ⟨⟨uint64String op,nowMs s.now⟩,hgrants ▸ Or.inl rfl,rfl,hts.ge⟩
    · simp [Pc.claim] at hts

theorem Invariant.serve (h : Invariant lockExpiry s) {i : Caller} {st : Stage}
    (hok : deletesDeletable lockExpiry s (.serve i)) (hpc : s.pc i = .waiting c st) :
    Invariant lockExpiry (serveCall s i c st).2 := by
  have hthread := h.thread i (by simp [hpc])
  obtain ⟨op,k,thread⟩ := i
  obtain rfl : thread = 0 := hthread
  simp only [deletesDeletable,hpc] at hok
  cases st with
  | acquirePut ts => exact h.serve_acquirePut hpc
  | acquireRead => exact h.serve_acquireRead hpc
  | acquireDelete => exact h.serve_delete (Or.inl rfl) hpc (hok rfl)
  | readIndefinite ts =>
    have hs := h.sound op k
    rw [hpc] at hs
    exact h.keep (hs.goto (by simp [Pc.claim]) (by simp [Pc.lapsed]) (by simp))
  | rollbackDelete => exact h.serve_delete (Or.inr rfl) hpc (hok rfl)
  | putIndefinite ts => exact h.serve_putIndefinite hpc
  | release col => exact h.serve_release hpc
  | renew => exact h.serve_renew hpc

end Serve

section Resume

variable {lockExpiry : ℤ} {s : State} {op : ℕ} {k : Bytes} {c : LockCall} {r : Response}

theorem Sound.done {now : ℤ} {vs : Versions} {pc : Pc} {hold : Option ℤ}
    (h : Sound lockExpiry now op vs pc hold) : Sound lockExpiry now op vs .idle hold :=
  h.goto (by simp [Pc.claim]) (by simp [Pc.lapsed]) (by simp)

theorem Invariant.resume_acquirePut (h : Invariant lockExpiry s) {ts : ℤ}
    (hpc : s.pc ⟨op,k,0⟩ = .answered c (.acquirePut ts) r) :
    Invariant lockExpiry (resumeCall lockExpiry s ⟨op,k,0⟩ c (.acquirePut ts) r).2 := by
  have hs := h.sound op k
  rw [hpc] at hs
  cases hr : r.success with
  | false =>
    simp only [resumeCall,next,hr]
    have hsend := h.keep (hs.goto (p := .waiting c .acquireRead) (by simp [Pc.claim])
      (by simp [Pc.lapsed]) (by simp))
    simpa [State.setPc] using hsend
  | true =>
    have hclaim : (Pc.answered c (.acquirePut ts) r).claim = some ts := by simp [Pc.claim,hr]
    cases hg : c.guarded with
    | true =>
      simp only [resumeCall,next,hr,acquired,hg,if_true]
      have hsend := h.keep (hs.goto (p := .waiting c (.readIndefinite ts))
        (fun _ hts => hclaim.trans hts) (fun _ => hr) (by simp))
      simpa [State.setPc] using hsend
    | false =>
      simp only [resumeCall,next,hr,acquired,hg,if_true]
      exact h.keep (hs.returned hclaim)

/-- A version judged stale is at least as new as the hold of the operation, which has therefore
lapsed when the delete is sent. -/
theorem Invariant.resume_acquireRead (h : Invariant lockExpiry s)
    (hpc : s.pc ⟨op,k,0⟩ = .answered c .acquireRead r) :
    Invariant lockExpiry (resumeCall lockExpiry s ⟨op,k,0⟩ c .acquireRead r).2 := by
  have hs := h.sound op k
  rw [hpc] at hs
  cases hcells : r.cells with
  | nil =>
    simp only [resumeCall,next,hcells]
    exact h.keep hs.done
  | cons v rest =>
    by_cases hstale : s.now - hbaseTsToDatetime v.ts > lockExpiry
    · simp only [resumeCall,next,hcells,hstale,if_true]
      have hlapsed : ∀ ts, s.hold op k = some ts → ¬ Unexpired lockExpiry s.now ts := by
        intro ts hts hun
        have hnew := hun.newer (hs.judged c r rfl v (by simp [hcells]) ts hts hun)
        simp only [Unexpired] at hnew
        omega
      have hown : Sound lockExpiry s.now op (s.table k Concurrency.lock.toColumn)
          (.waiting c .acquireDelete) (s.hold op k) :=
        ⟨fun ts hts => hs.backed ts (hts.imp_right fun hc => by simp [Pc.claim] at hc),
          fun _ => hlapsed,by simp⟩
      have hsend := h.keep hown
      simpa [State.setPc] using hsend
    · simp only [resumeCall,next,hcells,hstale,if_false]
      exact h.keep hs.done

theorem Invariant.resume_readIndefinite (h : Invariant lockExpiry s) {ts : ℤ}
    (hpc : s.pc ⟨op,k,0⟩ = .answered c (.readIndefinite ts) r) :
    Invariant lockExpiry (resumeCall lockExpiry s ⟨op,k,0⟩ c (.readIndefinite ts) r).2 := by
  have hs := h.sound op k
  rw [hpc] at hs
  cases hr : r.cells.isEmpty with
  | true =>
    simp only [resumeCall,next,hr,if_true]
    exact h.keep (hs.returned rfl)
  | false =>
    simp only [resumeCall,next,hr]
    have hsend := h.keep (hs.goto (p := .waiting c .rollbackDelete) (by simp [Pc.claim])
      (fun _ => rfl) (by simp))
    simpa [State.setPc] using hsend

theorem Invariant.resume (h : Invariant lockExpiry s) {i : Caller} {st : Stage}
    (hpc : s.pc i = .answered c st r) : Invariant lockExpiry (resumeCall lockExpiry s i c st r).2 := by
  have hthread := h.thread i (by simp [hpc])
  obtain ⟨op,k,thread⟩ := i
  obtain rfl : thread = 0 := hthread
  cases st with
  | acquirePut ts => exact h.resume_acquirePut hpc
  | acquireRead => exact h.resume_acquireRead hpc
  | acquireDelete =>
    have hs := h.sound op k
    rw [hpc] at hs
    have hsend := h.keep (hs.goto (p := .waiting c (acquireLockCell s.now))
      (by simp [Pc.claim,acquireLockCell]) (by simp [Pc.lapsed,acquireLockCell]) (by simp))
    simpa [State.setPc,resumeCall,next] using hsend
  | readIndefinite ts => exact h.resume_readIndefinite hpc
  | rollbackDelete =>
    have hs := h.sound op k
    rw [hpc] at hs
    exact h.keep hs.done
  | putIndefinite ts =>
    have hs := h.sound op k
    rw [hpc] at hs
    exact h.keep hs.done
  | release col =>
    have hs := h.sound op k
    rw [hpc] at hs
    exact h.keep hs.done
  | renew =>
    have hs := h.sound op k
    rw [hpc] at hs
    exact h.keep hs.done

end Resume

section Runs

variable {lockExpiry : ℤ} {s u : State} {es : List LockEvent}

theorem Invariant.begin (h : Invariant lockExpiry s) {i : Caller} {c : LockCall}
    (hidle : s.pc i = .idle) (hthread : i.thread = 0) :
    Invariant lockExpiry (s.setPc i (.waiting c (firstRequest s.now c))) := by
  obtain ⟨op,k,thread⟩ := i
  obtain rfl : thread = 0 := hthread
  have hs := h.sound op k
  rw [hidle] at hs
  have hsend := h.keep (hs.goto (p := .waiting c (firstRequest s.now c))
    (by cases c <;> simp [Pc.claim,firstRequest,acquireLockCell])
    (by cases c <;> simp [Pc.lapsed,firstRequest,acquireLockCell]) (by simp))
  simpa [State.setPc] using hsend

theorem Invariant.of_step (h : Invariant lockExpiry s) {a : Action}
    (hok : deletesDeletable lockExpiry s a) (hs : step lockExpiry s a = some (es,u)) :
    Invariant lockExpiry u := by
  rcases step_cases hs with ⟨d,-,-,rfl⟩ | ⟨i,c,rfl,hidle,-,-,rfl⟩ | ⟨i,c,st,rfl,hpc,-,rfl⟩ |
    ⟨i,c,st,r,-,hpc,-,rfl⟩
  · exact ⟨h.single,h.thread,fun op k => (h.sound op k).later (by simp)⟩
  · exact h.begin hidle hok
  · exact h.serve hok hpc
  · exact h.resume hpc

/-- At most one operation holds a row as long as every unconditional delete reaches a column that
is empty, the deleter's own or expired. -/
theorem requests_mutualExclusion (lockExpiry : ℤ) {s : State}
    (h : Reachable (machine lockExpiry) (deletesDeletable lockExpiry) s) :
    MutualExclusion lockExpiry s :=
  Invariant.mutualExclusion <| Reachable.invariant h (fun _ => Invariant.of_init)
    fun _ _ _ _ hi hok hs => hi.of_step hok hs

end Runs

theorem requests_mutualExclusion_stolen :
    ∃ s, s.hold 2 sampleKey = some 181000 ∧ MutualExclusion threeMinutes s := by
  obtain ⟨tr,s,hrun,hhold⟩ := exists_exec (machine threeMinutes) (deletesDeletable threeMinutes)
    (s := start)
    (P := fun _ s => s.hold 2 sampleKey = some 181000)
    [.start (caller 1) (.lockByRowKey sampleKey),.serve (caller 1),.resume (caller 1),
      .tick 181000000,.start (caller 2) (.lockByRowKey sampleKey),.serve (caller 2),
      .resume (caller 2),.serve (caller 2),.resume (caller 2),.serve (caller 2),
      .resume (caller 2),.serve (caller 2),.resume (caller 2)] (by decide +kernel)
  exact ⟨s,hhold,requests_mutualExclusion threeMinutes ⟨_,_,start_init _,hrun⟩⟩

def temporalCalls (_ : State) : Action → Prop
  | .start i c => i.thread = 0 ∧ (c.role = .acquire ∨ c.role = .renew ∨ c.role = .release)
  | _ => True

instance (s : State) (a : Action) : Decidable (temporalCalls s a) :=
  match a with
  | .tick _ => inferInstanceAs (Decidable True)
  | .start i _ => inferInstanceAs (Decidable (i.thread = 0 ∧ _))
  | .serve _ => inferInstanceAs (Decidable True)
  | .resume _ => inferInstanceAs (Decidable True)

/-- Two operations both read an expired version. The first deletes it and acquires the row; the
second then deletes the version of the first and acquires the row as well. -/
theorem staleDelete_breaks_mutualExclusion :
    ¬ ∀ s, Reachable (machine threeMinutes) temporalCalls s → MutualExclusion threeMinutes s := by
  intro h
  obtain ⟨tr,s,hrun,h₂,h₃,hnow⟩ := exists_exec (machine threeMinutes) temporalCalls
    (s := start)
    (P := fun _ s => s.hold 2 sampleKey = some 181000 ∧ s.hold 3 sampleKey = some 181000 ∧
      Unexpired threeMinutes s.now 181000)
    [.start (caller 1) (.lockByRowKey sampleKey),.serve (caller 1),.resume (caller 1),
      .tick 181000000,.start (caller 2) (.lockByRowKey sampleKey),.serve (caller 2),
      .resume (caller 2),.serve (caller 2),.start (caller 3) (.lockByRowKey sampleKey),
      .serve (caller 3),.resume (caller 3),.serve (caller 3),.resume (caller 2),
      .resume (caller 3),.serve (caller 2),.resume (caller 2),.serve (caller 2),
      .resume (caller 2),.serve (caller 3),.resume (caller 3),.serve (caller 3),
      .resume (caller 3)] (by decide +kernel)
  have := h s ⟨_,_,start_init _,hrun⟩ sampleKey 2 3 ⟨_,h₂,hnow⟩ ⟨_,h₃,hnow⟩
  omega

end HBase
end KvdbClient
