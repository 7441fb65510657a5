import KvdbClient.BigTableLocks
import KvdbClient.Transition

/-! Runs of atomic BigTable lock calls under one clock, and mutual exclusion of the temporal
lock. -/
namespace KvdbClient
namespace BigTable

open Lease Transition

/-- `hold` is the time of an operation's last acquire or renewal of a row that returned `True`,
until it releases the row. -/
structure State where
  now : ℤ
  table : Table
  hold : ℕ → Bytes → Option ℤ

inductive Action
  | tick (elapsed : ℕ)
  | call (i : Caller) (c : LockCall)

def holdAfter (r : Role) (result : Bool) (now : ℤ) (hold : Option ℤ) : Option ℤ :=
  match r, result with
  | .acquire, true | .renew, true => some now
  | .release, true => none
  | _, _ => hold

def callEvents (i : Caller) (c : LockCall) (result : Bool) : List LockEvent :=
  .call i c :: (if result then c.role.released.toList.map (.released i) else []) ++ [.ret i c result]

def State.call (lockExpiry : ℤ) (s : State) (i : Caller) (c : LockCall) : Bool × State :=
  let r := exec lockExpiry s.now s.table i.operationId c
  (r.1,{ s with
    table := r.2
    hold := setEntry s.hold i.operationId i.rowKey
      (holdAfter c.role r.1 s.now (s.hold i.operationId i.rowKey)) })

def step (lockExpiry : ℤ) (s : State) : Action → Option (List LockEvent × State)
  | .tick d => some ([],{ s with now := s.now + d })
  | .call i c =>
    if c.rowKey = i.rowKey then
      let r := s.call lockExpiry i c
      some (callEvents i c r.1,r.2)
    else none

theorem step_call {lockExpiry : ℤ} {s u : State} {i : Caller} {c : LockCall} {es : List LockEvent}
    (hs : step lockExpiry s (.call i c) = some (es,u)) :
    c.rowKey = i.rowKey ∧ es = callEvents i c (s.call lockExpiry i c).1 ∧
      u = (s.call lockExpiry i c).2 := by
  simp only [step] at hs
  split at hs
  · rename_i hk
    cases hs
    exact ⟨hk,rfl,rfl⟩
  · exact absurd hs (by simp)

/-- Runs start without lock cells; the rows may hold anything else. -/
def machine (lockExpiry : ℤ) : Machine State Action LockEvent where
  init s := (∀ k, lockGrants (s.table k) = ∅ ∧ indefiniteGrants (s.table k) = ∅) ∧
    ∀ op k, s.hold op k = none
  step := step lockExpiry

def Holds (lockExpiry : ℤ) (s : State) (op : ℕ) (k : Bytes) : Prop :=
  ∃ t, s.hold op k = some t ∧ s.now ≤ t + lockExpiry

def MutualExclusion (lockExpiry : ℤ) (s : State) : Prop :=
  ∀ k o p, Holds lockExpiry s o k → Holds lockExpiry s p k → o = p

/-- The row has no lock version of the operation, or its newest one is the operation's own or
expired. -/
def Renewable (lockExpiry now : ℤ) (op : ℕ) (r : Row) : Prop :=
  (∀ x ∈ r.lockCells, x.value ≠ uint64String op) ∨ Uncontested lockExpiry now op r

instance (lockExpiry now : ℤ) (op : ℕ) (r : Row) : Decidable (Renewable lockExpiry now op r) :=
  inferInstanceAs (Decidable (_ ∨ _))

def renewsRenewable (lockExpiry : ℤ) (s : State) : Action → Prop
  | .call i c => c.role = .renew →
    Renewable lockExpiry s.now i.operationId (s.table i.rowKey)
  | _ => True

instance (lockExpiry : ℤ) (s : State) (a : Action) : Decidable (renewsRenewable lockExpiry s a) :=
  match a with
  | .call i c => inferInstanceAs (Decidable (c.role = .renew →
      Renewable lockExpiry s.now i.operationId (s.table i.rowKey)))
  | .tick _ => inferInstanceAs (Decidable True)

theorem Renewable.unopposed {lockExpiry now : ℤ} {op : ℕ} {r : Row}
    (h : Renewable lockExpiry now op r)
    (hex : Exclusive (timeCutoff now lockExpiry) (lockGrants r))
    (hown : (∃ g ∈ lockGrants r, g.owner = uint64String op) ∨ r.cells = []) :
    Unopposed (timeCutoff now lockExpiry) (uint64String op) (lockGrants r) := by
  rcases h with h | h
  · rcases hown with ⟨g,⟨x,hx,hcol,rfl⟩,hg⟩ | hnil
    · exact absurd hg (h x (Row.mem_lockCells.mpr ⟨hx,hcol⟩))
    · rintro g ⟨x,hx,-⟩
      simp [hnil] at hx
  · exact h.unopposed hex

/-- The live lock versions of a row have one owner, and an unexpired hold is backed by one. -/
structure Invariant (lockExpiry : ℤ) (s : State) : Prop where
  exclusive : ∀ k, Exclusive (timeCutoff s.now lockExpiry) (lockGrants (s.table k))
  backed : ∀ op k t, s.hold op k = some t → s.now ≤ t + lockExpiry →
    Backed (lockGrants (s.table k)) (uint64String op) (getValidTimestamp t)

namespace Invariant

variable {lockExpiry : ℤ} {s : State}

theorem of_init (h : (machine lockExpiry).init s) : Invariant lockExpiry s where
  exclusive k := by
    intro g hg
    simp [(h.1 k).1] at hg
  backed op k t ht := by simp [h.2] at ht

theorem live_of_holds (h : Invariant lockExpiry s) {op : ℕ} {k : Bytes}
    (hh : Holds lockExpiry s op k) :
    ∃ g ∈ lockGrants (s.table k), g.owner = uint64String op ∧
      Live (timeCutoff s.now lockExpiry) g := by
  obtain ⟨t,ht,hnow⟩ := hh
  exact (h.backed op k t ht hnow).live (timeCutoff_le_getValidTimestamp hnow)

theorem owner_of_holds (h : Invariant lockExpiry s) {o p : ℕ} {k : Bytes}
    (hun : Unopposed (timeCutoff s.now lockExpiry) (uint64String p) (lockGrants (s.table k)))
    (hh : Holds lockExpiry s o k) : o = p := by
  obtain ⟨g,hg,hown,hl⟩ := h.live_of_holds hh
  exact uint64String_injective (hown.symm.trans (hun g hg hl))

theorem mutualExclusion (h : Invariant lockExpiry s) : MutualExclusion lockExpiry s := by
  intro k o p ho hp
  obtain ⟨g,hg,hown,hl⟩ := h.live_of_holds hp
  have hun := (h.exclusive k).unopposed hg hl
  rw [hown] at hun
  exact h.owner_of_holds hun ho

theorem tick (h : Invariant lockExpiry s) (d : ℕ) :
    Invariant lockExpiry { s with now := s.now + d } where
  exclusive k := (h.exclusive k).mono (timeCutoff_mono lockExpiry (by simp))
  backed op k t ht hnow := h.backed op k t ht (by simp only at hnow; omega)

/-- Calls that leave the lock versions and the holds alone. -/
theorem frame (h : Invariant lockExpiry s) {t : Table} {hold : ℕ → Bytes → Option ℤ}
    (ht : ∀ k, lockGrants (t k) = lockGrants (s.table k)) (hh : ∀ o k, hold o k = s.hold o k) :
    Invariant lockExpiry { s with table := t, hold := hold } where
  exclusive k := by simpa only [ht k] using h.exclusive k
  backed o k u hu hnow := by simpa only [ht k] using h.backed o k u (hh o k ▸ hu) hnow

/-- An operation that nobody opposes writes its lock cell and holds the row from now on. -/
theorem write (h : Invariant lockExpiry s) {op : ℕ} {k : Bytes}
    (hun : Unopposed (timeCutoff s.now lockExpiry) (uint64String op) (lockGrants (s.table k))) :
    Invariant lockExpiry { s with
      table := Function.update s.table k ((s.table k).setCell (lockCell Concurrency.lock op s.now))
      hold := setEntry s.hold op k (some s.now) } where
  exclusive k' := by
    by_cases hk : k' = k
    · subst hk
      simp only [Function.update_self]
      have hins : Unopposed (timeCutoff s.now lockExpiry) (uint64String op)
          (insert (grantOf op s.now) (lockGrants (s.table k'))) := hun.insert
      exact (hins.subset (Row.grants_setCell_subset _ _)).exclusive
    · simpa only [Function.update_of_ne hk] using h.exclusive k'
  backed o k' t ht hnow := by
    by_cases hok : o = op ∧ k' = k
    · obtain ⟨rfl,rfl⟩ := hok
      simp only [setEntry_self,Option.some.injEq] at ht
      subst ht
      simp only [Function.update_self]
      exact ⟨grantOf o s.now,Row.setCell_grant _ _,rfl,le_rfl⟩
    · simp only [setEntry_of_ne hok] at ht
      by_cases hk : k' = k
      · subst hk
        exact absurd ⟨h.owner_of_holds hun ⟨t,ht,hnow⟩,rfl⟩ hok
      · simpa only [Function.update_of_ne hk] using h.backed o k' t ht hnow

/-- An operation with a live version deletes the column and gives up its hold. -/
theorem delete (h : Invariant lockExpiry s) {op : ℕ} {k : Bytes}
    (hg : ∃ g ∈ lockGrants (s.table k), g.owner = uint64String op ∧
      Live (timeCutoff s.now lockExpiry) g) :
    Invariant lockExpiry { s with
      table := Function.update s.table k ((s.table k).deleteColumn Concurrency.lock.toColumn)
      hold := setEntry s.hold op k none } where
  exclusive k' := by
    by_cases hk : k' = k
    · subst hk
      intro g hg
      simp [Row.grants_deleteColumn_self] at hg
    · simpa only [Function.update_of_ne hk] using h.exclusive k'
  backed o k' t ht hnow := by
    by_cases hok : o = op ∧ k' = k
    · obtain ⟨rfl,rfl⟩ := hok
      simp at ht
    · simp only [setEntry_of_ne hok] at ht
      by_cases hk : k' = k
      · subst hk
        obtain ⟨g,hg,hown,hl⟩ := hg
        have hun := (h.exclusive k').unopposed hg hl
        rw [hown] at hun
        exact absurd ⟨h.owner_of_holds hun ⟨t,ht,hnow⟩,rfl⟩ hok
      · simpa only [Function.update_of_ne hk] using h.backed o k' t ht hnow

theorem of_call (h : Invariant lockExpiry s) {i : Caller} {c : LockCall} (hk : c.rowKey = i.rowKey)
    (hok : c.role = .renew → Renewable lockExpiry s.now i.operationId (s.table i.rowKey)) :
    Invariant lockExpiry (s.call lockExpiry i c).2 := by
  simp only [State.call]
  rw [← hk] at hok ⊢
  cases hrole : c.role with
  | acquire =>
    rcases exec_acquire lockExpiry s.now s.table i.operationId hrole with he | ⟨he,hidle,-⟩
    · simpa [he,holdAfter] using h
    · simpa [he,holdAfter] using h.write (unopposed_of_idle hidle _)
  | acquireIndefinite =>
    rcases exec_acquireIndefinite lockExpiry s.now s.table i.operationId hrole with he | ⟨he,-⟩
    · simpa [he,holdAfter] using h
    · rw [he]
      exact h.frame (grants_update_of_eq (Row.grants_setCell_of_ne
        lock_ne_indefiniteLock.symm)) (by simp [holdAfter])
  | renew =>
    rcases exec_renew lockExpiry s.now s.table i.operationId hrole with he | ⟨he,hown⟩
    · simpa [he,holdAfter] using h
    · simpa [he,holdAfter] using h.write ((hok hrole).unopposed (h.exclusive _) hown)
  | release =>
    rcases exec_release lockExpiry s.now s.table i.operationId hrole with ⟨he,-⟩ | ⟨he,hg⟩
    · simpa [he,holdAfter] using h
    · simpa [he,holdAfter] using h.delete hg
  | releaseIndefinite =>
    rcases exec_releaseIndefinite lockExpiry s.now s.table i.operationId hrole with ⟨he,-⟩ | ⟨he,-⟩
    · simpa [he,holdAfter] using h
    · rw [he]
      exact h.frame (grants_update_of_eq (Row.grants_deleteColumn_of_ne
        lock_ne_indefiniteLock.symm)) (by simp [holdAfter])

theorem of_step (h : Invariant lockExpiry s) {a : Action} {es : List LockEvent} {u : State}
    (hok : renewsRenewable lockExpiry s a) (hs : step lockExpiry s a = some (es,u)) :
    Invariant lockExpiry u := by
  cases a with
  | tick d =>
    cases hs
    exact h.tick d
  | call i c =>
    obtain ⟨hk,-,rfl⟩ := step_call hs
    exact h.of_call hk hok

theorem of_reachable (h : Reachable (machine lockExpiry) (renewsRenewable lockExpiry) s) :
    Invariant lockExpiry s :=
  Reachable.invariant h (fun _ => of_init) fun _ _ _ _ hi hok hs => hi.of_step hok hs

/-- While another operation holds the row, a release or a renewal of a renewable row answers
`False` and changes nothing. -/
theorem exec_of_held (h : Invariant lockExpiry s) {op holder : ℕ} {c : LockCall}
    (hh : Holds lockExpiry s holder c.rowKey) (hne : op ≠ holder)
    (hc : c.role = .release ∨
      c.role = .renew ∧ Renewable lockExpiry s.now op (s.table c.rowKey)) :
    exec lockExpiry s.now s.table op c = (false,s.table) := by
  rcases hc with hrole | ⟨hrole,hr⟩
  · rcases exec_release lockExpiry s.now s.table op hrole with ⟨he,-⟩ | ⟨-,g,hg,hown,hl⟩
    · exact he
    · have hun := (h.exclusive _).unopposed hg hl
      rw [hown] at hun
      exact absurd (h.owner_of_holds hun hh).symm hne
  · rcases exec_renew lockExpiry s.now s.table op hrole with he | ⟨-,hown⟩
    · exact he
    · exact absurd (h.owner_of_holds (hr.unopposed (h.exclusive _) hown) hh).symm hne

end Invariant

/-- Without renewals of superseded versions at most one operation holds a row, and while it does
the others can neither renew nor release it. -/
theorem rowKeyLock_mutualExclusion (lockExpiry : ℤ) {s : State}
    (h : Reachable (machine lockExpiry) (renewsRenewable lockExpiry) s) :
    MutualExclusion lockExpiry s ∧
    ∀ op holder c, Holds lockExpiry s holder c.rowKey → op ≠ holder →
      c.role = .release ∨ c.role = .renew ∧ Renewable lockExpiry s.now op (s.table c.rowKey) →
      exec lockExpiry s.now s.table op c = (false,s.table) :=
  have hi := Invariant.of_reachable h
  ⟨hi.mutualExclusion,fun _ _ _ hh hne hc => hi.exec_of_held hh hne hc⟩

def start : State := ⟨0,fun _ => Row.empty,fun _ _ => none⟩

theorem start_init (lockExpiry : ℤ) : (machine lockExpiry).init start := by
  refine ⟨fun k => ⟨?_,?_⟩,fun op k => rfl⟩ <;> simp [start,Row.empty,Row.grants]

def rowKeyCalls (_ : State) : Action → Prop
  | .tick _ => True
  | .call _ c => c.temporalByRowKey = true

instance (s : State) (a : Action) : Decidable (rowKeyCalls s a) :=
  match a with
  | .tick _ => inferInstanceAs (Decidable True)
  | .call _ c => inferInstanceAs (Decidable (c.temporalByRowKey = true))

theorem rowKeyLock_mutualExclusion_renewed :
    ∃ s, s.hold 1 sampleKey = some 100000000 ∧ MutualExclusion threeMinutes s ∧
      exec threeMinutes s.now s.table 2 (.unlockByRowKey sampleKey) = (false,s.table) := by
  obtain ⟨tr,s,hrun,hold,hnow⟩ := exists_exec (machine threeMinutes)
    (renewsRenewable threeMinutes) (s := start)
    (P := fun _ s => s.hold 1 sampleKey = some 100000000 ∧ s.now ≤ 100000000 + threeMinutes)
    [.call (caller 1) (.lockByRowKey sampleKey),.tick 100000000,
      .call (caller 1) (.renewLockByRowKey sampleKey)] (by decide +kernel)
  have h := rowKeyLock_mutualExclusion threeMinutes ⟨_,_,start_init _,hrun⟩
  exact ⟨s,hold,h.1,h.2 2 1 (.unlockByRowKey sampleKey) ⟨_,hold,hnow⟩ (by decide) (Or.inl rfl)⟩

/-- An old holder renews its stale version after the takeover: both then hold the row. -/
theorem renewLockByRowKey_breaks_mutualExclusion :
    ¬ ∀ s, Reachable (machine threeMinutes) rowKeyCalls s → MutualExclusion threeMinutes s := by
  intro h
  obtain ⟨tr,s,hrun,h₁,h₂,hnow⟩ := exists_exec (machine threeMinutes) rowKeyCalls
    (s := start)
    (P := fun _ s => s.hold 1 sampleKey = some 181000000 ∧ s.hold 2 sampleKey = some 181000000 ∧
      s.now ≤ 181000000 + threeMinutes)
    [.call (caller 1) (.lockByRowKey sampleKey),.tick 181000000,.call (caller 2) (.lockByRowKey sampleKey),
      .call (caller 1) (.renewLockByRowKey sampleKey)] (by decide +kernel)
  have := h s ⟨_,_,start_init _,hrun⟩ sampleKey 1 2 ⟨_,h₁,hnow⟩ ⟨_,h₂,hnow⟩
  omega

end BigTable
end KvdbClient
