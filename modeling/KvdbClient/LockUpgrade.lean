import KvdbClient.IndefiniteLock

/-! Temporal locks that are upgraded to indefinite ones, on the BigTable client: an operation takes
the indefinite lock of a row while it holds the temporal one, and temporal acquires look at both
columns. -/
namespace KvdbClient
namespace BigTable

open Lease Transition

/-- The indefinite column has a version of the operation. -/
def Keeps (s : State) (op : ℕ) (k : Bytes) : Prop :=
  ∃ g ∈ indefiniteGrants (s.table k), g.owner = uint64String op

def Locks (lockExpiry : ℤ) (s : State) (op : ℕ) (k : Bytes) : Prop :=
  Holds lockExpiry s op k ∨ Keeps s op k

instance (lockExpiry : ℤ) (s : State) (op : ℕ) (k : Bytes) : Decidable (Holds lockExpiry s op k) :=
  inferInstanceAs (Decidable (∃ t, s.hold op k = some t ∧ s.now ≤ t + lockExpiry))

/-- Acquires are guarded, and an operation renews or upgrades its lock only while it holds it. -/
def upgrades (lockExpiry : ℤ) (s : State) : Action → Prop
  | .call i c => (c.role = .acquire → c.guarded = true) ∧
      (c.role = .renew ∨ c.role = .acquireIndefinite → Holds lockExpiry s i.operationId i.rowKey)
  | .tick _ => True

instance (lockExpiry : ℤ) (s : State) (a : Action) : Decidable (upgrades lockExpiry s a) :=
  match a with
  | .call i c => inferInstanceAs (Decidable ((c.role = .acquire → c.guarded = true) ∧
      (c.role = .renew ∨ c.role = .acquireIndefinite → Holds lockExpiry s i.operationId i.rowKey)))
  | .tick _ => inferInstanceAs (Decidable True)

/-- Whoever keeps a row is the only one that has it locked. -/
structure UpgradeInvariant (lockExpiry : ℤ) (s : State) : Prop where
  temporal : Invariant lockExpiry s
  kept : ∀ k o p, Keeps s o k → Locks lockExpiry s p k → o = p

section Upgrades

variable {lockExpiry : ℤ} {s u : State} {i : Caller} {c : LockCall}

/-- The holder of a row has the newest of its lock versions. -/
theorem Invariant.renewable_of_holds (h : Invariant lockExpiry s) {op : ℕ} {k : Bytes}
    (hh : Holds lockExpiry s op k) : Renewable lockExpiry s.now op (s.table k) := by
  obtain ⟨g,hg,hown,hlive⟩ := h.live_of_holds hh
  obtain ⟨x,hx,hcol,rfl⟩ := hg
  have hlock : x ∈ (s.table k).lockCells := Row.mem_lockCells.mpr ⟨hx,hcol⟩
  obtain ⟨n,hn,hnew⟩ := Row.exists_newest (List.ne_nil_of_mem hlock)
  have hnlive : Live (timeCutoff s.now lockExpiry) (⟨n.value,n.timestampMicros⟩ : Grant Bytes ℤ) :=
    le_trans hlive (hnew x hlock)
  refine Or.inr ⟨n,hn,hnew,Or.inl ?_⟩
  exact (h.exclusive k _ (Row.lockGrant_of_mem hn) _ (Row.lockGrant_of_mem hlock) hnlive hlive).trans
    hown

theorem Keeps.of_grants {k : Bytes} (h : indefiniteGrants (u.table k) = indefiniteGrants (s.table k))
    {o : ℕ} : Keeps u o k ↔ Keeps s o k := by
  rw [Keeps,Keeps,h]

theorem UpgradeInvariant.shrink (h : UpgradeInvariant lockExpiry s) (ht : Invariant lockExpiry u)
    (hkeeps : ∀ o k, Keeps u o k → Keeps s o k)
    (hholds : ∀ o k, Holds lockExpiry u o k → Holds lockExpiry s o k) :
    UpgradeInvariant lockExpiry u where
  temporal := ht
  kept k o p ho hp := h.kept k o p (hkeeps o k ho) (hp.imp (hholds p k) (hkeeps p k))

theorem holds_setEntry {t : Table} {op o : ℕ} {k k' : Bytes} {v : Option ℤ}
    (h : Holds lockExpiry { s with table := t, hold := setEntry s.hold op k v } o k') :
    o = op ∧ k' = k ∨ Holds lockExpiry s o k' := by
  by_cases hok : o = op ∧ k' = k
  · exact Or.inl hok
  · obtain ⟨τ,hτ,hnow⟩ := h
    exact Or.inr ⟨τ,(setEntry_of_ne hok).symm.trans hτ,hnow⟩

theorem UpgradeInvariant.of_call (h : UpgradeInvariant lockExpiry s) (hk : c.rowKey = i.rowKey)
    (hguarded : c.role = .acquire → c.guarded = true)
    (hheld : c.role = .renew ∨ c.role = .acquireIndefinite →
      Holds lockExpiry s i.operationId i.rowKey) :
    UpgradeInvariant lockExpiry (s.call lockExpiry i c).2 := by
  have ht : Invariant lockExpiry (s.call lockExpiry i c).2 :=
    h.temporal.of_call hk fun hrole => h.temporal.renewable_of_holds (hheld (Or.inl hrole))
  have hsame : (exec lockExpiry s.now s.table i.operationId c) = (false,s.table) →
      UpgradeInvariant lockExpiry (s.call lockExpiry i c).2 := fun he => by
    have hhold : holdAfter c.role false s.now (s.hold i.operationId i.rowKey) =
        s.hold i.operationId i.rowKey := by
      cases c.role <;> rfl
    have hcall : (s.call lockExpiry i c).2 = s := by
      simp only [State.call,he,hhold,setEntry_eq_self]
    rwa [hcall]
  cases hrole : c.role with
  | acquire =>
    rcases exec_acquire lockExpiry s.now s.table i.operationId hrole with he | ⟨he,-,hnone⟩
    · exact hsame he
    · have hempty := hnone (hguarded hrole)
      have hgrants : ∀ k, indefiniteGrants ((s.call lockExpiry i c).2.table k) =
          indefiniteGrants (s.table k) := fun k => by
        simp only [State.call,he]
        exact grants_update_of_eq (Row.grants_setCell_of_ne lock_ne_indefiniteLock) k
      refine ⟨ht,fun k o p ho hp => ?_⟩
      rw [Keeps.of_grants (hgrants k)] at ho
      rcases hp with hp | hp
      · simp only [State.call,he] at hp
        rcases holds_setEntry hp with ⟨-,rfl⟩ | hp
        · obtain ⟨g,hg,-⟩ := ho
          rw [← hk,hempty] at hg
          cases hg
        · exact h.kept k o p ho (Or.inl hp)
      · exact h.kept k o p ho (Or.inr ((Keeps.of_grants (hgrants k)).mp hp))
  | acquireIndefinite =>
    rcases exec_acquireIndefinite lockExpiry s.now s.table i.operationId hrole with he | ⟨he,-⟩
    · exact hsame he
    · have hholder := hheld (Or.inr hrole)
      have hacquired : (s.call lockExpiry i c).1 = true := by simp only [State.call,he]
      have hown : ∀ o, Keeps (s.call lockExpiry i c).2 o i.rowKey → o = i.operationId := fun o ho => by
        obtain ⟨g,hg,hgo⟩ := ho
        rw [indefiniteGrants_of_acquired hrole hk hacquired] at hg
        obtain rfl : g = grantOf i.operationId s.now := hg
        exact uint64String_injective hgo.symm
      have hholds : ∀ o k, Holds lockExpiry (s.call lockExpiry i c).2 o k →
          Holds lockExpiry s o k := fun o k hh => by
        simp only [State.call,he,hrole,holdAfter,setEntry_eq_self] at hh
        exact hh
      refine ⟨ht,fun k o p ho hp => ?_⟩
      by_cases hrow : k = i.rowKey
      · subst hrow
        have hp' : p = i.operationId := hp.elim
          (fun hp => h.temporal.mutualExclusion _ _ _ (hholds p _ hp) hholder) (hown p)
        exact (hown o ho).trans hp'.symm
      · have hgrants : indefiniteGrants ((s.call lockExpiry i c).2.table k) =
            indefiniteGrants (s.table k) := by
          simp only [State.call,he,hk,Function.update_of_ne hrow]
        exact h.kept k o p ((Keeps.of_grants hgrants).mp ho)
          (hp.imp (hholds p k) (Keeps.of_grants hgrants).mp)
  | renew =>
    rcases exec_renew lockExpiry s.now s.table i.operationId hrole with he | ⟨he,-⟩
    · exact hsame he
    · refine h.shrink ht (fun o k ho => ?_) fun o k hh => ?_
      · refine (Keeps.of_grants ?_).mp ho
        simp only [State.call,he]
        exact grants_update_of_eq (Row.grants_setCell_of_ne lock_ne_indefiniteLock) k
      · simp only [State.call,he] at hh
        rcases holds_setEntry hh with ⟨rfl,rfl⟩ | hh
        · exact hheld (Or.inl hrole)
        · exact hh
  | release =>
    rcases exec_release lockExpiry s.now s.table i.operationId hrole with ⟨he,-⟩ | ⟨he,-⟩
    · exact hsame he
    · refine h.shrink ht (fun o k ho => ?_) fun o k hh => ?_
      · refine (Keeps.of_grants ?_).mp ho
        simp only [State.call,he]
        exact grants_update_of_eq (Row.grants_deleteColumn_of_ne lock_ne_indefiniteLock) k
      · simp only [State.call,he,hrole,holdAfter] at hh
        rcases holds_setEntry hh with ⟨rfl,rfl⟩ | hh'
        · obtain ⟨τ,hτ,-⟩ := hh
          simp at hτ
        · exact hh'
  | releaseIndefinite =>
    rcases exec_releaseIndefinite lockExpiry s.now s.table i.operationId hrole with ⟨he,-⟩ | ⟨he,-⟩
    · exact hsame he
    · refine h.shrink ht (fun o k ho => ?_) fun o k hh => ?_
      · obtain ⟨g,hg,hgo⟩ := ho
        simp only [State.call,he] at hg
        by_cases hrow : k = c.rowKey
        · subst hrow
          rw [Function.update_self,indefiniteGrants,Row.grants_deleteColumn_self] at hg
          cases hg
        · rw [Function.update_of_ne hrow] at hg
          exact ⟨g,hg,hgo⟩
      · simp only [State.call,he,hrole,holdAfter,setEntry_eq_self] at hh
        exact hh

theorem UpgradeInvariant.of_reachable (h : Reachable (machine lockExpiry) (upgrades lockExpiry) s) :
    UpgradeInvariant lockExpiry s := by
  refine Reachable.invariant h (fun s hs => ⟨Invariant.of_init hs,fun k o p ho _ => ?_⟩)
    fun t a es u hi hok hs => ?_
  · obtain ⟨g,hg,-⟩ := ho
    rw [(hs.1 k).2] at hg
    cases hg
  · cases a with
    | tick d =>
      cases hs
      refine hi.shrink (hi.temporal.tick d) (fun o k ho => ho) fun o k hh => ?_
      obtain ⟨τ,hτ,hnow⟩ := hh
      exact ⟨τ,hτ,by simp only at hnow; omega⟩
    | call i c =>
      obtain ⟨hk,-,rfl⟩ := step_call hs
      exact hi.of_call hk hok.1 hok.2

end Upgrades

/-- Of operations that keep to the upgrade protocol at most one has a row locked, for a time or
indefinitely, also after others crashed with the row locked. -/
theorem upgrade_exclusive (lockExpiry : ℤ) {s : State}
    (h : Reachable (machine lockExpiry) (upgrades lockExpiry) s) (k : Bytes) (o p : ℕ)
    (ho : Locks lockExpiry s o k) (hp : Locks lockExpiry s p k) : o = p := by
  have hi := UpgradeInvariant.of_reachable h
  rcases ho with ho | ho
  · rcases hp with hp | hp
    · exact hi.temporal.mutualExclusion k o p ho hp
    · exact (hi.kept k p o hp (Or.inl ho)).symm
  · exact hi.kept k o p ho hp

/-- The temporal lock of a crashed operation expired, and its indefinite one is still there. -/
theorem upgrade_exclusive_crashed :
    ∃ s, (s.table sampleKey).cells ≠ [] ∧ ¬ Holds threeMinutes s 1 sampleKey ∧
      Locks threeMinutes s 1 sampleKey ∧ ∀ p, Locks threeMinutes s p sampleKey → p = 1 := by
  obtain ⟨tr,s,hrun,hcells,hexpired,hkept⟩ := exists_exec (machine threeMinutes)
    (upgrades threeMinutes) (s := start)
    (P := fun _ s => (s.table sampleKey).cells ≠ [] ∧ ¬ Holds threeMinutes s 1 sampleKey ∧
      ∃ x ∈ (s.table sampleKey).cells, x.column = Concurrency.indefiniteLock.toColumn ∧
        x.value = uint64String 1)
    [.call (caller 1) (.lockByRowKeyWithIndefinite sampleKey),
      .call (caller 1) (.lockByRowKeyIndefinitely sampleKey),.tick 181000000,
      .call (caller 2) (.lockByRowKeyWithIndefinite sampleKey)] (by decide +kernel)
  have hlocks : Locks threeMinutes s 1 sampleKey := by
    obtain ⟨x,hx,hcol,hvalue⟩ := hkept
    exact Or.inr ⟨_,⟨x,hx,hcol,rfl⟩,hvalue⟩
  exact ⟨s,hcells,hexpired,hlocks,fun p hp =>
    upgrade_exclusive threeMinutes ⟨_,_,start_init _,hrun⟩ sampleKey p 1 hp hlocks⟩

end BigTable
end KvdbClient
