import KvdbClient.BigTableRuns

/-! Crash safety of the indefinite lock: once acquired, it stays until its own operation releases
it. The BigTable client looks at the indefinite column in the filter of every guarded acquire. -/
namespace KvdbClient

open Lease Transition

/-- No indefinite release by the operation takes effect on the row. -/
def Unreleased (op : ℕ) (k : Bytes) (tr : List LockEvent) : Prop :=
  ∀ j : Caller, j.operationId = op → j.rowKey = k →
    .released j Concurrency.indefiniteLock.toColumn ∉ tr

/-- After an indefinite acquire returned `True`, and until its operation releases the row: no
indefinite acquire of the row returns `True`, no guarded acquire that starts then does, and the
indefinite column keeps the version of the operation. -/
def CrashSafe {S A : Type} (M : Machine S A LockEvent) (ok : S → A → Prop)
    (column : S → Bytes → Set (Grant Bytes ℤ)) : Prop :=
  ∀ s a es s₁ i c, Reachable M ok s → ok s a → M.step s a = some (es,s₁) →
    c.role = .acquireIndefinite → .ret i c true ∈ es →
    ∀ tr t, Exec M ok s₁ tr t → Unreleased i.operationId i.rowKey tr →
      (∀ j c', j.rowKey = i.rowKey → c'.role = .acquireIndefinite → .ret j c' true ∉ tr) ∧
      (∀ j c', j.rowKey = i.rowKey → c'.guarded = true →
        ¬ [.call j c',.ret j c' true].Sublist tr) ∧
      column t i.rowKey = column s₁ i.rowKey ∧
      ∃ g ∈ column s₁ i.rowKey, g.owner = uint64String i.operationId

theorem Unreleased.left {op : ℕ} {k : Bytes} {tr es : List LockEvent}
    (h : Unreleased op k (tr ++ es)) : Unreleased op k tr :=
  fun j ho hk hm => h j ho hk (List.mem_append_left _ hm)

theorem Unreleased.right {op : ℕ} {k : Bytes} {tr es : List LockEvent}
    (h : Unreleased op k (tr ++ es)) : Unreleased op k es :=
  fun j ho hk hm => h j ho hk (List.mem_append_right _ hm)

namespace BigTable

variable {lockExpiry : ℤ} {s : State} {i j : Caller} {c c' : LockCall}

theorem ret_mem_callEvents {b b' : Bool} : .ret j c' b' ∈ callEvents i c b ↔ j = i ∧ c' = c ∧ b' = b := by
  cases b <;> simp [callEvents]

theorem released_mem_callEvents (h : c.role = .releaseIndefinite) :
    .released i Concurrency.indefiniteLock.toColumn ∈ callEvents i c true := by
  simp [callEvents,h,Role.released]

/-- While the indefinite column holds versions of one operation that does not release them, a call
leaves them alone, and no acquire that looks at the column succeeds. -/
theorem call_keeps_indefinite (op : ℕ) {k : Bytes} (hk : c.rowKey = i.rowKey)
    (hne : (indefiniteGrants (s.table k)).Nonempty)
    (hown : ∀ g ∈ indefiniteGrants (s.table k), g.owner = uint64String op)
    (hno : Unreleased op k (callEvents i c (s.call lockExpiry i c).1)) :
    indefiniteGrants ((s.call lockExpiry i c).2.table k) = indefiniteGrants (s.table k) ∧
      (i.rowKey = k → c.role = .acquireIndefinite ∨ c.guarded = true →
        (s.call lockExpiry i c).1 = false) := by
  simp only [State.call] at hno ⊢
  cases hrole : c.role with
  | acquire =>
    rcases exec_acquire lockExpiry s.now s.table i.operationId hrole with he | ⟨he,-,hg⟩
    · simp [he]
    · rw [he]
      refine ⟨grants_update_of_eq (Row.grants_setCell_of_ne lock_ne_indefiniteLock) k,?_⟩
      rintro rfl (hr | hguarded)
      · cases hr
      · rw [hk] at hg
        exact absurd (hg hguarded) hne.ne_empty
  | acquireIndefinite =>
    rcases exec_acquireIndefinite lockExpiry s.now s.table i.operationId hrole with he | ⟨he,hnil⟩
    · simp [he]
    · have hkk : k ≠ c.rowKey := by
        rintro rfl
        exact hne.ne_empty hnil
      rw [he]
      exact ⟨by simp only [Function.update_of_ne hkk],fun hik => absurd (hk.trans hik).symm hkk⟩
  | renew =>
    have hg : c.guarded = false := by cases c <;> first | rfl | cases hrole
    rcases exec_renew lockExpiry s.now s.table i.operationId hrole with he | ⟨he,-⟩
    · simp [he]
    · rw [he]
      exact ⟨grants_update_of_eq (Row.grants_setCell_of_ne lock_ne_indefiniteLock) k,by simp [hg]⟩
  | release =>
    have hg : c.guarded = false := by cases c <;> first | rfl | cases hrole
    rcases exec_release lockExpiry s.now s.table i.operationId hrole with ⟨he,-⟩ | ⟨he,-⟩
    · simp [he]
    · rw [he]
      exact ⟨grants_update_of_eq (Row.grants_deleteColumn_of_ne lock_ne_indefiniteLock) k,
        by simp [hg]⟩
  | releaseIndefinite =>
    have hg : c.guarded = false := by cases c <;> first | rfl | cases hrole
    rcases exec_releaseIndefinite lockExpiry s.now s.table i.operationId hrole with
      ⟨he,-⟩ | ⟨he,g,hmem,hgo⟩
    · simp [he]
    · have hkk : k ≠ c.rowKey := by
        rintro rfl
        rw [he] at hno
        exact hno i (uint64String_injective (hgo.symm.trans (hown g hmem))) hk.symm
          (released_mem_callEvents hrole)
      rw [he]
      exact ⟨by simp only [Function.update_of_ne hkk],by simp [hg]⟩

theorem indefiniteGrants_of_acquired (hrole : c.role = .acquireIndefinite)
    (hk : c.rowKey = i.rowKey) (hr : (s.call lockExpiry i c).1 = true) :
    indefiniteGrants ((s.call lockExpiry i c).2.table i.rowKey) = {grantOf i.operationId s.now} := by
  simp only [State.call] at hr ⊢
  rcases exec_acquireIndefinite lockExpiry s.now s.table i.operationId hrole with he | ⟨he,hnil⟩
  · simp [he] at hr
  · rw [he,← hk]
    simp only [Function.update_self]
    exact Row.grants_setCell_of_empty hnil

theorem indefiniteGrants_of_ret {a : Action} {es : List LockEvent} {u : State}
    (hs : step lockExpiry s a = some (es,u)) (hrole : c.role = .acquireIndefinite)
    (hret : .ret i c true ∈ es) :
    indefiniteGrants (u.table i.rowKey) = {grantOf i.operationId s.now} := by
  cases a with
  | tick d =>
    cases hs
    simp at hret
  | call j c' =>
    obtain ⟨hk,rfl,rfl⟩ := step_call hs
    obtain ⟨rfl,rfl,hr⟩ := ret_mem_callEvents.mp hret
    exact indefiniteGrants_of_acquired hrole hk hr.symm

/-- A step without a release keeps the version, and grants no acquire that looks at the column. -/
theorem step_keeps_indefinite {op : ℕ} {k : Bytes} {t : ℤ}
    (hgrants : indefiniteGrants (s.table k) = {grantOf op t}) {a : Action} {es : List LockEvent}
    {u : State} (hs : step lockExpiry s a = some (es,u)) (hno : Unreleased op k es) :
    indefiniteGrants (u.table k) = {grantOf op t} ∧
      ∀ j c', j.rowKey = k → c'.role = .acquireIndefinite ∨ c'.guarded = true →
        .ret j c' true ∉ es := by
  cases a with
  | tick d =>
    cases hs
    exact ⟨hgrants,fun _ _ _ _ hm => by simp at hm⟩
  | call j c =>
    obtain ⟨hk,rfl,rfl⟩ := step_call hs
    obtain ⟨hsame,hfail⟩ := call_keeps_indefinite op hk (hgrants ▸ Set.singleton_nonempty _)
      (by rw [hgrants]; rintro g rfl; rfl) hno
    refine ⟨hsame.trans hgrants,fun l d hl hd hm => ?_⟩
    obtain ⟨rfl,rfl,hr⟩ := ret_mem_callEvents.mp hm
    rw [hfail hl hd] at hr
    cases hr

theorem crashSafe (lockExpiry : ℤ) :
    CrashSafe (machine lockExpiry) any fun s k => indefiniteGrants (s.table k) := by
  intro s a es s₁ i c _ _ hs hrole hret tr t hrun hno
  have hcol := indefiniteGrants_of_ret hs hrole hret
  have hkeep := hrun.induct
    (P := fun tr t => Unreleased i.operationId i.rowKey tr →
      indefiniteGrants (t.table i.rowKey) = {grantOf i.operationId s.now} ∧
      ∀ j c', j.rowKey = i.rowKey → c'.role = .acquireIndefinite ∨ c'.guarded = true →
        .ret j c' true ∉ tr) (fun _ => ⟨hcol,by simp⟩) ?_
  · obtain ⟨hgrants,hrets⟩ := hkeep hno
    have hmem : grantOf i.operationId s.now ∈ indefiniteGrants (s₁.table i.rowKey) := by
      rw [hcol]
      rfl
    refine ⟨fun j c' hj hc => hrets j c' hj (Or.inl hc),fun j c' hj hc hsub => ?_,
      hgrants.trans hcol.symm,grantOf i.operationId s.now,hmem,rfl⟩
    exact hrets j c' hj (Or.inr hc) (hsub.subset (by simp))
  · intro tr t a es u _ ih _ hs hno
    obtain ⟨hgrants,hrets⟩ := ih hno.left
    obtain ⟨hkept,hfail⟩ := step_keeps_indefinite hgrants hs hno.right
    refine ⟨hkept,fun j c' hj hc hm => ?_⟩
    rcases List.mem_append.mp hm with hm | hm
    · exact hrets j c' hj hc hm
    · exact hfail j c' hj hc hm

end BigTable

end KvdbClient
