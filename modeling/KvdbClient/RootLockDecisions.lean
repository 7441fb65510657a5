import KvdbClient.BigTableLocks

/-! What the root lock requests of the BigTable client decide, for every row content:
the denotation of their filters as conditions on the stored cells. -/
namespace KvdbClient
namespace BigTable

open Lease

def Row.Lacks (r : Row) (col : Column) : Prop := ∀ x ∈ r.cells, x.column ≠ col

def Row.Expired (r : Row) (cutoff : ℤ) : Prop :=
  ∀ x ∈ r.cells, x.column = Concurrency.lock.toColumn → x.timestampMicros < cutoff

instance (r : Row) (col : Column) : Decidable (r.Lacks col) :=
  inferInstanceAs (Decidable (∀ x ∈ _, _))

instance (r : Row) (cutoff : ℤ) : Decidable (r.Expired cutoff) :=
  inferInstanceAs (Decidable (∀ x ∈ _, _))

def Row.Lockable (r : Row) (cutoff : ℤ) : Prop :=
  r.Lacks Concurrency.indefiniteLock.toColumn ∧ r.Expired cutoff ∧ r.Lacks Hierarchy.newParent

def Row.IndefinitelyLockable (r : Row) : Prop :=
  r.Lacks Concurrency.indefiniteLock.toColumn ∧ r.Lacks Hierarchy.newParent

theorem Row.lacks_iff {r : Row} {col : Column} : r.Lacks col ↔ r.grants col = ∅ := by
  rw [Set.eq_empty_iff_forall_notMem]
  constructor
  · rintro h g ⟨x,hx,hcol,rfl⟩
    exact h x hx hcol
  · intro h x hx hcol
    exact h _ ⟨x,hx,hcol,rfl⟩

theorem Row.expired_iff {r : Row} {cutoff : ℤ} :
    r.Expired cutoff ↔ ∀ g ∈ lockGrants r, ¬ Live cutoff g := by
  constructor
  · rintro h g ⟨x,hx,hcol,rfl⟩
    exact not_le.mpr (h x hx hcol)
  · intro h x hx hcol
    exact not_le.mp (h _ ⟨x,hx,hcol,rfl⟩)

theorem not_matches_getRootLockFilter {r : Row} (lockExpiry now : ℤ) :
    ¬ Matches (getRootLockFilter Concurrency.lock.toColumn lockExpiry
        Concurrency.indefiniteLock.toColumn now) r.cells ↔
      r.Lockable (timeCutoff now lockExpiry) := by
  rw [matches_getRootLockFilter,Row.Lockable,Row.lacks_iff,Row.lacks_iff,Row.expired_iff]
  push Not
  exact and_assoc

theorem not_matches_getIndefiniteRootLockFilter {r : Row} :
    ¬ Matches (getIndefiniteRootLockFilter Concurrency.indefiniteLock.toColumn) r.cells ↔
      r.IndefinitelyLockable := by
  rw [matches_getIndefiniteRootLockFilter,Row.IndefinitelyLockable,Row.lacks_iff,Row.lacks_iff]
  push Not
  rfl

/-- A superseded root is not renewed, whether or not the operation still has its lock. -/
theorem matches_getRenewLockFilter_of_superseded {r : Row} {op : ℕ}
    (h : ¬ r.Lacks Hierarchy.newParent) :
    Matches (getRenewLockFilter Concurrency.lock op) r.cells := by
  rw [Row.lacks_iff,← ne_eq,← Set.nonempty_iff_ne_empty] at h
  rw [matches_getRenewLockFilter]
  by_cases hown : ∃ g ∈ lockGrants r, g.owner = uint64String op
  · exact Or.inl ⟨hown,h⟩
  · obtain ⟨g,x,hx,-,-⟩ := h
    exact Or.inr ⟨hown,x,hx⟩

/-- A request that writes one cell: the row gets it in place of a version of the same column and
timestamp, and every other row is as before. -/
def AddsCell (t t' : Table) (k : Bytes) (c : Cell) : Prop :=
  (∀ x, x ∈ (t' k).cells ↔ x = c ∨ x ∈ (t k).cells ∧ ¬ SameVersion c x) ∧
    ∀ k', k' ≠ k → t' k' = t k'

theorem addsCell_update (t : Table) (k : Bytes) (c : Cell) :
    AddsCell t (Function.update t k ((t k).setCell c)) k c := by
  refine ⟨fun x => ?_,fun k' hk => Function.update_of_ne hk _ _⟩
  rw [Function.update_self]
  exact Row.mem_setCell

section Acquire

variable {t : Table} {k : Bytes} {f : RowFilter} {P : Prop} {c : Cell}

theorem acquireWith_decides (h : ¬ Matches f (t k).cells ↔ P) :
    ((acquireWith t k f (.setCell c)).1 = true ↔ P) ∧
    (P → AddsCell t (acquireWith t k f (.setCell c)).2 k c) ∧
    (¬ P → (acquireWith t k f (.setCell c)).2 = t) := by
  rcases acquireWith_cases (t := t) (k := k) (Iff.refl (Matches f (t k).cells)) (.setCell c) with
    ⟨he,hm⟩ | ⟨he,hm⟩
  · have hp : ¬ P := fun hp => h.mpr hp hm
    rw [he]
    exact ⟨by simp [hp],fun hp' => absurd hp' hp,fun _ => rfl⟩
  · have hp : P := h.mp hm
    rw [he]
    exact ⟨by simp [hp],fun _ => addsCell_update t k c,fun hp' => absurd hp hp'⟩

end Acquire

/-- The cell of an acquired lock replaces no version of the row: versions of the lock's column are
older than the cutoff, and the cutoff is not after the cell. -/
theorem Row.Lockable.fresh {r : Row} {lockExpiry now : ℤ}
    (h : r.Lockable (timeCutoff now lockExpiry)) (hexp : 0 ≤ lockExpiry) (op : ℕ) :
    ∀ x ∈ r.cells, ¬ SameVersion (lockCell Concurrency.lock op now) x := by
  rintro x hx ⟨hcol,ht⟩
  have hlt : x.timestampMicros < timeCutoff now lockExpiry := h.2.1 x hx hcol.symm
  have hle : timeCutoff now lockExpiry ≤ getValidTimestamp now :=
    timeCutoff_le_getValidTimestamp (by omega)
  have hts : getValidTimestamp now = x.timestampMicros := ht
  omega

theorem Row.IndefinitelyLockable.fresh {r : Row} (h : r.IndefinitelyLockable) (op : ℕ) (now : ℤ) :
    ∀ x ∈ r.cells, ¬ SameVersion (lockCell Concurrency.indefiniteLock op now) x :=
  fun x hx hs => h.1 x hx hs.1.symm

/-- The root lock requests decide exactly what their conditions say of the row's cells, an acquire
adds its one lock cell, a refusal changes nothing, and a superseded root is not renewed either. -/
theorem root_lock_decisions (lockExpiry now : ℤ) (t : Table) (rootId op : ℕ) :
    let k := serializeUint64 rootId false false
    let locked := lockRoot lockExpiry now t rootId op
    let indefinitely := lockRootIndefinitely now t rootId op
    ((locked.1 = true ↔ (t k).Lockable (timeCutoff now lockExpiry)) ∧
      (locked.1 = true → AddsCell t locked.2 k (lockCell Concurrency.lock op now)) ∧
      (locked.1 = true → 0 ≤ lockExpiry →
        ∀ x ∈ (t k).cells, ¬ SameVersion (lockCell Concurrency.lock op now) x) ∧
      (locked.1 = false → locked.2 = t)) ∧
    ((indefinitely.1 = true ↔ (t k).IndefinitelyLockable) ∧
      (indefinitely.1 = true →
        AddsCell t indefinitely.2 k (lockCell Concurrency.indefiniteLock op now) ∧
        ∀ x ∈ (t k).cells, ¬ SameVersion (lockCell Concurrency.indefiniteLock op now) x) ∧
      (indefinitely.1 = false → indefinitely.2 = t)) ∧
    (¬ (t k).Lacks Hierarchy.newParent →
      locked = (false,t) ∧ indefinitely = (false,t) ∧ renewLock now t rootId op = (false,t)) := by
  intro k locked indefinitely
  obtain ⟨hl,hadd,hkeep⟩ := acquireWith_decides (t := t) (k := k)
    (c := lockCell Concurrency.lock op now) (not_matches_getRootLockFilter lockExpiry now)
  obtain ⟨hi,hiadd,hikeep⟩ := acquireWith_decides (t := t) (k := k)
    (c := lockCell Concurrency.indefiniteLock op now) not_matches_getIndefiniteRootLockFilter
  change (locked.1 = true ↔ _) at hl
  change (indefinitely.1 = true ↔ _) at hi
  have hrefuse : locked.1 = false → locked.2 = t := fun hf => hkeep fun hp => by
    rw [hl.mpr hp] at hf
    cases hf
  have hirefuse : indefinitely.1 = false → indefinitely.2 = t := fun hf => hikeep fun hp => by
    rw [hi.mpr hp] at hf
    cases hf
  refine ⟨⟨hl,fun h => hadd (hl.mp h),fun h hexp => (hl.mp h).fresh hexp op,hrefuse⟩,
    ⟨hi,fun h => ⟨hiadd (hi.mp h),(hi.mp h).fresh op now⟩,hirefuse⟩,fun hsup => ?_⟩
  have hlf : locked.1 = false := Bool.eq_false_iff.mpr fun h => hsup (hl.mp h).2.2
  have hif : indefinitely.1 = false := Bool.eq_false_iff.mpr fun h => hsup (hi.mp h).2
  refine ⟨Prod.ext hlf (hrefuse hlf),Prod.ext hif (hirefuse hif),?_⟩
  rcases acquireWith_cases (t := t) (k := k) (Iff.refl (Matches (getRenewLockFilter Concurrency.lock op)
    (t k).cells)) (setLockMutation Concurrency.lock op now) with ⟨he,-⟩ | ⟨-,hm⟩
  · exact he
  · exact absurd (matches_getRenewLockFilter_of_superseded hsup) hm

end BigTable
end KvdbClient
