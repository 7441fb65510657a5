import KvdbClient.BigTableRuns
import KvdbClient.FullTableReads
import KvdbClient.NodeVersions

/-! The times of locks that guarded writes are stamped with: `base.py`, over runs of lock calls on
BigTable. -/
namespace KvdbClient

/-- `row[0]`; there is no column `0`. -/
def RowData.head {V : Type} : RowData V → Except RootError (Cell V)
  | .cells (x :: _) => .ok x
  | .cells [] => .error .index
  | .columns _ => .error (.key 0)

section Client

variable {V : Type} (values : Values V)

/-- `get_lock_timestamp`: nothing without a lock, or with one of another operation. -/
def getLockTimestamp (client : Client V) (rootId operationId : ℕ) :
    Except RootError (Option ℤ) := do
  let row ← liftRead (client.readNode rootId (.one Concurrency.lock.toColumn) .unbounded)
  if row.isEmpty then return none
  if values.uint64 (← row.head).value ≠ operationId then return none
  return some (← row.head).timestamp

/-- The loop over the futures, in the order in which they complete. -/
def consolidate : List (Except RootError (Option ℤ)) → List ℤ → Option ℤ
  | [], timestamps => timestamps.min?
  | .ok (some ts) :: futures, timestamps => consolidate futures (timestamps ++ [ts])
  | .ok none :: _, _ => none
  | .error _ :: _, _ => none

/-- `get_consolidated_lock_timestamp`: every future reads the table in a state of its own, and they
complete in any order. -/
def getConsolidatedLockTimestamp (clients : ℕ → Client V)
    (completed : List (Except RootError (Option ℤ)) → List (Except RootError (Option ℤ)))
    (rootIds operationIds : List ℕ) : Option ℤ :=
  if rootIds.isEmpty then none
  else consolidate (completed ((rootIds.zip operationIds).zipIdx.map fun p =>
    getLockTimestamp values (clients p.2) p.1.1 p.1.2)) []

end Client

theorem consolidate_eq_some {futures : List (Except RootError (Option ℤ))} {timestamps : List ℤ}
    {m : ℤ} : consolidate futures timestamps = some m ↔
      ∃ l : List ℤ, futures = l.map (fun ts => .ok (some ts)) ∧ (timestamps ++ l).min? = some m := by
  induction futures generalizing timestamps with
  | nil => simp [consolidate]
  | cons f futures ih =>
    cases f with
    | error e =>
      refine iff_of_false (by simp [consolidate]) ?_
      rintro ⟨l,hl,-⟩
      cases l <;> simp at hl
    | ok o =>
      cases o with
      | none =>
        refine iff_of_false (by simp [consolidate]) ?_
        rintro ⟨l,hl,-⟩
        cases l <;> simp at hl
      | some ts =>
        rw [consolidate,ih]
        constructor
        · rintro ⟨l,rfl,hm⟩
          exact ⟨ts :: l,rfl,by simpa using hm⟩
        · rintro ⟨l,hl,hm⟩
          cases l with
          | nil => cases hl
          | cons t l =>
            simp only [List.map_cons,List.cons.injEq,Except.ok.injEq,Option.some.injEq] at hl
            obtain ⟨rfl,rfl⟩ := hl
            exact ⟨l,rfl,by simpa using hm⟩

theorem consolidate_completed
    {completed : List (Except RootError (Option ℤ)) → List (Except RootError (Option ℤ))}
    (hcompleted : ∀ l, (completed l).Perm l) {futures : List (Except RootError (Option ℤ))} {m : ℤ} :
    consolidate (completed futures) [] = some m ↔
      (∀ r ∈ futures, ∃ ts, r = .ok (some ts) ∧ m ≤ ts) ∧ .ok (some m) ∈ futures := by
  rw [consolidate_eq_some]
  simp only [← (hcompleted futures).mem_iff,List.nil_append,List.min?_eq_some_iff]
  constructor
  · rintro ⟨l,hl,hm,hle⟩
    rw [hl]
    refine ⟨fun r hr => ?_,List.mem_map_of_mem hm⟩
    obtain ⟨ts,hts,rfl⟩ := List.mem_map.mp hr
    exact ⟨ts,rfl,hle ts hts⟩
  · rintro ⟨hall,hm⟩
    have hrange : completed futures ∈ Set.range (List.map fun ts : ℤ =>
        (.ok (some ts) : Except RootError (Option ℤ))) := by
      rw [Set.range_list_map]
      intro r hr
      obtain ⟨ts,rfl,-⟩ := hall r hr
      exact ⟨ts,rfl⟩
    obtain ⟨l,hl⟩ := hrange
    rw [← hl] at hall hm
    refine ⟨l,hl.symm,?_,fun ts hts => ?_⟩
    · obtain ⟨ts,hts,he⟩ := List.mem_map.mp hm
      cases he
      exact hts
    · obtain ⟨ts',he,hle⟩ := hall _ (List.mem_map_of_mem hts)
      cases he
      exact hle

namespace BigTable

open Lease Transition

/-- What the service delivers of a row, newest version first. -/
def DeliversRow (t : Table) (k : Bytes) (store : List StoredCell) : Prop :=
  NewestFirst store ∧ ∀ x, x.rowKey = k → (x ∈ store ↔ ofStored x ∈ (t k).cells)

theorem deliversRow_of_cells {t : Table} {k : Bytes} {store : List StoredCell}
    (hnew : NewestFirst store)
    (hcells : (t k).cells = (store.filter fun x => x.rowKey = k).map ofStored) :
    DeliversRow t k store := by
  refine ⟨hnew,fun x hx => ?_⟩
  rw [hcells,List.mem_map]
  constructor
  · exact fun hmem => ⟨x,List.mem_filter.mpr ⟨hmem,decide_eq_true hx⟩,rfl⟩
  · rintro ⟨y,hy,he⟩
    obtain ⟨hy,hk⟩ := List.mem_filter.mp hy
    have hyx : y = x := by
      obtain ⟨k,c,t,v⟩ := y
      obtain ⟨k',c',t',v'⟩ := x
      have hkey := (of_decide_eq_true hk).trans hx.symm
      simp only [ofStored,Cell.mk.injEq] at he hkey
      simp [he,hkey]
    rwa [← hyx]

section Versions

variable {V : Type} (reg : Registry V) {t : Table} {k : Bytes} {store : List StoredCell}

theorem DeliversRow.versions_cases (h : DeliversRow t k store) (c : Column) :
    versions reg store c .unbounded k = [] ∧ (t k).grants c = ∅ ∨
      ∃ g l, Newest ((t k).grants c) g ∧
        versions reg store c .unbounded k = ⟨reg.deserialize c g.owner,g.stamp⟩ :: l := by
  obtain ⟨hnew,hmem⟩ := h
  have hcells : ∀ x, x ∈ store.filter (fun x => x.rowKey = k ∧ x.column = c ∧
      Window.unbounded.Passes x.timestamp) ↔ x.rowKey = k ∧ x.column = c ∧ ofStored x ∈ (t k).cells :=
    fun x => by
      rw [List.mem_filter,decide_eq_true_eq]
      constructor
      · rintro ⟨hx,rfl,hc,-⟩
        exact ⟨rfl,hc,(hmem x rfl).mp hx⟩
      · rintro ⟨rfl,hc,hx⟩
        exact ⟨(hmem x rfl).mpr hx,rfl,hc,by simp [Window.Passes,Window.unbounded]⟩
  have hgrants : ∀ g, g ∈ (t k).grants c ↔ ∃ x ∈ store.filter (fun x => x.rowKey = k ∧
      x.column = c ∧ Window.unbounded.Passes x.timestamp), g = ⟨x.value,x.timestamp⟩ := fun g => by
    simp only [hcells]
    constructor
    · rintro ⟨x,hx,hc,rfl⟩
      exact ⟨⟨k,x.column,x.timestampMicros,x.value⟩,⟨rfl,hc,hx⟩,rfl⟩
    · rintro ⟨x,⟨-,hc,hx⟩,rfl⟩
      exact ⟨ofStored x,hx,hc,rfl⟩
  have hsorted := hnew.sublist (List.filter_sublist (p := fun x => decide (x.rowKey = k ∧
    x.column = c ∧ Window.unbounded.Passes x.timestamp)))
  rw [versions]
  generalize store.filter (fun x => x.rowKey = k ∧ x.column = c ∧
    Window.unbounded.Passes x.timestamp) = l at hcells hgrants hsorted ⊢
  cases l with
  | nil => exact Or.inl ⟨rfl,Set.eq_empty_of_forall_notMem fun g hg => by simp [hgrants] at hg⟩
  | cons x l =>
    have hx := (hcells x).mp List.mem_cons_self
    refine Or.inr ⟨⟨x.value,x.timestamp⟩,_,⟨(hgrants _).mpr ⟨x,List.mem_cons_self,rfl⟩,?_⟩,rfl⟩
    intro g hg
    obtain ⟨y,hy,rfl⟩ := (hgrants g).mp hg
    rcases List.mem_cons.mp hy with rfl | hyl
    · exact le_rfl
    · have hyk := (hcells y).mp hy
      exact ((List.pairwise_cons.mp hsorted).1 y hyl (hx.1.trans hyk.1.symm)
        (hx.2.1.trans hyk.2.1.symm)).le

end Versions

def ReadsLocks {V : Type} (values : Values V) (reg : Registry V) : Prop :=
  reg.registered Concurrency.lock.toColumn = true ∧
    ∀ n < 2^64, values.uint64 (reg.deserialize Concurrency.lock.toColumn (uint64String n)) = n

section Reads

variable {V : Type} {values : Values V} {reg : Registry V} {t : Table} {store : List StoredCell}
  {maxRowKeyCount : ℕ} {tableMeta : Option V} {rootId : ℕ}

theorem getLockTimestamp_cases (hreg : ReadsLocks values reg)
    (h : DeliversRow t (uint64String rootId) store) (op : ℕ) :
    lockGrants (t (uint64String rootId)) = ∅ ∧
      getLockTimestamp values (Service.bigTable.client reg maxRowKeyCount tableMeta store) rootId
        op = .ok none ∨
    ∃ g, Newest (lockGrants (t (uint64String rootId))) g ∧
      getLockTimestamp values (Service.bigTable.client reg maxRowKeyCount tableMeta store) rootId
        op = .ok (if values.uint64 (reg.deserialize Concurrency.lock.toColumn g.owner) = op
          then some g.stamp else none) := by
  have hread : (Service.bigTable.client reg maxRowKeyCount tableMeta store).readNode rootId
      (.one Concurrency.lock.toColumn) .unbounded =
        .ok (.cells (versions reg store Concurrency.lock.toColumn .unbounded (uint64String rootId))) :=
    readNode_one hreg.1 store .unbounded rootId
  rcases h.versions_cases reg Concurrency.lock.toColumn with ⟨hnil,hempty⟩ | ⟨g,l,hg,hcons⟩
  · rw [hnil] at hread
    refine Or.inl ⟨hempty,?_⟩
    simp [getLockTimestamp,hread,liftRead,RowData.isEmpty,bind,Except.bind,pure,Except.pure]
  · rw [hcons] at hread
    refine Or.inr ⟨g,hg,?_⟩
    simp only [getLockTimestamp,hread,liftRead,RowData.isEmpty,RowData.head,bind,Except.bind,pure,
      Except.pure,List.isEmpty_cons,Bool.false_eq_true,if_false,ne_eq,ite_not]
    split <;> rfl

end Reads

def ofUint64 (_ : State) : Action → Prop
  | .call i _ => i.operationId < 2^64
  | .tick _ => True

instance (s : State) (a : Action) : Decidable (ofUint64 s a) :=
  match a with
  | .call i _ => inferInstanceAs (Decidable (i.operationId < 2^64))
  | .tick _ => inferInstanceAs (Decidable True)

/-- Every lock version is of an operation whose last acquire or renewal it does not postdate. -/
def Recorded (s : State) : Prop :=
  ∀ k, ∀ g ∈ lockGrants (s.table k), ∃ op < 2^64, ∃ t ≤ s.now, g.owner = uint64String op ∧
    s.hold op k = some t ∧ g.stamp ≤ getValidTimestamp t

theorem getValidTimestamp_mono {t u : ℤ} (h : t ≤ u) : getValidTimestamp t ≤ getValidTimestamp u := by
  simp only [getValidTimestamp,getCompatibleTimeStamp,Bool.false_eq_true,if_false]
  omega

namespace Recorded

variable {lockExpiry : ℤ} {s u : State}

theorem shrink (h : Recorded s) (hgrants : ∀ k, lockGrants (u.table k) ⊆ lockGrants (s.table k))
    (hnow : s.now ≤ u.now) (hhold : ∀ k op, (lockGrants (u.table k)).Nonempty →
      u.hold op k = s.hold op k) : Recorded u := by
  intro k g hg
  obtain ⟨op,hop,t,ht,hown,hold,hle⟩ := h k g (hgrants k hg)
  exact ⟨op,hop,t,ht.trans hnow,hown,(hhold k op ⟨g,hg⟩).trans hold,hle⟩

theorem write (h : Recorded s) {op : ℕ} (hop : op < 2^64) (k : Bytes) :
    Recorded { s with
      table := Function.update s.table k ((s.table k).setCell (lockCell Concurrency.lock op s.now))
      hold := setEntry s.hold op k (some s.now) } := by
  intro k' g hg
  by_cases hk : k' = k
  · subst hk
    simp only [Function.update_self] at hg
    rcases Row.grants_setCell_subset _ _ hg with rfl | hg
    · exact ⟨op,hop,s.now,le_rfl,rfl,setEntry_self ..,le_rfl⟩
    · obtain ⟨o,ho,t,ht,hown,hold,hle⟩ := h k' g hg
      by_cases hoo : o = op
      · subst hoo
        exact ⟨o,ho,s.now,le_rfl,hown,setEntry_self ..,hle.trans (getValidTimestamp_mono ht)⟩
      · exact ⟨o,ho,t,ht,hown,(setEntry_of_ne fun he => hoo he.1).trans hold,hle⟩
  · simp only [Function.update_of_ne hk] at hg
    obtain ⟨o,ho,t,ht,hown,hold,hle⟩ := h k' g hg
    exact ⟨o,ho,t,ht,hown,(setEntry_of_ne fun he => hk he.2).trans hold,hle⟩

theorem of_call (h : Recorded s) {i : Caller} {c : LockCall} (hk : c.rowKey = i.rowKey)
    (hop : i.operationId < 2^64) : Recorded (s.call lockExpiry i c).2 := by
  simp only [State.call]
  rw [← hk]
  cases hrole : c.role with
  | acquire =>
    rcases exec_acquire lockExpiry s.now s.table i.operationId hrole with he | ⟨he,-⟩
    · simpa [he,holdAfter] using h
    · simpa [he,holdAfter] using h.write hop c.rowKey
  | renew =>
    rcases exec_renew lockExpiry s.now s.table i.operationId hrole with he | ⟨he,-⟩
    · simpa [he,holdAfter] using h
    · simpa [he,holdAfter] using h.write hop c.rowKey
  | acquireIndefinite =>
    rcases exec_acquireIndefinite lockExpiry s.now s.table i.operationId hrole with he | ⟨he,-⟩
    · simpa [he,holdAfter] using h
    · rw [he]
      refine h.shrink (fun k => ?_) le_rfl fun k op _ => by simp [holdAfter]
      exact (grants_update_of_eq (Row.grants_setCell_of_ne lock_ne_indefiniteLock.symm) k).subset
  | release =>
    rcases exec_release lockExpiry s.now s.table i.operationId hrole with ⟨he,-⟩ | ⟨he,-⟩
    · simpa [he,holdAfter] using h
    · rw [he]
      refine h.shrink (fun k => ?_) le_rfl fun k op hne => ?_
      · by_cases hrow : k = c.rowKey
        · subst hrow
          simp only [Function.update_self,Row.grants_deleteColumn_self,Set.empty_subset]
        · simp only [Function.update_of_ne hrow,subset_refl]
      · -- the released row has no version left
        refine setEntry_of_ne fun hrow => ?_
        obtain ⟨g,hg⟩ := hne
        simp only [hrow.2,Function.update_self,Row.grants_deleteColumn_self] at hg
        exact hg
  | releaseIndefinite =>
    rcases exec_releaseIndefinite lockExpiry s.now s.table i.operationId hrole with ⟨he,-⟩ | ⟨he,-⟩
    · simpa [he,holdAfter] using h
    · rw [he]
      refine h.shrink (fun k => ?_) le_rfl fun k op _ => by simp [holdAfter]
      exact (grants_update_of_eq (Row.grants_deleteColumn_of_ne lock_ne_indefiniteLock.symm) k).subset

theorem of_reachable {ok : State → Action → Prop} (hok : ∀ s a, ok s a → ofUint64 s a)
    (h : Reachable (machine lockExpiry) ok s) : Recorded s := by
  refine Reachable.invariant h (fun s hs k g hg => ?_) fun t a es u hi ha hs => ?_
  · rw [(hs.1 k).1] at hg
    cases hg
  · cases a with
    | tick d =>
      cases hs
      exact hi.shrink (fun k => subset_rfl) (by simp) fun k op _ => rfl
    | call i c =>
      obtain ⟨hk,-,rfl⟩ := step_call hs
      exact hi.of_call hk (hok t _ ha)

end Recorded

section Times

variable {lockExpiry : ℤ} {s : State} {V : Type} {values : Values V} {reg : Registry V}
  (hreg : ReadsLocks values reg) {rootId : ℕ} {store : List StoredCell}
  (hstore : DeliversRow s.table (uint64String rootId) store) {op : ℕ} {maxRowKeyCount : ℕ}
  {tableMeta : Option V}
include hreg hstore

theorem Recorded.of_getLockTimestamp (h : Recorded s) {ts : ℤ}
    (hts : getLockTimestamp values (Service.bigTable.client reg maxRowKeyCount tableMeta store)
      rootId op = .ok (some ts)) :
    ∃ t, s.hold op (uint64String rootId) = some t ∧ ts ≤ getValidTimestamp t := by
  rcases getLockTimestamp_cases hreg hstore op with ⟨-,he⟩ | ⟨g,hg,he⟩
  · rw [he] at hts
    cases hts
  · obtain ⟨o,ho,t,-,hown,hold,hle⟩ := h _ g hg.1
    rw [he,hown,hreg.2 o ho] at hts
    split at hts
    · rename_i hoo
      cases hts
      exact ⟨t,hoo ▸ hold,hle⟩
    · cases hts

/-- Whoever holds the row is answered the time of its last acquire or renewal. -/
theorem Invariant.getLockTimestamp_of_holds (hi : Invariant lockExpiry s) (hr : Recorded s)
    {t : ℤ} (ht : s.hold op (uint64String rootId) = some t) (hnow : s.now ≤ t + lockExpiry) (p : ℕ) :
    getLockTimestamp values (Service.bigTable.client reg maxRowKeyCount tableMeta store) rootId p =
      .ok (if p = op then some (getValidTimestamp t) else none) := by
  obtain ⟨b,hb,hbown,hble⟩ := hi.backed op _ t ht hnow
  have hblive : Live (timeCutoff s.now lockExpiry) b :=
    le_trans (timeCutoff_le_getValidTimestamp hnow) hble
  rcases getLockTimestamp_cases hreg hstore p with ⟨hempty,-⟩ | ⟨g,hg,he⟩
  · rw [hempty] at hb
    cases hb
  · -- the newest version is live and therefore the holder's
    have hglive : Live (timeCutoff s.now lockExpiry) g := le_trans hblive (hg.2 b hb)
    have hgown : g.owner = uint64String op := (hi.exclusive _ g hg.1 b hb hglive hblive).trans hbown
    obtain ⟨o,ho,t',-,hown,hold,hle⟩ := hr _ g hg.1
    have hoo : o = op := uint64String_injective (hown.symm.trans hgown)
    rw [hoo] at ho hold
    have htt : t' = t := Option.some.inj (hold.symm.trans ht)
    have hstamp : g.stamp = getValidTimestamp t :=
      le_antisymm (htt ▸ hle) (hble.trans (hg.2 b hb))
    rw [he,hgown,hreg.2 op ho,hstamp]
    exact congrArg Except.ok (if_congr eq_comm rfl rfl)

end Times

/-- Renewals are of renewable rows, by operations with `uint64` ids. -/
def renewsOwn (lockExpiry : ℤ) (s : State) (a : Action) : Prop :=
  renewsRenewable lockExpiry s a ∧ ofUint64 s a

instance (lockExpiry : ℤ) (s : State) (a : Action) : Decidable (renewsOwn lockExpiry s a) :=
  inferInstanceAs (Decidable (_ ∧ _))

section Consolidated

variable {lockExpiry : ℤ} {V : Type} {values : Values V} {reg : Registry V}

/-- In every run without renewals of superseded versions the holder of a root, and nobody else, is
answered the time of its last acquire or renewal, floored to the millisecond. -/
theorem lockTimestamp_of_held (hreg : ReadsLocks values reg) {s : State}
    (h : Reachable (machine lockExpiry) (renewsOwn lockExpiry) s) {rootId : ℕ}
    {store : List StoredCell} (hstore : DeliversRow s.table (uint64String rootId) store) {op : ℕ}
    {t : ℤ} (ht : s.hold op (uint64String rootId) = some t) (hnow : s.now ≤ t + lockExpiry)
    (maxRowKeyCount : ℕ) (tableMeta : Option V) (p : ℕ) :
    getLockTimestamp values (Service.bigTable.client reg maxRowKeyCount tableMeta store) rootId p =
      .ok (if p = op then some (getValidTimestamp t) else none) :=
  (Invariant.of_reachable (h.weaken fun _ _ => And.left)).getLockTimestamp_of_holds hreg hstore
    (Recorded.of_reachable (fun _ _ => And.right) h) ht hnow p

variable {maxRowKeyCount : ℕ} {tableMeta : Option V} {stores : ℕ → List StoredCell}
  {completed : List (Except RootError (Option ℤ)) → List (Except RootError (Option ℤ))}
  (hcompleted : ∀ l, (completed l).Perm l) {rootIds operationIds : List ℕ}
include hcompleted

theorem getConsolidatedLockTimestamp_eq_some {m : ℤ} :
    getConsolidatedLockTimestamp values (fun i =>
      Service.bigTable.client reg maxRowKeyCount tableMeta (stores i)) completed rootIds
        operationIds = some m ↔
    (∀ i p, (rootIds.zip operationIds)[i]? = some p → ∃ ts,
      getLockTimestamp values (Service.bigTable.client reg maxRowKeyCount tableMeta (stores i)) p.1
        p.2 = .ok (some ts) ∧ m ≤ ts) ∧
      ∃ i p, (rootIds.zip operationIds)[i]? = some p ∧
        getLockTimestamp values (Service.bigTable.client reg maxRowKeyCount tableMeta (stores i)) p.1
          p.2 = .ok (some m) := by
  rw [getConsolidatedLockTimestamp]
  split
  · rename_i hempty
    refine iff_of_false (by simp) fun ⟨_,i,p,hp,_⟩ => ?_
    rw [List.isEmpty_iff.mp hempty] at hp
    cases hp
  · have hmem : ∀ (P : Except RootError (Option ℤ) → Prop),
        (∀ r ∈ (rootIds.zip operationIds).zipIdx.map (fun p => getLockTimestamp values
          (Service.bigTable.client reg maxRowKeyCount tableMeta (stores p.2)) p.1.1 p.1.2), P r) ↔
        ∀ i p, (rootIds.zip operationIds)[i]? = some p → P (getLockTimestamp values
          (Service.bigTable.client reg maxRowKeyCount tableMeta (stores i)) p.1 p.2) := fun P => by
      simp only [List.mem_map,List.mem_zipIdx_iff_getElem?,Prod.exists,forall_exists_index,and_imp]
      grind
    rw [consolidate_completed hcompleted,hmem]
    refine and_congr_right fun _ => ?_
    rw [← not_iff_not]
    have hnot := hmem fun r => r ≠ .ok (some m)
    grind

variable (maxRowKeyCount tableMeta) in
/-- The consolidated time is no later than the last acquire or renewal by any of the operations,
in whatever states of whatever runs their locks are read. If they hold their roots there, it is the
earliest of the times. -/
theorem consolidatedLockTimestamp_of_held (hreg : ReadsLocks values reg) {states : ℕ → State}
    (hrun : ∀ i, Reachable (machine lockExpiry) ofUint64 (states i))
    (hstores : ∀ i p, (rootIds.zip operationIds)[i]? = some p →
      DeliversRow (states i).table (uint64String p.1) (stores i)) :
    (∀ m, getConsolidatedLockTimestamp values (fun i =>
        Service.bigTable.client reg maxRowKeyCount tableMeta (stores i)) completed rootIds
          operationIds = some m →
      ∀ i p, (rootIds.zip operationIds)[i]? = some p →
        ∃ t, (states i).hold p.2 (uint64String p.1) = some t ∧ m ≤ getValidTimestamp t) ∧
    ((∀ i, Reachable (machine lockExpiry) (renewsOwn lockExpiry) (states i)) →
      rootIds.zip operationIds ≠ [] →
      (∀ i p, (rootIds.zip operationIds)[i]? = some p →
        Holds lockExpiry (states i) p.2 (uint64String p.1)) →
      ∃ i p t, (rootIds.zip operationIds)[i]? = some p ∧
        (states i).hold p.2 (uint64String p.1) = some t ∧
        getConsolidatedLockTimestamp values (fun i =>
          Service.bigTable.client reg maxRowKeyCount tableMeta (stores i)) completed rootIds
            operationIds = some (getValidTimestamp t)) := by
  constructor
  · intro m hm i p hp
    obtain ⟨ts,hts,hle⟩ := ((getConsolidatedLockTimestamp_eq_some hcompleted).mp hm).1 i p hp
    obtain ⟨t,ht,htle⟩ := (Recorded.of_reachable (fun _ _ h => h) (hrun i)).of_getLockTimestamp hreg
      (hstores i p hp) hts
    exact ⟨t,ht,hle.trans htle⟩
  · intro hrenews hne hholds
    have hexact : ∀ i : Fin (rootIds.zip operationIds).length, ∃ t,
        (states i).hold (rootIds.zip operationIds)[i].2
          (uint64String (rootIds.zip operationIds)[i].1) = some t ∧
        getLockTimestamp values (Service.bigTable.client reg maxRowKeyCount tableMeta (stores i))
          (rootIds.zip operationIds)[i].1 (rootIds.zip operationIds)[i].2 =
            .ok (some (getValidTimestamp t)) := fun i => by
      have hp : (rootIds.zip operationIds)[i.1]? = some (rootIds.zip operationIds)[i] :=
        List.getElem?_eq_getElem i.2
      obtain ⟨t,ht,hnow⟩ := hholds i _ hp
      refine ⟨t,ht,?_⟩
      rw [lockTimestamp_of_held hreg (hrenews i) (hstores i _ hp) ht hnow,if_pos rfl]
    choose times hhold htimes using hexact
    have : Nonempty (Fin (rootIds.zip operationIds).length) :=
      ⟨⟨0,List.length_pos_of_ne_nil hne⟩⟩
    obtain ⟨i₀,hmin⟩ := Finite.exists_min times
    refine ⟨i₀,_,times i₀,List.getElem?_eq_getElem i₀.2,hhold i₀,
      (getConsolidatedLockTimestamp_eq_some hcompleted).mpr ⟨fun i p hp => ?_,
        ⟨i₀,_,List.getElem?_eq_getElem i₀.2,htimes i₀⟩⟩⟩
    obtain ⟨hi,rfl⟩ := List.getElem?_eq_some_iff.mp hp
    exact ⟨_,htimes ⟨i,hi⟩,getValidTimestamp_mono (hmin ⟨i,hi⟩)⟩

end Consolidated

def lockIds : Registry ℕ where
  registered c := c = Concurrency.lock.toColumn
  deserialize _ b := (deserializeUint64 b false).toOption.getD 0
  decodable c hc := by
    rw [of_decide_eq_true hc]
    decide +kernel

def idsAsValues : Values ℕ where
  uint64 n := n % 2^64
  uint64_lt _ := Nat.mod_lt _ (by norm_num)
  layerCount _ := none

theorem readsLocks_lockIds : ReadsLocks idsAsValues lockIds := by
  refine ⟨rfl,fun n hn => ?_⟩
  have hd : deserializeUint64 (uint64String n) false = .ok n :=
    deserializeUint64_serializeUint64 hn false
  simp only [idsAsValues,lockIds,hd,Except.toOption,Option.getD_some,Nat.mod_eq_of_lt hn]

def lockTwoRoots : List Action :=
  [.tick 100000007,.call ⟨7,uint64String 1,0⟩ (.lockRoot 1),.tick 5000000,
    .call ⟨8,uint64String 2,0⟩ (.lockRoot 2)]

def twoLocks : List StoredCell :=
  [⟨uint64String 1,Concurrency.lock.toColumn,100000000,uint64String 7⟩,
    ⟨uint64String 2,Concurrency.lock.toColumn,105000000,uint64String 8⟩]

theorem twoLocks_newestFirst : NewestFirst twoLocks :=
  List.pairwise_cons.mpr ⟨fun x hx hk => by
    obtain rfl := List.mem_singleton.mp hx
    exact absurd (uint64String_injective hk) (by decide),List.pairwise_singleton _ _⟩

theorem consolidatedLockTimestamp_of_held_two :
    ∃ s : State, s.hold 7 (uint64String 1) = some 100000007 ∧
      s.hold 8 (uint64String 2) = some 105000007 ∧
      getConsolidatedLockTimestamp idsAsValues
        (fun _ => Service.bigTable.client lockIds 1000 none twoLocks) List.reverse [1,2] [7,8] ≠
          none := by
  obtain ⟨tr,s,hrun,h₇,h₈,hnow,hcells⟩ := exists_exec (machine threeMinutes)
    (renewsOwn threeMinutes) (s := start)
    (P := fun _ s => s.hold 7 (uint64String 1) = some 100000007 ∧
      s.hold 8 (uint64String 2) = some 105000007 ∧ s.now = 105000007 ∧
      ∀ r ∈ ([1,2] : List ℕ), (s.table (uint64String r)).cells =
        (twoLocks.filter fun x => x.rowKey = uint64String r).map ofStored) lockTwoRoots
    (by decide +kernel)
  have hreach : Reachable (machine threeMinutes) (renewsOwn threeMinutes) s :=
    ⟨_,_,start_init _,hrun⟩
  have hpair : ∀ i (p : ℕ × ℕ), ([1,2].zip [7,8])[i]? = some p → p = (1,7) ∨ p = (2,8) :=
    fun i p hp => by simpa using List.mem_of_getElem? hp
  have hdelivers : ∀ i (p : ℕ × ℕ), ([1,2].zip [7,8])[i]? = some p →
      DeliversRow s.table (uint64String p.1) twoLocks := fun i p hp => by
    have hr : p.1 ∈ [1,2] := by rcases hpair i p hp with rfl | rfl <;> decide
    exact deliversRow_of_cells twoLocks_newestFirst (hcells _ hr)
  have hholds : ∀ i (p : ℕ × ℕ), ([1,2].zip [7,8])[i]? = some p →
      Holds threeMinutes s p.2 (uint64String p.1) := fun i p hp => by
    rcases hpair i p hp with rfl | rfl
    · exact ⟨100000007,h₇,by rw [hnow]; decide⟩
    · exact ⟨105000007,h₈,by rw [hnow]; decide⟩
  obtain ⟨i,p,t,-,-,hm⟩ := (consolidatedLockTimestamp_of_held 1000 none List.reverse_perm
    readsLocks_lockIds (fun _ => hreach.weaken fun _ _ => And.right) hdelivers).2 (fun _ => hreach)
    (show ([1,2] : List ℕ).zip [7,8] ≠ [] by simp) hholds
  exact ⟨s,h₇,h₈,by rw [hm]; exact Option.some_ne_none _⟩

end BigTable
end KvdbClient
