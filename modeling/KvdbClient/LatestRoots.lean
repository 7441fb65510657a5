import KvdbClient.AsOfReads
import KvdbClient.LockTimestamps
import KvdbClient.ReplacedRoots

/-! What `is_latest_roots` tells of the lock calls, over runs of guarded writes on BigTable: a root
that it once reports as replaced is reported so ever after and never locked again, and of the latest
ones only locks keep the lock away. -/
namespace KvdbClient
namespace BigTable

open Lease Transition
open RootExtension (asOf isLatestRoots)

theorem DeliversRow.versions_eq_nil {V : Type} (reg : Registry V) {t : Table} {k : Bytes}
    {store : List StoredCell} (h : DeliversRow t k store) (c : Column) (w : Window) :
    versions reg store c w k = [] ↔ ∀ g ∈ (t k).grants c, ¬ w.Passes g.stamp := by
  rw [versions,List.map_eq_nil_iff,List.filter_eq_nil_iff]
  simp only [decide_eq_true_eq]
  constructor
  · rintro hnone g ⟨x,hx,hc,rfl⟩ hw
    exact hnone ⟨k,x.column,x.timestampMicros,x.value⟩ ((h.2 _ rfl).mpr hx) ⟨rfl,hc,hw⟩
  · rintro hnone x hx ⟨hk,hc,hw⟩
    exact hnone _ ⟨ofStored x,(h.2 x hk).mp hx,hc,rfl⟩ hw

def ReplacedBy (t : Table) (rootId : ℕ) (timeStamp : ℤ) : Prop :=
  ∃ ts ∈ replacements t rootId, (asOf timeStamp).Passes ts

theorem admits_asOf {timeStamp ts : ℤ} :
    (asOf timeStamp).Admits ts ↔ ts < getValidTimestamp timeStamp + 1000 := by
  simp only [Window.Admits,asOf,Window.upper,floorMs,getValidTimestamp,getCompatibleTimeStamp,
    Option.mem_def,reduceCtorEq,false_implies,implies_true,true_and,Option.some.injEq,
    forall_eq',if_true,Bool.false_eq_true,if_false]
  omega

theorem ReplacedBy.mono {t u : Table} {rootId : ℕ} {timeStamp timeStamp' : ℤ}
    (h : ReplacedBy t rootId timeStamp) (hend : (asOf timeStamp).EndSet)
    (ht : replacements t rootId ⊆ replacements u rootId) (hle : timeStamp ≤ timeStamp') :
    ReplacedBy u rootId timeStamp' := by
  obtain ⟨ts,hts,hw⟩ := h
  have hlt := admits_asOf.mp (Window.admits_of_passes hend hw)
  have hmono := getValidTimestamp_mono hle
  exact ⟨ts,ht hts,Window.passes_of_admits (admits_asOf.mpr (hlt.trans_le (by omega)))⟩

section Reads

variable {V : Type} {reg : Registry V} {t : Table} {store : List StoredCell} {maxRowKeyCount : ℕ}

theorem isLatestRoots_eq (graph : RootExtension V) (hmax : 0 < maxRowKeyCount)
    (tableMeta : Option V) (hreg : reg.registered Hierarchy.newParent = true) {rootIds : List ℕ}
    (hids : ∀ r ∈ rootIds, r < 2^64) (h : ∀ r ∈ rootIds, DeliversRow t (uint64String r) store)
    (timeStamp : ℤ) : ∃ latest : ℕ → Bool,
      isLatestRoots (graph.on (Service.bigTable.client reg maxRowKeyCount tableMeta store)) rootIds
        timeStamp = .ok (rootIds.map latest) ∧
      ∀ r ∈ rootIds, latest r = true ↔ ¬ ReplacedBy t r timeStamp := by
  obtain ⟨d,hd,hget⟩ := readNodes_one hreg hmax store (asOf timeStamp) hids
  refine ⟨fun r => r ∉ d.keys,?_,fun r hr => ?_⟩
  · have hread : (Service.bigTable.client reg maxRowKeyCount tableMeta store).readNodes rootIds
        (.one Hierarchy.newParent) (asOf timeStamp) = .ok d := hd
    simp only [isLatestRoots,RootExtension.on,hread]
    rfl
  · have hkeys : r ∈ d.keys ↔
        versions reg store Hierarchy.newParent (asOf timeStamp) (uint64String r) ≠ [] := by
      rw [Dict.mem_keys_iff,hget r,if_pos hr]
      change (∃ v, rowOf (versions reg store Hierarchy.newParent (asOf timeStamp)
        (uint64String r)) = some v) ↔ _
      rw [rowOf]
      split <;> simp_all
    have hreplaced : ReplacedBy t r timeStamp ↔ ∃ g ∈ (t (uint64String r)).grants
        Hierarchy.newParent, (asOf timeStamp).Passes g.stamp := by
      constructor
      · rintro ⟨-,⟨g,hg,rfl⟩,hw⟩
        exact ⟨g,hg,hw⟩
      · rintro ⟨g,hg,hw⟩
        exact ⟨g.stamp,⟨g,hg,rfl⟩,hw⟩
    rw [decide_eq_true_eq,hkeys,hreplaced,ne_eq,
      DeliversRow.versions_eq_nil reg (h r hr) Hierarchy.newParent (asOf timeStamp)]
    simp only [not_exists,not_and,not_not]

end Reads

/-- A lock of the root that keeps others from taking it. -/
def Locked (lockExpiry : ℤ) (s : State) (rootId : ℕ) : Prop :=
  (indefiniteGrants (s.table (serializeUint64 rootId false false))).Nonempty ∨
    ∃ g ∈ lockGrants (s.table (serializeUint64 rootId false false)),
      Live (timeCutoff s.now lockExpiry) g

theorem call_lockRoot_iff (lockExpiry : ℤ) (s : State) (i : Caller) (rootId : ℕ) :
    (s.call lockExpiry i (.lockRoot rootId)).1 = true ↔
      ¬ Locked lockExpiry s rootId ∧ ¬ Replaced s.table rootId := by
  rw [← not_or]
  rcases acquireWith_cases (t := s.table) (k := serializeUint64 rootId false false)
    matches_getRootLockFilter (setLockMutation Concurrency.lock i.operationId s.now) with
    ⟨he,hp⟩ | ⟨he,hp⟩
  · refine iff_of_false ?_ (not_not_intro hp)
    change ¬ (lockRoot lockExpiry s.now s.table rootId i.operationId).1 = true
    rw [lockRoot,he]
    exact Bool.false_ne_true
  · refine iff_of_true ?_ hp
    change (lockRoot lockExpiry s.now s.table rootId i.operationId).1 = true
    rw [lockRoot,he]

namespace GuardedWrite

/-- From a run's first state to its last one, `is_latest_roots` takes no root back that it reported
as replaced, and no lock call of such a root succeeds. The other way round, when a time is asked for
that no replacement comes after, the latest roots without a lock are those that `lock_root` takes.
The earlier time must not be in the last millisecond before 1970, whose end Bigtable reads as none. -/
theorem latestRoots_lockable (lockExpiry : ℤ) {V : Type} {reg : Registry V}
    (graph : RootExtension V) {maxRowKeyCount : ℕ} (hmax : 0 < maxRowKeyCount)
    (tableMeta : Option V) (hreg : reg.registered Hierarchy.newParent = true) {s₀ s : State}
    {tr : List Event} (hrun : Exec (machine lockExpiry) any s₀ tr s) {rootIds : List ℕ}
    (hids : ∀ r ∈ rootIds, r < 2^64) {store₀ store : List StoredCell}
    (h₀ : ∀ r ∈ rootIds, DeliversRow s₀.locks.table (uint64String r) store₀)
    (h : ∀ r ∈ rootIds, DeliversRow s.locks.table (uint64String r) store)
    {timeStamp₀ timeStamp : ℤ} (hend : floorMs timeStamp₀ ≠ -1000) (htime : timeStamp₀ ≤ timeStamp) :
    ∃ latest₀ latest : ℕ → Bool,
      isLatestRoots (graph.on (Service.bigTable.client reg maxRowKeyCount tableMeta store₀)) rootIds
        timeStamp₀ = .ok (rootIds.map latest₀) ∧
      isLatestRoots (graph.on (Service.bigTable.client reg maxRowKeyCount tableMeta store)) rootIds
        timeStamp = .ok (rootIds.map latest) ∧
      ∀ r ∈ rootIds,
        (latest₀ r = false → latest r = false ∧
          ∀ i c, LocksRoot r c → s.locks.call lockExpiry i c = (false,s.locks)) ∧
        ((∀ ts ∈ replacements s.locks.table r, ts ≤ timeStamp) → ∀ i,
          (s.locks.call lockExpiry i (.lockRoot r)).1 = true ↔
            latest r = true ∧ ¬ Locked lockExpiry s.locks r) := by
  obtain ⟨latest₀,hlatest₀,hiff₀⟩ := isLatestRoots_eq graph hmax tableMeta hreg hids h₀ timeStamp₀
  obtain ⟨latest,hlatest,hiff⟩ := isLatestRoots_eq graph hmax tableMeta hreg hids h timeStamp
  refine ⟨latest₀,latest,hlatest₀,hlatest,fun r hr => ⟨fun hfalse => ?_,fun hstamps i => ?_⟩⟩
  · have hby₀ : ReplacedBy s₀.locks.table r timeStamp₀ := by
      by_contra hnot
      rw [(hiff₀ r hr).mpr hnot] at hfalse
      cases hfalse
    have hby : ReplacedBy s.locks.table r timeStamp :=
      hby₀.mono (asOf_endSet_iff.mpr hend) (replacements_run hrun) htime
    obtain ⟨ts,hts,-⟩ := id hby
    refine ⟨Bool.eq_false_iff.mpr fun htrue => (hiff r hr).mp htrue hby,fun i c hc => ?_⟩
    exact call_of_replaced (replaced_iff.mpr ⟨ts,hts⟩) i hc
  · have hby : ReplacedBy s.locks.table r timeStamp ↔ Replaced s.locks.table r := by
      rw [replaced_iff]
      refine ⟨fun ⟨ts,hts,_⟩ => ⟨ts,hts⟩,fun ⟨ts,hts⟩ =>
        ⟨ts,hts,Window.passes_of_admits (admits_asOf.mpr ?_)⟩⟩
      have hle := hstamps ts hts
      simp only [getValidTimestamp,getCompatibleTimeStamp,Bool.false_eq_true,if_false]
      omega
    rw [call_lockRoot_iff,hiff r hr,hby,and_comm]

def replacedAndLocked : List StoredCell :=
  [⟨uint64String 7,Hierarchy.newParent,0,[]⟩,
    ⟨uint64String 8,Concurrency.lock.toColumn,0,uint64String 1⟩]

theorem latestRoots_lockable_locked : ∃ tr s latest,
    Exec (machine threeMinutes) any oneReplaced tr s ∧
    isLatestRoots ((RootExtension.init (Service.bigTable.client .newParentOnly 1000 none [])).on
      (Service.bigTable.client .newParentOnly 1000 none replacedAndLocked)) [7,8] 5000 =
        .ok ([7,8].map latest) ∧
    latest 7 = false ∧ latest 8 = true ∧
    (∀ i, s.locks.call threeMinutes i (.lockRoot 7) = (false,s.locks)) ∧
    ∀ i, (s.locks.call threeMinutes i (.lockRoot 8)).1 = false := by
  obtain ⟨tr,s,hrun,hcells,hstamps,hlive⟩ := exists_exec (machine threeMinutes) any (s := oneReplaced)
    (P := fun _ s => (∀ r ∈ ([7,8] : List ℕ), (s.locks.table (uint64String r)).cells =
        (replacedAndLocked.filter fun x => x.rowKey = uint64String r).map ofStored) ∧
      (∀ x ∈ (s.locks.table (uint64String 8)).cells, x.column ≠ Hierarchy.newParent) ∧
      timeCutoff s.locks.now threeMinutes ≤ 0)
    [.lock (.call (rootCaller 1 8) (.lockRoot 8))] (by decide +kernel)
  have hids : ∀ r ∈ ([7,8] : List ℕ), r < 2^64 := by decide
  have hnew : NewestFirst replacedAndLocked := List.pairwise_cons.mpr ⟨fun x hx hk => by
    obtain rfl := List.mem_singleton.mp hx
    exact absurd (uint64String_injective hk) (by decide),List.pairwise_singleton _ _⟩
  have hstart : ∀ r ∈ ([7,8] : List ℕ), DeliversRow oneReplaced.locks.table (uint64String r)
      (replacedAndLocked.take 1) := fun r hr => by
    refine deliversRow_of_cells (hnew.sublist (List.take_sublist _ _)) ?_
    revert r
    decide +kernel
  obtain ⟨latest₀,latest,h₀,h,hroots⟩ := latestRoots_lockable threeMinutes
    (RootExtension.init (Service.bigTable.client .newParentOnly 1000 none []))
    (show 0 < 1000 by norm_num) none (show Registry.newParentOnly.registered _ = true from rfl)
    hrun hids hstart
    (fun r hr => deliversRow_of_cells hnew (hcells r hr)) (show floorMs 0 ≠ -1000 by decide)
    (show (0 : ℤ) ≤ 5000 by norm_num)
  have hbefore : isLatestRoots ((RootExtension.init (Service.bigTable.client .newParentOnly 1000 none
      [])).on (Service.bigTable.client .newParentOnly 1000 none (replacedAndLocked.take 1))) [7,8] 0 =
        .ok [false,true] := by decide +kernel
  have hafter : isLatestRoots ((RootExtension.init (Service.bigTable.client .newParentOnly 1000 none
      [])).on (Service.bigTable.client .newParentOnly 1000 none replacedAndLocked)) [7,8] 5000 =
        .ok [false,true] := by decide +kernel
  obtain ⟨h₇,-⟩ : latest₀ 7 = false ∧ latest₀ 8 = true := by simpa [h₀] using hbefore
  obtain ⟨-,h₈⟩ : latest 7 = false ∧ latest 8 = true := by simpa [h] using hafter
  obtain ⟨hlatest₇,hrefused⟩ := (hroots 7 (by simp)).1 h₇
  have hlocked : Locked threeMinutes s.locks 8 := by
    refine Or.inr ⟨⟨uint64String 1,0⟩,⟨⟨Concurrency.lock.toColumn,0,uint64String 1⟩,?_,rfl,rfl⟩,hlive⟩
    rw [show serializeUint64 8 false false = uint64String 8 from rfl,hcells 8 (by simp)]
    decide +kernel
  have hiff := (hroots 8 (by simp)).2 fun ts hts => by
    obtain ⟨g,⟨x,hx,hcolumn,-⟩,-⟩ := hts
    exact absurd hcolumn (hstamps x hx)
  refine ⟨tr,s,latest,hrun,h,hlatest₇,h₈,fun i => hrefused i _ (Or.inl rfl),fun i => ?_⟩
  exact Bool.eq_false_iff.mpr fun htrue => ((hiff i).mp htrue).2 hlocked

end GuardedWrite
end BigTable
end KvdbClient
