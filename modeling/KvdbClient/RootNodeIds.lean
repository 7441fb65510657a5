import KvdbClient.NodeIds

/-! Node ids of root chunks: a call takes one of 256 counters at random, and its ids are those of
the counter's numbers that are congruent to the counter. -/
namespace KvdbClient
namespace IdAllocation

open Transition Float64

/-- Chunk ids with `k` zero low bits, at least one id a call, `2 ^ k` ids for all counters. -/
def InRootBudget (k : ℕ) : Call → ℕ → Prop
  | .createRootNodeIds chunkId size _, high =>
    chunkId % 2^k = 0 ∧ 1 ≤ size ∧ 256*(high+1) ≤ 2^k
  | .createRootNodeId chunkId _, high => chunkId % 2^k = 0 ∧ 256*(high+1) ≤ 2^k
  | _, _ => True

/-- BigTable creates ids up to `2 ^ 53`; the HBase client's numbers are exact, but for the length
of an array. -/
def RootPrecise (b : Backend) : Call → ℕ → Prop
  | .createRootNodeIds _ size _, high =>
    b = .bigTable ∧ 256*(high+1) ≤ 2^53 ∨ b = .hBase ∧ size ≤ 2^45
  | .createRootNodeId _ _, high => b = .bigTable ∧ 256*(high+1) ≤ 2^53 ∨ b = .hBase
  | _, _ => True

instance (k : ℕ) : ∀ c high, Decidable (InRootBudget k c high)
  | .createRootNodeIds _ _ _, _ => inferInstanceAs (Decidable (_ ∧ _ ∧ _))
  | .createRootNodeId _ _, _ => inferInstanceAs (Decidable (_ ∧ _))
  | .createNodeIds _ _, _ | .createNodeId _, _ | .setMaxNodeId _ _, _ | .createOperationId, _ =>
    inferInstanceAs (Decidable True)

instance (b : Backend) : ∀ c high, Decidable (RootPrecise b c high)
  | .createRootNodeIds _ _ _, _ | .createRootNodeId _ _, _ => inferInstanceAs (Decidable (_ ∨ _))
  | .createNodeIds _ _, _ | .createNodeId _, _ | .setMaxNodeId _ _, _ | .createOperationId, _ =>
    inferInstanceAs (Decidable True)

/-- The segment ids of the numbers `first, …, first+size-1` of a counter. -/
def strided (first size : ℕ) (counter : Fin 256) : List ℕ :=
  (List.range size).map fun i => 256*(first+i)+counter

section Arithmetic

variable {size high : ℕ} (hpos : 1 ≤ size) (hs : size ≤ high) (counter : Fin 256)
include hpos hs

theorem getRootSegmentIdsRange_bigTable (hprecise : 256*(high+1) ≤ 2^53) :
    getRootSegmentIdsRange .bigTable size counter high =
      some (strided (high+1-size) size counter) := by
  have hc := counter.isLt
  have hrange := getIdsRange_bigTable hs (show high < 2^53 by omega)
  have hstart : round ((high+1-size)*256+counter) = (high+1-size)*256+counter :=
    round_eq_self (by omega)
  have hmax : round high = high := round_eq_self (by omega)
  have hone : round (high*256+1) = high*256+1 := round_eq_self (by omega)
  have hstop : round (high*256+1+counter) = high*256+1+counter := round_eq_self (by omega)
  have hdiff : high*256+1+counter-((high+1-size)*256+counter) = 256*(size-1)+1 := by omega
  have hlength : ceilDiv (round (256*(size-1)+1)) 256 = size := by
    rw [round_eq_self (by omega),ceilDiv]
    omega
  have hne : size ≠ 0 := by omega
  have hfits : (high+1-size)*256+counter < 2^64 ∧
      (size = 1 ∨ round ((high+1-size)*256+counter+256) < 2^64) := by
    refine ⟨by omega,?_⟩
    by_cases hone : size = 1
    · exact Or.inl hone
    · rw [round_eq_self (by omega)]
      omega
  simp only [getRootSegmentIdsRange,hrange,hstart,hmax,hone,hstop,arangeDouble,hdiff,hlength,
    if_neg hne,if_pos hfits,strided]
  congr 1
  apply List.map_congr_left
  intro i hi
  have hi := List.mem_range.mp hi
  rcases Nat.eq_zero_or_pos i with rfl | hipos
  · rw [Nat.zero_mul,Nat.mod_eq_of_lt (by omega)]
    omega
  · have hnext : round ((high+1-size)*256+counter+256) = (high+1-size)*256+counter+256 :=
      round_eq_self (by omega)
    rw [hnext,Nat.add_sub_cancel_left,Nat.mod_eq_of_lt (by omega)]
    omega

theorem getRootSegmentIdsRange_hBase (hint : 256*(high+1) ≤ 2^64) (hsize : size ≤ 2^45) :
    getRootSegmentIdsRange .hBase size counter high =
      some (strided (high+1-size) size counter) := by
  have hc := counter.isLt
  have hstart : ((high+1-size)*256+counter) % 2^64 = (high+1-size)*256+counter :=
    Nat.mod_eq_of_lt (by omega)
  have hdiff : (2^64+(high*256+1+counter) % 2^64-((high+1-size)*256+counter)) % 2^64 =
      256*(size-1)+1 := by omega
  have hlength : ceilDiv (round (256*(size-1)+1)) 256 = size := by
    rw [round_eq_self (by omega),ceilDiv]
    omega
  have hlt : size < 2^63 := by omega
  simp only [getRootSegmentIdsRange,getIdsRange,hstart,arange,hdiff,hlength,if_pos hlt,strided]
  congr 1
  apply List.map_congr_left
  intro i hi
  have hi := List.mem_range.mp hi
  rw [Nat.mod_eq_of_lt (by omega)]
  omega

end Arithmetic

section Ids

variable {b : Backend} {k chunkId size high : ℕ} {counter : Fin 256} (hk : k ≤ 64)
  (hchunk : chunkId % 2^k = 0) (hpos : 1 ≤ size) (hs : size ≤ high) (hbudget : 256*(high+1) ≤ 2^k)
include hk hchunk hpos hs hbudget

/-- In its bounds a call returns the ids of the numbers its increment passed, each multiplied by
the number of counters. -/
theorem createRootNodeIds_eq
    (hprecise : b = .bigTable ∧ 256*(high+1) ≤ 2^53 ∨ b = .hBase ∧ size ≤ 2^45) :
    createRootNodeIds b chunkId size counter high =
      some ((strided (high+1-size) size counter).map (chunkId+·)) := by
  have hint : 256*(high+1) ≤ 2^64 := hbudget.trans (Nat.pow_le_pow_right (by norm_num) hk)
  have hrange : getRootSegmentIdsRange b size counter high =
      some (strided (high+1-size) size counter) := by
    rcases hprecise with ⟨rfl,hh⟩ | ⟨rfl,hsize⟩
    · exact getRootSegmentIdsRange_bigTable hpos hs counter hh
    · exact getRootSegmentIdsRange_hBase hpos hs counter hint hsize
  rw [createRootNodeIds,hrange,Option.map_some]
  congr 1
  apply List.map_congr_left
  intro segment hsegment
  obtain ⟨i,hi,rfl⟩ := List.mem_map.mp hsegment
  have hi := List.mem_range.mp hi
  have hc := counter.isLt
  exact or_eq_add hchunk (by omega)

end Ids

theorem createRootNodeId_eq {b : Backend} {k chunkId high : ℕ} {counter : Fin 256} (hk : k ≤ 64)
    (hchunk : chunkId % 2^k = 0) (hpos : 1 ≤ high) (hbudget : 256*(high+1) ≤ 2^k)
    (hprecise : b = .bigTable ∧ 256*(high+1) ≤ 2^53 ∨ b = .hBase) :
    createRootNodeId b chunkId counter high = some (chunkId+(256*high+counter)) := by
  have hp : b = .bigTable ∧ 256*(high+1) ≤ 2^53 ∨ b = .hBase ∧ 1 ≤ 2^45 :=
    hprecise.imp_right fun h => ⟨h,by norm_num⟩
  simp [createRootNodeId,createRootNodeIds_eq hk hchunk le_rfl hpos hbudget hp,strided]

def Event.rootNodeIds (b : Backend) (e : Event) : List ℕ :=
  match e.call with
  | .createRootNodeIds chunkId size counter =>
    (createRootNodeIds b chunkId size counter e.high).getD []
  | .createRootNodeId chunkId counter => (createRootNodeId b chunkId counter e.high).toList
  | _ => []

/-- An id of the chunk that is congruent to the counter above the chunk bits. -/
def OfCounter (k chunkId : ℕ) (counter : Fin 256) (id : ℕ) : Prop :=
  ∃ segment : ℕ, segment < 2^k ∧ segment % 256 = counter ∧ id = chunkId+segment

structure RootCollisionFree (b : Backend) (k : ℕ) (tr : List Event) : Prop where
  distinct : ∀ chunkId size counter high, ⟨.createRootNodeIds chunkId size counter,high⟩ ∈ tr →
    ∃ ids, createRootNodeIds b chunkId size counter high = some ids ∧ ids.length = size ∧
      ids.Nodup ∧ ∀ id ∈ ids, OfCounter k chunkId counter id
  single : ∀ chunkId counter high, ⟨.createRootNodeId chunkId counter,high⟩ ∈ tr →
    ∃ id, createRootNodeId b chunkId counter high = some id ∧ OfCounter k chunkId counter id
  rootNodeIds_nodup : (tr.flatMap (Event.rootNodeIds b)).Nodup

theorem nodup_strided (first size : ℕ) (counter : Fin 256) (chunkId : ℕ) :
    ((strided first size counter).map (chunkId+·)).Nodup := by
  rw [strided,List.map_map]
  refine List.Nodup.map (fun i j h => ?_) List.nodup_range
  simp only [Function.comp] at h
  omega

def rootTicket (k id : ℕ) : Bytes × ℕ :=
  (rootCounterKey (id / 2^k * 2^k) (Fin.ofNat 256 (id % 2^k)),id % 2^k / 256)

theorem rootTicket_add {k chunkId n : ℕ} {counter : Fin 256} (hchunk : chunkId % 2^k = 0)
    (hn : 256*n+counter < 2^k) :
    rootTicket k (chunkId+(256*n+counter)) = (rootCounterKey chunkId counter,n) := by
  have hc := counter.isLt
  obtain ⟨a,rfl⟩ := Nat.dvd_of_mod_eq_zero hchunk
  have hpos : 0 < 2^k := by positivity
  have hcounter : Fin.ofNat 256 (256*n+counter) = counter := by
    apply Fin.ext
    simp [Nat.mod_eq_of_lt hc]
  rw [rootTicket,Nat.mul_add_mod,Nat.mod_eq_of_lt hn,Nat.mul_add_div hpos,Nat.div_eq_of_lt hn,
    Nat.add_zero,Nat.mul_comm a,hcounter]
  congr 1
  omega

section Events

variable {b : Backend} {k : ℕ} {e : Event} (hk : k ≤ 64)
  (hbudget : InRootBudget k e.call e.high) (hprecise : RootPrecise b e.call e.high)
  (hs : e.call.size ≤ e.high)
include hk hbudget hprecise hs

theorem mem_rootNodeIds {id : ℕ} (hid : id ∈ e.rootNodeIds b) :
    ∃ chunkId counter n, e.call.key = rootCounterKey chunkId counter ∧ chunkId % 2^k = 0 ∧
      e.high-e.call.size < n ∧ n ≤ e.high ∧ 256*n+(counter : ℕ) < 2^k ∧
      id = chunkId+(256*n+counter) := by
  obtain ⟨c,high⟩ := e
  cases c with
  | createRootNodeIds chunkId size counter =>
    obtain ⟨hchunk,hpos,hbound⟩ : chunkId % 2^k = 0 ∧ 1 ≤ size ∧ 256*(high+1) ≤ 2^k := hbudget
    simp only [Call.size] at hs ⊢
    simp only [Event.rootNodeIds,createRootNodeIds_eq hk hchunk hpos hs hbound hprecise,
      Option.getD_some,strided,List.map_map] at hid
    obtain ⟨i,hi,rfl⟩ := List.mem_map.mp hid
    have hi := List.mem_range.mp hi
    have hc := counter.isLt
    exact ⟨chunkId,counter,high+1-size+i,rfl,hchunk,by omega,by omega,by omega,rfl⟩
  | createRootNodeId chunkId counter =>
    obtain ⟨hchunk,hbound⟩ : chunkId % 2^k = 0 ∧ 256*(high+1) ≤ 2^k := hbudget
    simp only [Call.size] at hs ⊢
    simp only [Event.rootNodeIds,createRootNodeId_eq hk hchunk hs hbound hprecise,
      Option.toList_some,List.mem_singleton] at hid
    have hc := counter.isLt
    exact ⟨chunkId,counter,high,rfl,hchunk,by omega,le_rfl,by omega,hid⟩
  | createNodeIds | createNodeId | setMaxNodeId | createOperationId =>
    simp [Event.rootNodeIds] at hid

theorem rootNodeIds_nodup : (e.rootNodeIds b).Nodup := by
  obtain ⟨c,high⟩ := e
  cases c with
  | createRootNodeIds chunkId size counter =>
    obtain ⟨hchunk,hpos,hbound⟩ : chunkId % 2^k = 0 ∧ 1 ≤ size ∧ 256*(high+1) ≤ 2^k := hbudget
    simp only [Call.size] at hs
    simp only [Event.rootNodeIds,createRootNodeIds_eq hk hchunk hpos hs hbound hprecise,
      Option.getD_some]
    exact nodup_strided _ _ _ _
  | createRootNodeId chunkId counter =>
    simp only [Event.rootNodeIds]
    cases createRootNodeId b chunkId counter high <;> simp
  | createNodeIds | createNodeId | setMaxNodeId | createOperationId => simp [Event.rootNodeIds]

end Events

def rootPermitted (b : Backend) (k : ℕ) : (Bytes → ℕ) → Call → Prop :=
  leaves fun c high => InRootBudget k c high ∧ RootPrecise b c high

instance (b : Backend) (k : ℕ) (counters : Bytes → ℕ) (c : Call) :
    Decidable (rootPermitted b k counters c) :=
  inferInstanceAs (Decidable (InRootBudget k c _ ∧ RootPrecise b c _))

instance (k : ℕ) (counters : Bytes → ℕ) (c : Call) :
    Decidable (leaves (InRootBudget k) counters c) :=
  inferInstanceAs (Decidable (InRootBudget k c _))

theorem run_rootNodeIds_nodup {b : Backend} {k : ℕ} (hk : k ≤ 64) {s₀ s : Bytes → ℕ}
    {tr : List Event} (h : Exec machine (rootPermitted b k) s₀ tr s) :
    (tr.flatMap (Event.rootNodeIds b)).Nodup := by
  refine (history h).nodup_flatMap (rootTicket k) (fun e he => ?_) fun e he id hid => ?_
  · obtain ⟨⟨hbudget,hprecise⟩,hs,_⟩ := event_spec h e he
    exact rootNodeIds_nodup hk hbudget hprecise hs
  · obtain ⟨⟨hbudget,hprecise⟩,hs,_⟩ := event_spec h e he
    obtain ⟨chunkId,counter,n,hkey,hzero,hbefore,hhigh,hlt,rfl⟩ :=
      mem_rootNodeIds hk hbudget hprecise hs hid
    rw [rootTicket_add hzero hlt]
    exact ⟨hkey.symm,hbefore,hhigh.trans (Nat.sub_add_cancel hs).ge⟩

/-- In every run whose calls keep to the budgets of root chunks and, on BigTable, create ids up to
`2 ^ 53` only, the root ids are free of collisions. -/
theorem rootIds_collisionFree (b : Backend) (k : ℕ) (hk : k ≤ 64) (s₀ s : Bytes → ℕ)
    (tr : List Event) (h : Exec machine (rootPermitted b k) s₀ tr s) :
    RootCollisionFree b k tr where
  distinct chunkId size counter high he := by
    obtain ⟨⟨⟨hchunk,hpos,hbound⟩,hprecise⟩,hs,_⟩ := event_spec h _ he
    have hs : size ≤ high := hs
    have hbound : 256*(high+1) ≤ 2^k := hbound
    refine ⟨_,createRootNodeIds_eq hk hchunk hpos hs hbound hprecise,by simp [strided],
      nodup_strided _ _ _ _,fun id hid => ?_⟩
    obtain ⟨segment,hsegment,rfl⟩ := List.mem_map.mp hid
    obtain ⟨i,hi,rfl⟩ := List.mem_map.mp hsegment
    have hi := List.mem_range.mp hi
    have hc := counter.isLt
    exact ⟨_,by omega,by omega,rfl⟩
  single chunkId counter high he := by
    obtain ⟨⟨⟨hchunk,hbound⟩,hprecise⟩,hs,_⟩ := event_spec h _ he
    have hbound : 256*(high+1) ≤ 2^k := hbound
    have hc := counter.isLt
    exact ⟨_,createRootNodeId_eq hk hchunk hs hbound hprecise,_,by omega,by omega,rfl⟩
  rootNodeIds_nodup := run_rootNodeIds_nodup hk h

theorem rootIds_collisionFree_hBase : ∃ tr s,
    Exec machine (rootPermitted .hBase 16) (fun _ => 0) tr s ∧
    tr.flatMap (Event.rootNodeIds .hBase) = [65799,66055,65800,66311] ∧
    RootCollisionFree .hBase 16 tr := by
  obtain ⟨tr,s,hrun,hids⟩ := exists_exec machine (rootPermitted .hBase 16)
    (s := fun _ => 0)
    (P := fun tr _ => tr.flatMap (Event.rootNodeIds .hBase) = [65799,66055,65800,66311])
    [.createRootNodeIds 65536 2 7,.createRootNodeId 65536 8,.createRootNodeIds 65536 1 7]
    (by decide +kernel)
  exact ⟨tr,s,hrun,hids,rootIds_collisionFree .hBase 16 (by norm_num) _ _ _ hrun⟩

/-- On BigTable a call that takes the counter to `2 ^ 45` returns no id: the bounds of the range
`2 ^ 53` and `2 ^ 53 + 1` are rounded to one double. -/
theorem bigTable_returns_no_rootId : ∃ tr s,
    Exec machine (leaves (InRootBudget 54)) (fun _ => 2^45-1) tr s ∧
    tr = [⟨.createRootNodeIds (2^54) 1 0,2^45⟩] ∧
    createRootNodeIds .bigTable (2^54) 1 0 (2^45) = some [] ∧
    ¬ RootCollisionFree .bigTable 54 tr := by
  obtain ⟨tr,s,hrun,htr⟩ := exists_exec machine (leaves (InRootBudget 54))
    (s := fun _ => 2^45-1) (P := fun tr _ => tr = [⟨.createRootNodeIds (2^54) 1 0,2^45⟩])
    [.createRootNodeIds (2^54) 1 0] (by decide +kernel)
  have hids : createRootNodeIds .bigTable (2^54) 1 0 (2^45) = some [] := by decide +kernel
  refine ⟨tr,s,hrun,htr,hids,fun hfree => ?_⟩
  obtain ⟨ids,hcreated,hlength,_⟩ := hfree.distinct (2^54) 1 0 (2^45) (by simp [htr])
  rw [hids] at hcreated
  obtain rfl := Option.some.inj hcreated
  exact absurd hlength (by simp)

end IdAllocation
end KvdbClient
