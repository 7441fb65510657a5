import KvdbClient.IdAllocation

/-! Node ids from the plain counter of a chunk, and operation ids: within a chunk's budget of
`2 ^ k` ids no id is handed out twice. -/
namespace KvdbClient
namespace IdAllocation

open Transition Float64

/-- Chunk ids with `k` zero low bits, at least one id a call, counters below `2 ^ k`. -/
def InBudget (k : ℕ) : Call → ℕ → Prop
  | .createNodeIds chunkId size, high => chunkId % 2^k = 0 ∧ 1 ≤ size ∧ high < 2^k
  | .createNodeId chunkId, high => chunkId % 2^k = 0 ∧ high < 2^k
  | .setMaxNodeId chunkId nodeId, high =>
    chunkId % 2^k = 0 ∧ nodeId / 2^k * 2^k = chunkId ∧ high < 2^k
  | .createOperationId, _ => True
  | .createRootNodeIds _ _ _, _ | .createRootNodeId _ _, _ => False

/-- BigTable creates ids while the counter is below `2 ^ 53`; the HBase client's numbers are
exact, but for the length of an array. -/
def Precise (b : Backend) : Call → ℕ → Prop
  | .createNodeIds _ size, high => b = .bigTable ∧ high < 2^53 ∨ b = .hBase ∧ size ≤ 2^53
  | .createNodeId _, high => b = .bigTable ∧ high < 2^53 ∨ b = .hBase
  | _, _ => True

instance (k : ℕ) : ∀ c high, Decidable (InBudget k c high)
  | .createNodeIds _ _, _ | .setMaxNodeId _ _, _ => inferInstanceAs (Decidable (_ ∧ _ ∧ _))
  | .createNodeId _, _ => inferInstanceAs (Decidable (_ ∧ _))
  | .createOperationId, _ => inferInstanceAs (Decidable True)
  | .createRootNodeIds _ _ _, _ | .createRootNodeId _ _, _ => inferInstanceAs (Decidable False)

instance (b : Backend) : ∀ c high, Decidable (Precise b c high)
  | .createNodeIds _ _, _ | .createNodeId _, _ => inferInstanceAs (Decidable (_ ∨ _))
  | .createRootNodeIds _ _ _, _ | .createRootNodeId _ _, _ | .setMaxNodeId _ _, _
  | .createOperationId, _ => inferInstanceAs (Decidable True)

theorem getIdsRange_bigTable {size high : ℕ} (hs : size ≤ high) (hh : high < 2^53) :
    getIdsRange .bigTable size high = (high+1-size,high) := by
  have h₁ : round high = high := round_eq_self hh.le
  have h₂ : round (high+1) = high+1 := round_eq_self (by omega)
  have h₃ : round size = size := round_eq_self (by omega)
  have h₄ : round (high+1-size) = high+1-size := round_eq_self (by omega)
  simp only [getIdsRange,h₁,h₂,h₃,h₄]

theorem arange_eq (start : ℕ) {n : ℕ} (hn : n ≤ 2^53) (hstop : start+n < 2^64) :
    arange start (start+n) 1 = some (List.range' start n) := by
  have hdiff : (2^64+(start+n)-start) % 2^64 = n := by
    rw [show 2^64+(start+n)-start = n+2^64 by omega,Nat.add_mod_right,Nat.mod_eq_of_lt (by omega)]
  have hlen : ceilDiv (round n) 1 = n := by simp [ceilDiv,round_eq_self hn]
  simp only [arange,hdiff,hlen,if_pos (show n < 2^63 by omega)]
  rw [List.range'_eq_map_range]
  congr 1
  apply List.map_congr_left
  intro i hi
  have := List.mem_range.mp hi
  rw [Nat.mul_one,Nat.mod_eq_of_lt (by omega)]

theorem or_eq_add {k segment chunkId : ℕ} (hchunk : chunkId % 2^k = 0) (hs : segment < 2^k) :
    segment ||| chunkId = chunkId+segment := by
  obtain ⟨a,rfl⟩ := Nat.dvd_of_mod_eq_zero hchunk
  rw [Nat.or_comm,Nat.two_pow_add_eq_or_of_lt hs]

/-- The increment of `set_max_node_id` is the node's distance from its chunk. -/
theorem add_xor_eq {k chunkId nodeId : ℕ} (h : nodeId / 2^k * 2^k = chunkId) :
    chunkId + (chunkId ^^^ nodeId) = nodeId := by
  subst h
  have hdiv : (nodeId / 2^k * 2^k ^^^ nodeId) / 2^k = 0 := by
    rw [Nat.xor_div_two_pow,Nat.mul_div_cancel _ (by positivity),Nat.xor_self]
  have hmod : (nodeId / 2^k * 2^k ^^^ nodeId) % 2^k = nodeId % 2^k := by
    rw [Nat.xor_mod_two_pow,Nat.mul_mod_left,Nat.zero_xor]
  have hxor : nodeId / 2^k * 2^k ^^^ nodeId = nodeId % 2^k := by
    rw [← hmod,Nat.mod_eq_of_lt (Nat.lt_of_div_eq_zero (by positivity) hdiv)]
  rw [hxor,Nat.div_add_mod']

/-- In its bounds a call returns the ids of the numbers its increment passed. -/
theorem createNodeIds_eq {b : Backend} {k chunkId size high : ℕ} (hchunk : chunkId % 2^k = 0)
    (hs : size ≤ high) (hk : high < 2^k) (hint : high < 2^63)
    (hprecise : b = .bigTable ∧ high < 2^53 ∨ b = .hBase ∧ size ≤ 2^53) :
    createNodeIds b chunkId size high = some (List.range' (chunkId+(high+1-size)) size) := by
  have hrange : getIdsRange b size high = (high+1-size,high) := by
    rcases hprecise with ⟨rfl,hh⟩ | ⟨rfl,_⟩
    · exact getIdsRange_bigTable hs hh
    · rfl
  have hsize : size ≤ 2^53 := by
    rcases hprecise with ⟨_,hh⟩ | ⟨_,hh⟩
    · omega
    · exact hh
  have harange : arange (high+1-size) (high+1) 1 = some (List.range' (high+1-size) size) := by
    have := arange_eq (high+1-size) hsize (by omega)
    rwa [show high+1-size+size = high+1 by omega] at this
  simp only [createNodeIds,hrange,harange,Option.map_some]
  congr 1
  apply List.ext_getElem (by simp)
  intro i hi _
  simp only [List.length_map,List.length_range'] at hi
  simp only [List.getElem_map,List.getElem_range']
  rw [or_eq_add hchunk (by omega)]
  omega

theorem createNodeId_eq {b : Backend} {k chunkId high : ℕ} (hchunk : chunkId % 2^k = 0)
    (hs : 1 ≤ high) (hk : high < 2^k) (hint : high < 2^63)
    (hprecise : b = .bigTable ∧ high < 2^53 ∨ b = .hBase) :
    createNodeId b chunkId high = some (chunkId+high) := by
  have hp : b = .bigTable ∧ high < 2^53 ∨ b = .hBase ∧ 1 ≤ 2^53 :=
    hprecise.imp_right fun h => ⟨h,by norm_num⟩
  simp [createNodeId,createNodeIds_eq hchunk hs hk hint hp,List.range']

def Call.chunk : Call → Option ℕ
  | .createNodeIds chunkId _ | .createNodeId chunkId => some chunkId
  | _ => none

/-- What the allocation of ids promises of a run that left the counters at `counters`. -/
structure CollisionFree (b : Backend) (k : ℕ) (tr : List Event) (counters : Bytes → ℕ) : Prop where
  consecutive : ∀ chunkId size high, ⟨.createNodeIds chunkId size,high⟩ ∈ tr →
    ∃ segment, segment+size ≤ 2^k ∧
      createNodeIds b chunkId size high = some (List.range' (chunkId+segment) size)
  single : ∀ chunkId high, ⟨.createNodeId chunkId,high⟩ ∈ tr →
    ∃ segment < 2^k, createNodeId b chunkId high = some (chunkId+segment)
  nodeIds_nodup : (tr.flatMap (Event.nodeIds b)).Nodup
  operationIds_nodup : (tr.flatMap (Event.operationIds b)).Nodup
  aboveMax : tr.Pairwise fun e e' => ∀ chunkId nodeId, e.call = .setMaxNodeId chunkId nodeId →
    e'.call.chunk = some chunkId → ∀ id ∈ e'.nodeIds b, nodeId < id
  maxNodeId : ∀ e ∈ tr, ∀ chunkId, e.call.chunk = some chunkId → ∀ id ∈ e.nodeIds b,
    id ≤ getMaxNodeId counters chunkId
  maxOperationId : ∀ e ∈ tr, ∀ id ∈ e.operationIds b, id ≤ getMaxOperationId counters

section Events

variable {b : Backend} {k : ℕ} {e : Event}

theorem mem_nodeIds (hbudget : InBudget k e.call e.high) (hprecise : Precise b e.call e.high)
    (hs : e.call.size ≤ e.high) (hint : e.high < 2^63) {id : ℕ} (hid : id ∈ e.nodeIds b) :
    ∃ chunkId segment, e.call.chunk = some chunkId ∧ chunkId % 2^k = 0 ∧ segment < 2^k ∧
      e.high-e.call.size < segment ∧ segment ≤ e.high ∧ id = chunkId+segment := by
  obtain ⟨c,high⟩ := e
  cases c with
  | createNodeIds chunkId size =>
    obtain ⟨hchunk,hpos,hk⟩ : chunkId % 2^k = 0 ∧ 1 ≤ size ∧ high < 2^k := hbudget
    simp only [Call.size] at hs hint ⊢
    simp only [Event.nodeIds,createNodeIds_eq hchunk hs hk hint hprecise,Option.getD_some,
      List.mem_range'_1] at hid
    exact ⟨chunkId,id-chunkId,rfl,hchunk,by omega,by omega,by omega,by omega⟩
  | createNodeId chunkId =>
    obtain ⟨hchunk,hk⟩ := hbudget
    simp only [Call.size] at hs ⊢
    simp only [Event.nodeIds,createNodeId_eq hchunk hs hk hint hprecise,Option.toList_some,
      List.mem_singleton] at hid
    exact ⟨chunkId,high,rfl,hchunk,hk,by omega,le_rfl,hid⟩
  | createRootNodeIds | createRootNodeId | setMaxNodeId | createOperationId =>
    simp [Event.nodeIds] at hid

theorem nodeIds_nodup (hbudget : InBudget k e.call e.high) (hprecise : Precise b e.call e.high)
    (hs : e.call.size ≤ e.high) (hint : e.high < 2^63) : (e.nodeIds b).Nodup := by
  obtain ⟨c,high⟩ := e
  cases c with
  | createNodeIds chunkId size =>
    obtain ⟨hchunk,hpos,hk⟩ := hbudget
    simp only [Call.size] at hs
    simp only [Event.nodeIds,createNodeIds_eq hchunk hs hk hint hprecise,Option.getD_some]
    exact List.nodup_range'
  | createNodeId chunkId =>
    simp only [Event.nodeIds]
    cases createNodeId b chunkId high <;> simp
  | createRootNodeIds | createRootNodeId | setMaxNodeId | createOperationId =>
    simp [Event.nodeIds]

/-- The counter and the number a node id was made from. -/
def nodeTicket (k id : ℕ) : Bytes × ℕ := (counterKey (id / 2^k * 2^k),id % 2^k)

theorem nodeTicket_add {chunkId segment : ℕ} (hchunk : chunkId % 2^k = 0) (hs : segment < 2^k) :
    nodeTicket k (chunkId+segment) = (counterKey chunkId,segment) := by
  obtain ⟨a,rfl⟩ := Nat.dvd_of_mod_eq_zero hchunk
  have hpos : 0 < 2^k := by positivity
  rw [nodeTicket,Nat.mul_add_mod,Nat.mod_eq_of_lt hs,Nat.mul_add_div hpos,Nat.div_eq_of_lt hs,
    Nat.add_zero,Nat.mul_comm a]

theorem key_of_chunk {c : Call} {chunkId : ℕ} (h : c.chunk = some chunkId) :
    c.key = counterKey chunkId := by
  cases c <;> simp_all [Call.chunk,Call.key]

end Events

theorem counterKey_ne_operationLogs (chunkId : ℕ) : counterKey chunkId ≠ OperationLogs.key := by
  intro h
  have hpad : padNodeId chunkId = ['o','p','e','r','a','t','i','o','n','s'] :=
    (List.cons.inj (serializeKey_injective (h : serializeKey ('i'::padNodeId chunkId) = _))).2
  have hdigit := isDigit_of_mem_padNodeId (n := chunkId) (c := 'o') (by simp [hpad])
  exact absurd hdigit (by decide)

theorem high_lt_of_key {k : ℕ} {c : Call} {chunkId high : ℕ} (hbudget : InBudget k c high)
    (hkey : c.key = counterKey chunkId) : high < 2^k := by
  cases c with
  | createNodeIds => exact hbudget.2.2
  | createNodeId => exact hbudget.2
  | setMaxNodeId => exact hbudget.2.2
  | createOperationId => exact absurd hkey.symm (counterKey_ne_operationLogs chunkId)
  | createRootNodeIds | createRootNodeId => exact hbudget.elim

/-- The side condition of a run: the callers keep to the chunk budgets, and the numbers of the
client stay precise. -/
def permitted (b : Backend) (k : ℕ) : (Bytes → ℕ) → Call → Prop :=
  leaves fun c high => InBudget k c high ∧ Precise b c high

instance (b : Backend) (k : ℕ) (counters : Bytes → ℕ) (c : Call) :
    Decidable (permitted b k counters c) :=
  inferInstanceAs (Decidable (InBudget k c _ ∧ Precise b c _))

section Allocation

variable {b : Backend} {k : ℕ} {s₀ s : Bytes → ℕ} {tr : List Event}

theorem mem_nodeIds_of_run (h : Exec machine (permitted b k) s₀ tr s) {e : Event} (he : e ∈ tr)
    {id : ℕ} (hid : id ∈ e.nodeIds b) :
    ∃ chunkId segment, e.call.chunk = some chunkId ∧ chunkId % 2^k = 0 ∧ segment < 2^k ∧
      e.increment.before < segment ∧ segment ≤ e.high ∧ id = chunkId+segment := by
  obtain ⟨⟨hbudget,hprecise⟩,hs,hint⟩ := event_spec h e he
  exact mem_nodeIds hbudget hprecise hs hint hid

theorem after_increment (h : Exec machine (permitted b k) s₀ tr s) {e : Event} (he : e ∈ tr) :
    e.increment.after = e.high :=
  Nat.sub_add_cancel (event_spec h e he).2.1

theorem run_nodeIds_nodup (h : Exec machine (permitted b k) s₀ tr s) :
    (tr.flatMap (Event.nodeIds b)).Nodup := by
  refine (history h).nodup_flatMap (nodeTicket k) (fun e he => ?_) fun e he id hid => ?_
  · obtain ⟨⟨hbudget,hprecise⟩,hs,hint⟩ := event_spec h e he
    exact nodeIds_nodup hbudget hprecise hs hint
  · obtain ⟨chunkId,segment,hchunk,hzero,hlt,hbefore,hhigh,rfl⟩ := mem_nodeIds_of_run h he hid
    rw [nodeTicket_add hzero hlt]
    exact ⟨(key_of_chunk hchunk).symm,hbefore,(after_increment h he).symm ▸ hhigh⟩

theorem mem_operationIds {e : Event} {id : ℕ} (hid : id ∈ e.operationIds b) :
    e.call = .createOperationId ∧ id = e.high := by
  obtain ⟨c,high⟩ := e
  cases c with
  | createOperationId =>
    refine ⟨rfl,?_⟩
    cases b <;> exact List.mem_singleton.mp hid
  | createNodeIds | createNodeId | createRootNodeIds | createRootNodeId | setMaxNodeId =>
    simp [Event.operationIds] at hid

theorem run_operationIds_nodup (h : Exec machine (permitted b k) s₀ tr s) :
    (tr.flatMap (Event.operationIds b)).Nodup := by
  refine (history h).nodup_flatMap (fun id => (OperationLogs.key,id)) (fun e _ => ?_)
    fun e he id hid => ?_
  · unfold Event.operationIds
    split <;> simp
  · obtain ⟨hcall,rfl⟩ := mem_operationIds hid
    have hs := (event_spec h e he).2.1
    have hsize : e.call.size = 1 := by rw [hcall]; rfl
    refine ⟨by simp [Event.increment,hcall,Call.key],?_,(after_increment h he).ge⟩
    simp only [Event.increment]
    omega

/-- A later id of the chunk is above the node: its number is above the value the increment of
`set_max_node_id` left, which is at least the node's. -/
theorem run_aboveMax (h : Exec machine (permitted b k) s₀ tr s) :
    tr.Pairwise fun e e' => ∀ chunkId nodeId, e.call = .setMaxNodeId chunkId nodeId →
      e'.call.chunk = some chunkId → ∀ id ∈ e'.nodeIds b, nodeId < id := by
  have hordered := List.Pairwise.and_mem.mp (List.pairwise_map.mp (history h).ordered)
  refine hordered.imp fun {e e'} hee chunkId nodeId hset hchunk id hid => ?_
  obtain ⟨he,he',hle⟩ := hee
  obtain ⟨chunkId',segment,hchunk',_,_,hbefore,_,rfl⟩ := mem_nodeIds_of_run h he' hid
  obtain rfl : chunkId' = chunkId := Option.some.inj (hchunk'.symm.trans hchunk)
  have hkey : e.increment.key = e'.increment.key := by
    rw [show e'.increment.key = _ from key_of_chunk hchunk,Event.increment,hset]
    rfl
  have hafter := hle hkey
  have hbudget := (event_spec h e he).1.1
  rw [hset] at hbudget
  have hnode := add_xor_eq hbudget.2.1
  have hsize : chunkId' ^^^ nodeId ≤ e.increment.after := by
    rw [Tickets.Increment.after,Event.increment,hset]
    exact Nat.le_add_left _ _
  omega

theorem run_maxNodeId (h : Exec machine (permitted b k) s₀ tr s) {e : Event} (he : e ∈ tr)
    {chunkId : ℕ} (hchunk : e.call.chunk = some chunkId) {id : ℕ} (hid : id ∈ e.nodeIds b) :
    id ≤ getMaxNodeId s chunkId := by
  obtain ⟨chunkId',segment,hchunk',hzero,hlt,_,hhigh,rfl⟩ := mem_nodeIds_of_run h he hid
  obtain rfl : chunkId' = chunkId := Option.some.inj (hchunk'.symm.trans hchunk)
  have hkey : e.increment.key = counterKey chunkId' := key_of_chunk hchunk
  have hcounter : e.high ≤ s (counterKey chunkId') := by
    rw [← after_increment h he,← hkey]
    exact (history h).after_le (List.mem_map_of_mem he)
  obtain ⟨e',he',hkey',hs⟩ := exists_high h ⟨e,he,hkey⟩
  have hbound : s (counterKey chunkId') < 2^k := by
    rw [hs]
    exact high_lt_of_key (event_spec h e' he').1.1 hkey'
  rw [getMaxNodeId,Nat.or_comm,or_eq_add hzero hbound]
  omega

/-- In every run whose calls keep to the chunk budgets and, on BigTable, create node ids below
`2 ^ 53` only, the ids are free of collisions. -/
theorem ids_collisionFree (b : Backend) (k : ℕ) (s₀ s : Bytes → ℕ) (tr : List Event)
    (h : Exec machine (permitted b k) s₀ tr s) : CollisionFree b k tr s where
  consecutive chunkId size high he := by
    obtain ⟨⟨⟨hchunk,_,hk⟩,hprecise⟩,hs,hint⟩ := event_spec h _ he
    have hs : size ≤ high := hs
    have hk : high < 2^k := hk
    exact ⟨high+1-size,by omega,createNodeIds_eq hchunk hs hk hint hprecise⟩
  single chunkId high he := by
    obtain ⟨⟨⟨hchunk,hk⟩,hprecise⟩,hs,hint⟩ := event_spec h _ he
    exact ⟨high,hk,createNodeId_eq hchunk hs hk hint hprecise⟩
  nodeIds_nodup := run_nodeIds_nodup h
  operationIds_nodup := run_operationIds_nodup h
  aboveMax := run_aboveMax h
  maxNodeId _ he _ hchunk _ hid := run_maxNodeId h he hchunk hid
  maxOperationId e he id hid := by
    obtain ⟨hcall,rfl⟩ := mem_operationIds hid
    have hle := (history h).after_le (List.mem_map_of_mem he)
    rw [after_increment h he] at hle
    simpa [Event.increment,hcall,Call.key,getMaxOperationId] using hle

end Allocation

theorem ids_collisionFree_bigTable : ∃ tr s,
    Exec machine (permitted .bigTable 8) (fun _ => 0) tr s ∧
    tr.flatMap (Event.nodeIds .bigTable) = [257,258,259,268] ∧ CollisionFree .bigTable 8 tr s := by
  obtain ⟨tr,s,hrun,hids⟩ := exists_exec machine (permitted .bigTable 8)
    (s := fun _ => 0) (P := fun tr _ => tr.flatMap (Event.nodeIds .bigTable) = [257,258,259,268])
    [.createNodeIds 256 3,.setMaxNodeId 256 264,.createNodeId 256,.createOperationId]
    (by decide +kernel)
  exact ⟨tr,s,hrun,hids,ids_collisionFree .bigTable 8 _ _ _ hrun⟩

instance (k : ℕ) (counters : Bytes → ℕ) (c : Call) : Decidable (leaves (InBudget k) counters c) :=
  inferInstanceAs (Decidable (InBudget k c _))

/-- On BigTable a call for one id after `set_max_node_id` returns three, the maximum among them:
the sum of the counter `2 ^ 53 + 1` and one is rounded to `2 ^ 53`. -/
theorem bigTable_returns_maxNodeId_again : ∃ tr s,
    Exec machine (leaves (InBudget 54)) (fun _ => 0) tr s ∧
    tr = [⟨.setMaxNodeId (2^54) (2^54+2^53),2^53⟩,⟨.createNodeIds (2^54) 1,2^53+1⟩] ∧
    createNodeIds .bigTable (2^54) 1 (2^53+1) =
      some [2^54+2^53-1,2^54+2^53,2^54+2^53+1] ∧ ¬ CollisionFree .bigTable 54 tr s := by
  obtain ⟨tr,s,hrun,htr⟩ := exists_exec machine (leaves (InBudget 54))
    (s := fun _ => 0)
    (P := fun tr _ => tr = [⟨.setMaxNodeId (2^54) (2^54+2^53),2^53⟩,
      ⟨.createNodeIds (2^54) 1,2^53+1⟩])
    [.setMaxNodeId (2^54) (2^54+2^53),.createNodeIds (2^54) 1] (by decide +kernel)
  have hids : createNodeIds .bigTable (2^54) 1 (2^53+1) =
      some [2^54+2^53-1,2^54+2^53,2^54+2^53+1] := by decide +kernel
  refine ⟨tr,s,hrun,htr,hids,fun hfree => ?_⟩
  obtain ⟨segment,_,hrange⟩ := hfree.consecutive (2^54) 1 (2^53+1) (by simp [htr])
  rw [hids] at hrange
  exact absurd (congrArg List.length (Option.some.inj hrange)) (by simp)

end IdAllocation
end KvdbClient
