import KvdbClient.NodeIds

/-! No id of a chunk is left out: what was not returned was skipped by `set_max_node_id`. -/
namespace KvdbClient
namespace IdAllocation

open Transition

/-- The ids of a call on a plain counter: those that it returns, or that it skips. -/
def Event.uses (b : Backend) (e : Event) : List ℕ :=
  match e.call with
  | .setMaxNodeId chunkId _ => List.range' (chunkId+(e.high+1-e.call.size)) e.call.size
  | _ => e.nodeIds b

def ofChunk (chunkId : ℕ) (tr : List Event) : List Event :=
  tr.filter fun e => e.call.key = counterKey chunkId

def ofOperations (tr : List Event) : List Event :=
  tr.filter fun e => e.call.key = OperationLogs.key

section Runs

variable {b : Backend} {k chunkId : ℕ} {s₀ s : Bytes → ℕ} {tr : List Event}

theorem counterKey_injective : Function.Injective counterKey := fun _ _ h =>
  padNodeId_injective (List.cons.inj (serializeKey_injective h)).2

theorem uses_eq (h : Exec machine (permitted b k) s₀ tr s) {e : Event} (he : e ∈ tr)
    (hkey : e.call.key = counterKey chunkId) :
    e.uses b = (List.range' (e.increment.before+1) e.increment.size).map (chunkId + ·) := by
  obtain ⟨⟨hbudget,hprecise⟩,hs,hint⟩ := event_spec h e he
  obtain ⟨c,high⟩ := e
  have hrange : ∀ size ≤ high, List.range' (chunkId+(high+1-size)) size =
      (List.range' (high-size+1) size).map (chunkId + ·) := fun size hsize => by
    rw [List.map_add_range',show high+1-size = high-size+1 by omega]
  cases c with
  | createNodeIds chunkId' size =>
    obtain rfl : chunkId' = chunkId := counterKey_injective hkey
    obtain ⟨hchunk,-,hk⟩ := hbudget
    have hids : createNodeIds b chunkId' size high = some _ :=
      createNodeIds_eq hchunk hs hk hint hprecise
    change (createNodeIds b chunkId' size high).getD [] = _
    rw [hids]
    exact hrange size hs
  | createNodeId chunkId' =>
    obtain rfl : chunkId' = chunkId := counterKey_injective hkey
    obtain ⟨hchunk,hk⟩ := hbudget
    have hs : 1 ≤ high := hs
    have hid : createNodeId b chunkId' high = some _ := createNodeId_eq hchunk hs hk hint hprecise
    change (createNodeId b chunkId' high).toList = _
    rw [hid]
    have hone := hrange 1 hs
    rw [Nat.add_sub_cancel] at hone
    exact hone
  | setMaxNodeId chunkId' nodeId =>
    obtain rfl : chunkId' = chunkId := counterKey_injective hkey
    exact hrange _ hs
  | createOperationId => exact absurd hkey.symm (counterKey_ne_operationLogs chunkId)
  | createRootNodeIds | createRootNodeId => exact hbudget.elim

theorem operationIds_eq (h : Exec machine (permitted b k) s₀ tr s) {e : Event} (he : e ∈ tr)
    (hkey : e.call.key = OperationLogs.key) :
    e.operationIds b = List.range' (e.increment.before+1) e.increment.size := by
  obtain ⟨⟨hbudget,-⟩,hs,-⟩ := event_spec h e he
  obtain ⟨c,high⟩ := e
  cases c with
  | createOperationId =>
    have hs : 1 ≤ high := hs
    have hbefore : high-1+1 = high := Nat.sub_add_cancel hs
    cases b <;> simp [Event.operationIds,createOperationId,getIdsRange,Event.increment,Call.size,hbefore]
  | createNodeIds | createNodeId | setMaxNodeId =>
    exact absurd hkey (counterKey_ne_operationLogs _)
  | createRootNodeIds | createRootNodeId => exact hbudget.elim

theorem flatMap_uses (h : Exec machine (permitted b k) s₀ tr s) (key : Bytes)
    {uses : Event → List ℕ} {f : ℕ → ℕ} (huses : ∀ e ∈ tr, e.call.key = key →
      uses e = (List.range' (e.increment.before+1) e.increment.size).map f) :
    s₀ key ≤ s key ∧ (tr.filter fun e => e.call.key = key).flatMap uses =
      (List.range' (s₀ key+1) (s key-s₀ key)).map f := by
  obtain ⟨hle,hnumbers⟩ := (history h).numbers key
  refine ⟨hle,?_⟩
  rw [← hnumbers,List.filter_map,List.map_flatMap,List.flatMap_map]
  refine List.flatMap_congr fun e he => ?_
  obtain ⟨he,hkey⟩ := List.mem_filter.mp he
  exact huses e he (of_decide_eq_true hkey)

/-- In every run that keeps to the budgets, in whatever order the increments of its clients are
executed, the ids that were returned for a chunk or skipped by `set_max_node_id` are all those from
the first free one up to `get_max_node_id`, each once and in order; and likewise the operation ids
up to `get_max_operation_id`. -/
theorem ids_dense (b : Backend) (k : ℕ) (s₀ s : Bytes → ℕ) (tr : List Event)
    (h : Exec machine (permitted b k) s₀ tr s) {chunkId : ℕ} (hchunk : chunkId % 2^k = 0)
    (hfirst : s₀ (counterKey chunkId) < 2^k) :
    (∃ n, getMaxNodeId s chunkId = getMaxNodeId s₀ chunkId+n ∧
      (ofChunk chunkId tr).flatMap (Event.uses b) =
        List.range' (getMaxNodeId s₀ chunkId+1) n) ∧
    ∃ n, getMaxOperationId s = getMaxOperationId s₀+n ∧
      (ofOperations tr).flatMap (Event.operationIds b) =
        List.range' (getMaxOperationId s₀+1) n := by
  obtain ⟨hle,huses⟩ := flatMap_uses h (counterKey chunkId) fun e he hkey => uses_eq h he hkey
  obtain ⟨hleop,hop⟩ : s₀ OperationLogs.key ≤ s OperationLogs.key ∧
      (ofOperations tr).flatMap (Event.operationIds b) =
        (List.range' (s₀ OperationLogs.key+1) (s OperationLogs.key-s₀ OperationLogs.key)).map id :=
    flatMap_uses h OperationLogs.key fun e he hkey => by
      rw [List.map_id]
      exact operationIds_eq h he hkey
  have hlast : s (counterKey chunkId) < 2^k := by
    by_cases hkey : ∃ e ∈ tr, e.call.key = counterKey chunkId
    · obtain ⟨e,he,hkey,hhigh⟩ := exists_high h hkey
      rw [hhigh]
      exact high_lt_of_key (event_spec h e he).1.1 hkey
    · have hsame : s (counterKey chunkId) = s₀ (counterKey chunkId) :=
        (history h).unchanged fun i hi hik => by
          obtain ⟨e,he,rfl⟩ := List.mem_map.mp hi
          exact hkey ⟨e,he,hik⟩
      rwa [hsame]
  refine ⟨⟨s (counterKey chunkId)-s₀ (counterKey chunkId),?_,?_⟩,
    ⟨s OperationLogs.key-s₀ OperationLogs.key,?_,?_⟩⟩
  · rw [getMaxNodeId,getMaxNodeId,Nat.or_comm,or_eq_add hchunk hlast,Nat.or_comm,
      or_eq_add hchunk hfirst]
    omega
  · rw [ofChunk,huses,List.map_add_range',getMaxNodeId,Nat.or_comm,or_eq_add hchunk hfirst,
      Nat.add_assoc]
  · rw [getMaxOperationId,getMaxOperationId]
    omega
  · rw [hop,List.map_id,getMaxOperationId]

end Runs

theorem ids_dense_bigTable : ∃ tr s,
    Exec machine (permitted .bigTable 8) (fun _ => 0) tr s ∧ getMaxNodeId s 256 = 268 ∧
      (ofChunk 256 tr).flatMap (Event.uses .bigTable) = List.range' 257 12 := by
  obtain ⟨tr,s,hrun,hmax⟩ := exists_exec machine (permitted .bigTable 8) (s := fun _ => 0)
    (P := fun _ s => getMaxNodeId s 256 = 268)
    [.createNodeIds 256 3,.createNodeIds 512 2,.setMaxNodeId 256 264,.createNodeId 256,
      .createOperationId] (by decide +kernel)
  obtain ⟨⟨n,hn,huses⟩,-⟩ := ids_dense .bigTable 8 _ _ _ hrun (show 256 % 2^8 = 0 by decide)
    (by decide)
  have hzero : getMaxNodeId (fun _ => 0) 256 = 256 := rfl
  rw [hzero] at hn huses
  obtain rfl : n = 12 := by omega
  exact ⟨tr,s,hrun,hmax,huses⟩

end IdAllocation
end KvdbClient
