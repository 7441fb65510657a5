import KvdbClient.Attributes
import KvdbClient.Float64
import KvdbClient.Tickets
import KvdbClient.Transition

/-! Node and operation ids: `ClientWithIDGen` of `base.py` over the counters of either backend.
A call makes one atomic increment and computes its ids from the new value alone, so a run lists
the calls in the order the server executes their increments. -/
namespace KvdbClient

open Transition Float64

inductive Backend
  | bigTable
  | hBase
  deriving DecidableEq

namespace OperationLogs

def key : Bytes := encodeUtf8 ['i','o','p','e','r','a','t','i','o','n','s']

end OperationLogs

namespace IdAllocation

def counterKey (chunkId : ℕ) : Bytes := serializeUint64 chunkId true false

/-- The rows of the 256 counters of a root chunk. -/
def rootCounterKey (chunkId : ℕ) (counter : Fin 256) : Bytes :=
  serializeKey ('i'::padNodeId chunkId ++ '_'::Nat.toDigits 10 counter)

/-- `_get_ids_range`, when its increment left the counter at `high`. In the BigTable client a
`uint64` is added to an `int64`, which NumPy does in doubles. -/
def getIdsRange (b : Backend) (size high : ℕ) : ℕ × ℕ :=
  match b with
  | .bigTable => (round (round (round high+1)-round size),high)
  | .hBase => (high+1-size,high)

/-- `np.arange` of `uint64` bounds; the length is a quotient of doubles. -/
def arange (start stop step : ℕ) : Option (List ℕ) :=
  let length := ceilDiv (round ((2^64+stop-start) % 2^64)) step
  if length < 2^63 then some ((List.range length).map fun i => (start+i*step) % 2^64) else none

/-- `np.arange` of double bounds into `uint64`s, whose distance is that of the first two. -/
def arangeDouble (start stop step : ℕ) : Option (List ℕ) :=
  let length := ceilDiv (round (stop-start)) step
  let next := round (start+step)
  if length = 0 then some []
  else if start < 2^64 ∧ (length = 1 ∨ next < 2^64) then
    some ((List.range length).map fun i => (start+i*(next-start)) % 2^64)
  else none

def getRootSegmentIdsRange (b : Backend) (size : ℕ) (counter : Fin 256) (high : ℕ) :
    Option (List ℕ) :=
  let (min,max) := getIdsRange b size high
  match b with
  | .bigTable =>
    arangeDouble (round (min*256+counter)) (round (round (round max*256+1)+counter)) 256
  | .hBase => arange ((min*256+counter) % 2^64) ((max*256+1+counter) % 2^64) 256

/-- `create_node_ids`; `none` when NumPy raises. -/
def createNodeIds (b : Backend) (chunkId size high : ℕ) : Option (List ℕ) :=
  let (low,high) := getIdsRange b size high
  (arange low (high+1) 1).map fun newIds => newIds.map (· ||| chunkId)

def createRootNodeIds (b : Backend) (chunkId size : ℕ) (counter : Fin 256) (high : ℕ) :
    Option (List ℕ) :=
  (getRootSegmentIdsRange b size counter high).map fun newIds => newIds.map (· ||| chunkId)

/-- The first of one new id. -/
def createNodeId (b : Backend) (chunkId high : ℕ) : Option ℕ :=
  (createNodeIds b chunkId 1 high).bind (·.head?)

def createRootNodeId (b : Backend) (chunkId : ℕ) (counter : Fin 256) (high : ℕ) : Option ℕ :=
  (createRootNodeIds b chunkId 1 counter high).bind (·.head?)

def createOperationId (b : Backend) (high : ℕ) : ℕ := (getIdsRange b 1 high).2

inductive Call
  | createNodeIds (chunkId size : ℕ)
  | createNodeId (chunkId : ℕ)
  | createRootNodeIds (chunkId size : ℕ) (counter : Fin 256)
  | createRootNodeId (chunkId : ℕ) (counter : Fin 256)
  | setMaxNodeId (chunkId nodeId : ℕ)
  | createOperationId
  deriving DecidableEq

def Call.key : Call → Bytes
  | .createNodeIds chunkId _ | .createNodeId chunkId | .setMaxNodeId chunkId _ => counterKey chunkId
  | .createRootNodeIds chunkId _ counter | .createRootNodeId chunkId counter =>
    rootCounterKey chunkId counter
  | .createOperationId => OperationLogs.key

def Call.size : Call → ℕ
  | .createNodeIds _ size | .createRootNodeIds _ size _ => size
  | .createNodeId _ | .createRootNodeId _ _ | .createOperationId => 1
  | .setMaxNodeId chunkId nodeId => chunkId ^^^ nodeId

/-- A call and the value its increment left the counter at, from which its result is computed. -/
structure Event where
  call : Call
  high : ℕ
  deriving DecidableEq

def Event.nodeIds (b : Backend) (e : Event) : List ℕ :=
  match e.call with
  | .createNodeIds chunkId size => (createNodeIds b chunkId size e.high).getD []
  | .createNodeId chunkId => (createNodeId b chunkId e.high).toList
  | _ => []

def Event.operationIds (b : Backend) (e : Event) : List ℕ :=
  match e.call with
  | .createOperationId => [createOperationId b e.high]
  | _ => []

/-- The counters are signed 64-bit integers; an increment beyond them fails. -/
def machine : Machine (Bytes → ℕ) Call Event where
  init _ := True
  step counters c :=
    if counters c.key+c.size < 2^63 then
      some ([⟨c,counters c.key+c.size⟩],
        Function.update counters c.key (counters c.key+c.size))
    else none

def getMaxNodeId (counters : Bytes → ℕ) (chunkId : ℕ) : ℕ := chunkId ||| counters (counterKey chunkId)

def getMaxOperationId (counters : Bytes → ℕ) : ℕ := counters OperationLogs.key

/-- The calls whose increment leaves a permitted value. -/
def leaves (P : Call → ℕ → Prop) (counters : Bytes → ℕ) (c : Call) : Prop :=
  P c (counters c.key+c.size)

def Event.increment (e : Event) : Tickets.Increment Bytes :=
  ⟨e.call.key,e.high-e.call.size,e.call.size⟩

section Runs

variable {P : Call → ℕ → Prop} {s₀ s : Bytes → ℕ} {tr : List Event}

theorem step_cases {counters t : Bytes → ℕ} {c : Call} {es : List Event}
    (h : machine.step counters c = some (es,t)) :
    es = [⟨c,counters c.key+c.size⟩] ∧
      t = Function.update counters c.key (counters c.key+c.size) ∧
      counters c.key+c.size < 2^63 := by
  simp only [machine] at h
  split at h
  · cases h
    exact ⟨rfl,rfl,by assumption⟩
  · cases h

theorem history {ok : (Bytes → ℕ) → Call → Prop} (h : Exec machine ok s₀ tr s) :
    Tickets.History s₀ (tr.map Event.increment) s := by
  refine h.induct (P := fun tr s => Tickets.History s₀ (tr.map Event.increment) s)
    Tickets.History.nil ?_
  intro tr t c es u _ hh _ hstep
  obtain ⟨rfl,rfl,_⟩ := step_cases hstep
  have hbefore : (Event.increment ⟨c,t c.key+c.size⟩).before = t c.key := by
    simp [Event.increment]
  have hafter : (Event.increment ⟨c,t c.key+c.size⟩).after = t c.key+c.size := by
    simp [Event.increment,Tickets.Increment.after]
  have hsnoc := hh.snoc hbefore
  rw [hafter] at hsnoc
  rw [List.map_append,List.map_singleton]
  exact hsnoc

theorem event_spec (h : Exec machine (leaves P) s₀ tr s) :
    ∀ e ∈ tr, P e.call e.high ∧ e.call.size ≤ e.high ∧ e.high < 2^63 := by
  refine h.induct (P := fun tr _ => ∀ e ∈ tr, P e.call e.high ∧ e.call.size ≤ e.high ∧
    e.high < 2^63) (by simp) ?_
  intro tr t c es u _ hh hok hstep e he
  obtain ⟨rfl,rfl,hlt⟩ := step_cases hstep
  rcases List.mem_append.mp he with he | he
  · exact hh e he
  · rw [List.mem_singleton.mp he]
    exact ⟨hok,Nat.le_add_left _ _,hlt⟩

theorem exists_high (h : Exec machine (leaves P) s₀ tr s) {key : Bytes}
    (hkey : ∃ e ∈ tr, e.call.key = key) : ∃ e ∈ tr, e.call.key = key ∧ s key = e.high := by
  revert hkey
  refine h.induct (P := fun tr s => (∃ e ∈ tr, e.call.key = key) →
    ∃ e ∈ tr, e.call.key = key ∧ s key = e.high) (by simp) ?_
  intro tr t c es u _ hh _ hstep hkey
  obtain ⟨rfl,rfl,_⟩ := step_cases hstep
  by_cases hc : c.key = key
  · exact ⟨⟨c,t c.key+c.size⟩,List.mem_append.mpr (Or.inr (List.mem_singleton_self _)),hc,
      by rw [← hc,Function.update_self]⟩
  · obtain ⟨e,he,hekey⟩ := hkey
    have he : e ∈ tr := by
      rcases List.mem_append.mp he with he | he
      · exact he
      · rw [List.mem_singleton.mp he] at hekey
        exact absurd hekey hc
    obtain ⟨e',he',hkey',hhigh⟩ := hh ⟨e,he,hekey⟩
    exact ⟨e',List.mem_append.mpr (Or.inl he'),hkey',
      by rw [Function.update_of_ne (Ne.symm hc),hhigh]⟩

end Runs

end IdAllocation
end KvdbClient
