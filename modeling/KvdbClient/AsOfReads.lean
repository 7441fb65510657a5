import KvdbClient.NodeVersions

/-! Lookups as of a time, before and after later writes. -/
namespace KvdbClient

theorem filter_eq_of_imp {α : Type} {p q : α → Bool} {l m : List α} (h : l.filter p = m.filter p)
    (hq : ∀ x, q x = true → p x = true) : l.filter q = m.filter q := by
  have hself : ∀ l : List α, l.filter q = (l.filter p).filter q := fun l => by
    rw [List.filter_filter]
    refine List.filter_congr fun x _ => ?_
    cases hx : q x
    · rfl
    · rw [hq x hx,Bool.and_self]
  rw [hself l,hself m,h]

def Service.micros : Service → ℤ → ℤ
  | .hbase _, t => 1000*t
  | _, t => t

/-- Written no later than in the millisecond of the time. -/
def Service.early (timeStamp : ℤ) (b : Service) (x : StoredCell) : Bool :=
  floorMs (b.micros x.timestamp) ≤ floorMs timeStamp

/-- After later writes the table has the same cells up to the time, in the same order, and whatever
other ones. -/
def Service.SameUpTo (timeStamp : ℤ) (before after : List StoredCell) (b : Service) : Prop :=
  before.filter (b.early timeStamp) = after.filter (b.early timeStamp)

/-- Reads of an attribute of nodes return the same, rows in whatever order. -/
structure Client.Agree {V : Type} (client client' : Client V) (c : Column) (w : Window) : Prop where
  readNode : ∀ id, client.readNode id (.one c) w = client'.readNode id (.one c) w
  readNodes : ∀ ids : List ℕ, (∀ id ∈ ids, id < 2^64) →
    (client.readNodes ids (.one c) w).map Dict.get? = (client'.readNodes ids (.one c) w).map Dict.get?

theorem Client.Agree.cases {V : Type} {client client' : Client V} {c : Column} {w : Window}
    (h : client.Agree client' c w) {ids : List ℕ} (hids : ∀ id ∈ ids, id < 2^64) :
    (∃ e, client.readNodes ids (.one c) w = .error e ∧ client'.readNodes ids (.one c) w = .error e) ∨
      ∃ d d', client.readNodes ids (.one c) w = .ok d ∧ client'.readNodes ids (.one c) w = .ok d' ∧
        d.get? = d'.get? := by
  have hread := h.readNodes ids hids
  cases hd : client.readNodes ids (.one c) w with
  | error e =>
    cases hd' : client'.readNodes ids (.one c) w with
    | error e' =>
      rw [hd,hd'] at hread
      cases hread
      exact Or.inl ⟨e,rfl,rfl⟩
    | ok d' =>
      rw [hd,hd'] at hread
      cases hread
  | ok d =>
    cases hd' : client'.readNodes ids (.one c) w with
    | error e' =>
      rw [hd,hd'] at hread
      cases hread
    | ok d' =>
      rw [hd,hd'] at hread
      exact Or.inr ⟨d,d',rfl,rfl,Except.ok.inj hread⟩

section Services

variable {V : Type} (reg : Registry V) (maxRowKeyCount : ℕ) {before after : List StoredCell}
  {timeStamp : ℤ}

theorem early_of_admits {t : ℤ} (h : (RootExtension.asOf timeStamp).Admits t) :
    floorMs t ≤ floorMs timeStamp := by
  have := h.2 _ rfl
  simp only [RootExtension.asOf,getValidTimestamp,getCompatibleTimeStamp_false,Window.upper,
    if_true] at this
  simp only [floorMs] at this ⊢
  omega

/-- The inclusive end of a read as of a time is the start of the next millisecond. -/
theorem asOf_endSet_iff :
    (RootExtension.asOf timeStamp).EndSet ↔ floorMs timeStamp ≠ -1000 := by
  simp only [Window.EndSet,RootExtension.asOf,getValidTimestamp,getCompatibleTimeStamp_false,
    Window.upper,if_true,Option.mem_def,Option.some.injEq,forall_eq',floorMs]
  omega

theorem BigTable.versions_congr (h : Service.bigTable.SameUpTo timeStamp before after)
    (hend : (RootExtension.asOf timeStamp).EndSet) (c : Column) (k : Bytes) :
    versions reg before c (RootExtension.asOf timeStamp) k =
      versions reg after c (RootExtension.asOf timeStamp) k := by
  rw [versions,versions,filter_eq_of_imp h fun x hx => ?_]
  exact decide_eq_true (early_of_admits (Window.admits_of_passes hend (of_decide_eq_true hx).2.2))

section HBase

variable {p : HBase.Paging} (h : (Service.hbase p).SameUpTo timeStamp before after)
  (columns : Columns)
include h

theorem HBase.fetchRowsByRange_congr :
    fetchRowsByRange reg p before columns (RootExtension.asOf timeStamp) =
      fetchRowsByRange reg p after columns (RootExtension.asOf timeStamp) := by
  funext s e inclusive
  rw [fetchRowsByRange,fetchRowsByRange,scan,scan,filter_eq_of_imp h fun x hx => ?_]
  obtain ⟨_,hstart,hend⟩ := admits_iff.mp (of_decide_eq_true hx).2
  exact decide_eq_true (early_of_admits ⟨hstart,hend⟩)

theorem HBase.readByteRows_congr (rows : RowSelection) (userId : Option Text) :
    readByteRows reg p before columns (RootExtension.asOf timeStamp) maxRowKeyCount rows userId =
      readByteRows reg p after columns (RootExtension.asOf timeStamp) maxRowKeyCount rows userId := by
  have hrange := fetchRowsByRange_congr reg h columns
  have hkeys : fetchRowsByKeys reg p before columns (RootExtension.asOf timeStamp) =
      fetchRowsByKeys reg p after columns (RootExtension.asOf timeStamp) := by
    funext ks
    simp only [fetchRowsByKeys,hrange]
  simp only [readByteRows,hrange,hkeys]

end HBase

section Vast

variable (a : Vast.Arrangement) (h : (Service.vast a).SameUpTo timeStamp before after)
  (columns : Columns)
include h

theorem Vast.selectRowsOnce_congr (rows : RowSelection) :
    selectRowsOnce a before rows columns (RootExtension.asOf timeStamp) =
      selectRowsOnce a after rows columns (RootExtension.asOf timeStamp) := by
  have hearly : ∀ {p x}, buildPredicate rows columns (RootExtension.asOf timeStamp) = .ok p →
      p x = true → (Service.vast a).early timeStamp x = true := by
    intro p x hp hx
    have ht : timePredicate (RootExtension.asOf timeStamp) x = true := by
      simp only [buildPredicate,bind,Except.bind,pure,Except.pure] at hp
      split at hp
      · cases hp
      · split at hp
        · cases hp
        · cases hp
          exact (Bool.and_eq_true_iff.mp hx).2
    have hle := (timePredicate_iff.mp ht).2 _ rfl
    simp only [RootExtension.asOf,getValidTimestamp,getCompatibleTimeStamp_false,if_true] at hle
    refine decide_eq_true ?_
    simp only [Service.micros,floorMs] at hle ⊢
    omega
  rw [selectRowsOnce,selectRowsOnce]
  cases hp : buildPredicate rows columns (RootExtension.asOf timeStamp) with
  | error e => rfl
  | ok p =>
    have hselect : select a before p = select a after p :=
      congrArg a.arrange (filter_eq_of_imp h fun x hx => hearly hp hx)
    simp only [bind,Except.bind,hselect]

theorem Vast.readByteRows_congr (rows : RowSelection) :
    readByteRows reg a before maxRowKeyCount rows columns (RootExtension.asOf timeStamp) none =
      readByteRows reg a after maxRowKeyCount rows columns (RootExtension.asOf timeStamp) none := by
  have hselect : selectRows a before maxRowKeyCount rows columns (RootExtension.asOf timeStamp) =
      selectRows a after maxRowKeyCount rows columns (RootExtension.asOf timeStamp) := by
    simp only [selectRows,selectRowsOnce_congr a h columns]
  simp only [readByteRows,userSelection,bind,Except.bind,hselect]

end Vast

/-- Later writes do not show in reads as of the time. -/
theorem Service.agree {reg : Registry V} {maxRowKeyCount : ℕ} (hmax : 0 < maxRowKeyCount)
    (tableMeta : Option V) {b : Service} (h : b.SameUpTo timeStamp before after)
    (hend : b = .bigTable → (RootExtension.asOf timeStamp).EndSet) {c : Column}
    (hc : reg.registered c = true) :
    (b.client reg maxRowKeyCount tableMeta before).Agree (b.client reg maxRowKeyCount tableMeta after)
      c (RootExtension.asOf timeStamp) := by
  cases b with
  | bigTable =>
    refine ⟨fun id => ?_,fun ids hids => ?_⟩
    · refine (BigTable.readNode_one hc before _ id).trans ?_
      rw [BigTable.versions_congr reg h (hend rfl)]
      exact (BigTable.readNode_one hc after _ id).symm
    · obtain ⟨d,hd,hget⟩ := BigTable.readNodes_one hc hmax before (RootExtension.asOf timeStamp) hids
      obtain ⟨d',hd',hget'⟩ := BigTable.readNodes_one hc hmax after (RootExtension.asOf timeStamp) hids
      simp only [client,hd,hd',Except.map]
      refine congrArg Except.ok (funext fun id => ?_)
      rw [hget,hget',BigTable.versions_congr reg h (hend rfl)]
  | hbase p =>
    have hread : ∀ rows, HBase.readByteRows reg p before (.one c) _ maxRowKeyCount rows none = _ :=
      fun rows => HBase.readByteRows_congr reg maxRowKeyCount h (.one c) rows none
    refine ⟨fun id => ?_,fun ids _ => ?_⟩
    · simp only [client,HBase.readNode,KvdbClient.readNode,HBase.readByteRow,hread]
    · simp only [client,HBase.readNodes,hread]
  | vast a =>
    have hread := Vast.readByteRows_congr reg maxRowKeyCount a h (.one c)
    refine ⟨fun id => ?_,fun ids _ => ?_⟩
    · simp only [client,Vast.readNode,KvdbClient.readNode,Vast.readByteRow,hread]
    · simp only [client,Vast.readNodes,hread]

end Services

namespace RootExtension

variable {V : Type} (values : Values V) (graph : RootExtension V) {client : Client V} {timeStamp : ℤ}

/-- The same extension on top of another client. -/
def on (client : Client V) : RootExtension V := { graph with client := client }

section Parents

variable (h : graph.client.Agree client Hierarchy.parent (asOf timeStamp))
include h

theorem getParent_congr (nodeId : ℕ) :
    getParent values graph nodeId timeStamp = getParent values (graph.on client) nodeId timeStamp := by
  simp only [getParent,on,h.readNode]

theorem getParents_congr {nodeIds : List ℕ} (hids : ∀ n ∈ nodeIds, n < 2^64) (failToZero : Bool) :
    getParents values graph nodeIds timeStamp failToZero =
      getParents values (graph.on client) nodeIds timeStamp failToZero := by
  simp only [getParents,on]
  rcases h.cases hids with ⟨e,hd,hd'⟩ | ⟨d,d',hd,hd',hget⟩
  · rw [hd,hd']
  · have hone : parentOrZero values failToZero d = parentOrZero values failToZero d' := by
      funext n
      rw [parentOrZero,parentOrZero,hget]
    simp only [hd,hd',liftRead,bind,Except.bind,hone]

theorem rootLoop_congr (stopLayer : ℤ) (fuel current : ℕ) (allParents : List ℕ) :
    rootLoop values graph timeStamp stopLayer fuel current allParents =
      rootLoop values (graph.on client) timeStamp stopLayer fuel current allParents := by
  induction fuel generalizing current allParents with
  | zero => rfl
  | succ fuel ih =>
    have hfloored : graph.client.Agree client Hierarchy.parent
        (asOf (getValidTimestamp timeStamp)) := by
      rwa [asOf_getValidTimestamp]
    have hparent := getParent_congr values graph hfloored current
    simp only [rootLoop,hparent,ih]
    rfl

omit h in
theorem lt_of_getParents {nodeIds l : List ℕ} {failToZero : Bool}
    (hl : getParents values graph nodeIds timeStamp failToZero = .ok l) : ∀ p ∈ l, p < 2^64 := by
  intro p hp
  simp only [getParents,bind,Except.bind] at hl
  split at hl
  · cases hl
  · rename_i d _
    obtain ⟨n,_,hn⟩ := ExceptLists.exists_of_mem_mapM hl hp
    have hvalue : ∀ {row : RowData V}, row.firstValue.map values.uint64 = .ok p → p < 2^64 :=
      fun {row} hrow => by
        cases hfirst : row.firstValue with
        | error e =>
          rw [hfirst] at hrow
          cases hrow
        | ok v =>
          rw [hfirst] at hrow
          cases hrow
          exact values.uint64_lt v
    simp only [parentOrZero] at hn
    split at hn
    · split at hn
      · cases hn
        norm_num
      · cases hn
    · split at hn
      · cases hn
      · exact hvalue hn

theorem rootsLoop_congr (stopLayer : ℤ) (failToZero : Bool) (k : ℕ) {result : List ℕ}
    (hresult : ∀ n ∈ result, n < 2^64) (layerMask : List Bool) :
    rootsLoop values graph timeStamp stopLayer failToZero k result layerMask =
      rootsLoop values (graph.on client) timeStamp stopLayer failToZero k result layerMask := by
  induction k generalizing result layerMask with
  | zero => rfl
  | succ k ih =>
    have hids : ∀ n ∈ MaskedLists.unique (MaskedLists.select layerMask result), n < 2^64 :=
      fun n hn => hresult n (MaskedLists.mem_of_mem_select (MaskedLists.mem_unique.mp hn))
    have hfloored : graph.client.Agree client Hierarchy.parent
        (asOf (getValidTimestamp timeStamp)) := by
      rwa [asOf_getValidTimestamp]
    have hparents := getParents_congr values graph hfloored hids failToZero
    simp only [rootsLoop,← hparents]
    cases htemp : getParents values graph (MaskedLists.unique (MaskedLists.select layerMask result))
        (getValidTimestamp timeStamp) failToZero with
    | error e => rfl
    | ok tempIds =>
      have hlt : ∀ n ∈ MaskedLists.assign layerMask result (MaskedLists.pick tempIds
          (MaskedLists.inverse (MaskedLists.select layerMask result))), n < 2^64 := fun n hn => by
        rcases MaskedLists.mem_of_mem_assign hn with hn | hn
        · exact hresult n hn
        · exact lt_of_getParents values graph htemp n (MaskedLists.mem_of_mem_pick hn)
      simp only [bind,Except.bind,ih hlt]
      rfl

variable {stopLayer : Option ℤ}
  (hstop : resolveStopLayer values graph stopLayer =
    resolveStopLayer values (graph.on client) stopLayer)
include hstop

theorem getRoot_congr (fuel nodeId : ℕ) :
    getRoot values graph fuel nodeId timeStamp stopLayer =
      getRoot values (graph.on client) fuel nodeId timeStamp stopLayer := by
  simp only [getRoot,hstop,rootLoop_congr values graph h]

theorem getRoots_congr {nodeIds : List ℕ} (hids : ∀ n ∈ nodeIds, n < 2^64) (failToZero : Bool) :
    getRoots values graph nodeIds timeStamp stopLayer failToZero =
      getRoots values (graph.on client) nodeIds timeStamp stopLayer failToZero := by
  simp only [getRoots,hstop,rootsLoop_congr values graph h _ failToZero _ hids]
  rfl

end Parents

theorem isLatestRoots_congr (h : graph.client.Agree client Hierarchy.newParent (asOf timeStamp))
    {rootIds : List ℕ} (hids : ∀ n ∈ rootIds, n < 2^64) :
    isLatestRoots graph rootIds timeStamp = isLatestRoots (graph.on client) rootIds timeStamp := by
  simp only [isLatestRoots,on]
  rcases h.cases hids with ⟨e,hd,hd'⟩ | ⟨d,d',hd,hd',hget⟩
  · rw [hd,hd']
  · have hkeys : ∀ n, n ∉ d.keys ↔ n ∉ d'.keys := fun n => by
      rw [Dict.mem_keys_iff,Dict.mem_keys_iff,hget]
    simp only [hd,hd',liftRead,bind,Except.bind,hkeys]

end RootExtension

open RootExtension in
/-- Later writes change no lookup as of a time, as long as the stop layer stays the same and, on
BigTable, the time is not in the last millisecond before 1970. -/
theorem asOf_immune {V : Type} (values : Values V) (reg : Registry V)
    (hparent : reg.registered Hierarchy.parent = true)
    (hnewParent : reg.registered Hierarchy.newParent = true) (maxRowKeyCount : ℕ)
    (hmax : 0 < maxRowKeyCount) (tableMeta : Option V) (timeStamp : ℤ)
    (before after : List StoredCell) (b : Service) (h : b.SameUpTo timeStamp before after)
    (hend : b = .bigTable → floorMs timeStamp ≠ -1000) (graph : RootExtension V)
    (hext : graph.client = b.client reg maxRowKeyCount tableMeta before) :
    let later := graph.on (b.client reg maxRowKeyCount tableMeta after)
    (∀ n, getParent values graph n timeStamp = getParent values later n timeStamp) ∧
    (∀ nodeIds : List ℕ, (∀ n ∈ nodeIds, n < 2^64) →
      (∀ failToZero, getParents values graph nodeIds timeStamp failToZero =
        getParents values later nodeIds timeStamp failToZero) ∧
      isLatestRoots graph nodeIds timeStamp = isLatestRoots later nodeIds timeStamp) ∧
    ∀ stopLayer, resolveStopLayer values graph stopLayer = resolveStopLayer values later stopLayer →
      (∀ fuel n, getRoot values graph fuel n timeStamp stopLayer =
        getRoot values later fuel n timeStamp stopLayer) ∧
      ∀ nodeIds : List ℕ, (∀ n ∈ nodeIds, n < 2^64) → ∀ failToZero,
        getRoots values graph nodeIds timeStamp stopLayer failToZero =
          getRoots values later nodeIds timeStamp stopLayer failToZero := by
  have hagree : ∀ {c}, reg.registered c = true → graph.client.Agree
      (b.client reg maxRowKeyCount tableMeta after) c (asOf timeStamp) := fun hc => by
    rw [hext]
    exact Service.agree hmax tableMeta h (fun hb => asOf_endSet_iff.mpr (hend hb)) hc
  exact ⟨getParent_congr values graph (hagree hparent),
    fun nodeIds hids => ⟨getParents_congr values graph (hagree hparent) hids,
      isLatestRoots_congr graph (hagree hnewParent) hids⟩,
    fun stopLayer hstop => ⟨getRoot_congr values graph (hagree hparent) hstop,
      fun nodeIds hids => getRoots_congr values graph (hagree hparent) hstop hids⟩⟩

section Writes

def twoLayers : List StoredCell :=
  [⟨GraphSettings.key,GraphSettings.layerCount,0,[2]⟩,
    ⟨serializeUint64 1 false false,Hierarchy.parent,0,[0,0,0,0,0,0,0,2]⟩,
    ⟨serializeUint64 (2*2^56) false false,Hierarchy.parent,0,[0,0,0,0,0,0,0,3]⟩]

def withLater (rowKey : Bytes) (c : Column) : List StoredCell := ⟨rowKey,c,1000,[3]⟩ :: twoLayers

theorem sameUpTo_withLater {b : Service} {timeStamp : ℤ} {rowKey : Bytes} {c : Column}
    (h : floorMs timeStamp < floorMs (b.micros 1000)) :
    b.SameUpTo timeStamp twoLayers (withLater rowKey c) := by
  rw [Service.SameUpTo,withLater,List.filter_cons_of_neg]
  simpa [Service.early] using h

def graphColumns : Registry Bytes :=
  .ofColumns [Hierarchy.parent,Hierarchy.newParent,GraphSettings.layerCount] (by decide +kernel)

def twoLayersExtension (b : Service) : RootExtension Bytes :=
  .init (b.client graphColumns 1000 none twoLayers)

open RootExtension

theorem asOf_immune_newParent :
    getRoot bytesAsValues (twoLayersExtension .bigTable) 3 1 999 (some 3) =
      getRoot bytesAsValues ((twoLayersExtension .bigTable).on
        (Service.bigTable.client graphColumns 1000 none
          (withLater (serializeUint64 1 false false) Hierarchy.parent))) 3 1 999 (some 3) :=
  ((asOf_immune bytesAsValues graphColumns rfl rfl 1000 (by norm_num) none 999
    twoLayers (withLater (serializeUint64 1 false false) Hierarchy.parent) .bigTable
    (sameUpTo_withLater (by decide)) (fun _ => by decide) (twoLayersExtension .bigTable)
      rfl).2.2 (some 3) (by simp only [resolveStopLayer])).1 3 1

/-- A root up to the top layer is another one when the table has got a layer more. -/
theorem newLayer_shows : Service.bigTable.SameUpTo 0 twoLayers
      (withLater GraphSettings.key GraphSettings.layerCount) ∧
    ¬ ∀ fuel n, getRoot bytesAsValues (twoLayersExtension .bigTable) fuel n 0 none =
      getRoot bytesAsValues ((twoLayersExtension .bigTable).on
        (Service.bigTable.client graphColumns 1000 none
          (withLater GraphSettings.key GraphSettings.layerCount))) fuel n 0 none :=
  ⟨sameUpTo_withLater (by decide),fun h => absurd (h 3 1) (by decide +kernel)⟩

end Writes

end KvdbClient
