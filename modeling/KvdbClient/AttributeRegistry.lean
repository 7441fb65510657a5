import KvdbClient.LogEntries

/-! The registry of the attributes of a process: `attributes.py`. Constructing an attribute enters
it, so the registry depends on what the process has imported and constructed. -/
namespace KvdbClient

inductive AttributeSerializer
  | numPy (s : NumPy.Serializer)
  | uint64String
  | string
  | pickle
  deriving DecidableEq

/-- `_Attribute`. -/
structure RegisteredAttribute extends Column where
  serializer : AttributeSerializer
  deriving DecidableEq

def NumPy.NumPyAttribute.registered (a : NumPy.NumPyAttribute) : RegisteredAttribute :=
  ⟨a.toColumn,.numPy a.serializer⟩

/-- `_AttributeArray`; its pattern ends in `%d`. -/
structure AttributeArray where
  pattern : Text
  familyId : Text
  serializer : NumPy.Serializer
  deriving DecidableEq

namespace AttributeArray

def getItem (a : AttributeArray) (item : ℕ) : RegisteredAttribute where
  familyId := a.familyId
  key := encodeUtf8 (a.pattern ++ Nat.toDigits 10 item)
  serializer := .numPy a.serializer

/-- The attributes that `__init__` constructs. -/
def init (a : AttributeArray) : List RegisteredAttribute := (List.range 20).map a.getItem

def atomicCrossChunkEdge : AttributeArray where
  pattern := "atomic_cross_edges_".toList
  familyId := ['3']
  serializer := .numPyArray NumPy.nodeId (some 2) 22

def crossChunkEdge : AttributeArray where
  pattern := "cross_edges_".toList
  familyId := ['4']
  serializer := .numPyArray NumPy.nodeId (some 2) 22

def all : List AttributeArray := [atomicCrossChunkEdge,crossChunkEdge]

end AttributeArray

def Hierarchy.staleTimeStamp : Column := ⟨['3'],encodeUtf8 "stale_ts".toList⟩

/-- The attributes that the import constructs besides those of the arrays. -/
def singleAttributes : List RegisteredAttribute :=
  [⟨Concurrency.lock.toColumn,.uint64String⟩,⟨Concurrency.indefiniteLock.toColumn,.uint64String⟩,
    ⟨Hierarchy.staleTimeStamp,.pickle⟩,⟨TableMeta.metaColumn,.pickle⟩,
    ⟨TableVersion.version,.string⟩,⟨OperationLogs.operationId,.uint64String⟩,
    ⟨OperationLogs.undoOperationId,.uint64String⟩,⟨OperationLogs.redoOperationId,.uint64String⟩,
    ⟨OperationLogs.userId.toColumn,.string⟩,⟨OperationLogs.status,.pickle⟩,
    ⟨OperationLogs.operationException,.string⟩,⟨OperationLogs.operationTimeStamp,.pickle⟩] ++
  [NumPy.Concurrency.counter,NumPy.Connectivity.affinity,NumPy.Connectivity.area,
    NumPy.Connectivity.fakeEdgesCF3,NumPy.Connectivity.fakeEdges,NumPy.Connectivity.splitEdges,
    NumPy.Connectivity.compactedSplitEdges,NumPy.Connectivity.compactedAffinity,
    NumPy.Connectivity.compactedArea,NumPy.Hierarchy.child,NumPy.Hierarchy.formerParent,
    NumPy.Hierarchy.newParent,NumPy.Hierarchy.parent,NumPy.Hierarchy.formerIdentity,
    NumPy.Hierarchy.newIdentity,NumPy.GraphSettings.layerCount,NumPy.OperationLogs.rootId,
    NumPy.OperationLogs.sourceId,NumPy.OperationLogs.sinkId,NumPy.OperationLogs.sourceCoordinate,
    NumPy.OperationLogs.sinkCoordinate,NumPy.OperationLogs.boundingBoxOffset,
    NumPy.OperationLogs.addedEdge,NumPy.OperationLogs.removedEdge,NumPy.OperationLogs.affinity,
    NumPy.OperationLogs.l2ChunkLockScope].map NumPy.NumPyAttribute.registered

/-- Everything that `import attributes` constructs. -/
def importedAttributes : List RegisteredAttribute :=
  singleAttributes ++ AttributeArray.all.flatMap AttributeArray.init

/-- `_Attribute._attributes`. -/
abbrev Attributes := Dict Column RegisteredAttribute

namespace Attributes

/-- `_Attribute.__init__`: a later attribute of a column replaces an earlier one. -/
def construct (attributes : Attributes) (a : RegisteredAttribute) : Attributes :=
  attributes.set a.toColumn a

/-- The registry of a process that has imported the module and then constructed these. -/
def ofProcess (constructed : List RegisteredAttribute) : Attributes :=
  (importedAttributes ++ constructed).foldl construct .empty

def fromKey (attributes : Attributes) (c : Column) : Except ReadError RegisteredAttribute :=
  match attributes.get? c with
  | some a => .ok a
  | none => .error (.ofUnknown c)

variable {V : Type}

/-- The registry as the readers use it: values are decoded by the attribute that is found. Only the
attributes with a key of text are in it, as all are that `serialize_key` makes the key of. -/
def registry (attributes : Attributes) (decode : RegisteredAttribute → Bytes → V) :
    Registry (Option V) where
  registered c := (attributes.fromKey c).isOk && decide c.Decodable
  deserialize c b := (attributes.fromKey c).toOption.map fun a => decode a b
  decodable _ h := of_decide_eq_true (Bool.and_eq_true_iff.mp h).2

theorem registered_registry_iff {attributes : Attributes} {decode : RegisteredAttribute → Bytes → V}
    {c : Column} : (attributes.registry decode).registered c = true ↔
      (∃ a, attributes.fromKey c = .ok a) ∧ c.Decodable := by
  cases h : attributes.fromKey c <;> simp [registry,h,Except.isOk,Except.toBool]

theorem get?_foldl_construct_of_ne {l : List RegisteredAttribute} {c : Column}
    (h : ∀ a ∈ l, a.toColumn ≠ c) (attributes : Attributes) :
    (l.foldl construct attributes).get? c = attributes.get? c := by
  induction l generalizing attributes with
  | nil => rfl
  | cons a l ih =>
    rw [List.foldl_cons,ih fun a ha => h a (List.mem_cons_of_mem _ ha),construct,Dict.get?_set,
      if_neg (h a List.mem_cons_self)]

/-- An attribute is found if all that were constructed of its column are equal to it. -/
theorem get?_foldl_construct {l : List RegisteredAttribute} {a : RegisteredAttribute} (ha : a ∈ l)
    (h : ∀ a' ∈ l, a'.toColumn = a.toColumn → a' = a) (attributes : Attributes) :
    (l.foldl construct attributes).get? a.toColumn = some a := by
  induction l generalizing attributes with
  | nil => cases ha
  | cons a' l ih =>
    rw [List.foldl_cons]
    by_cases hl : a ∈ l
    · exact ih hl (fun a' ha' => h a' (List.mem_cons_of_mem _ ha')) _
    · obtain rfl : a = a' := (List.mem_cons.mp ha).resolve_right hl
      rw [get?_foldl_construct_of_ne,construct,Dict.get?_set,if_pos rfl]
      exact fun a' ha' hcol => hl (h a' (List.mem_cons_of_mem _ ha') hcol ▸ ha')

theorem mem_of_get?_foldl_construct {l : List RegisteredAttribute} {attributes : Attributes}
    {c : Column} {a : RegisteredAttribute} (h : (l.foldl construct attributes).get? c = some a) :
    a ∈ l ∧ a.toColumn = c ∨ attributes.get? c = some a := by
  induction l generalizing attributes with
  | nil => exact Or.inr h
  | cons a' l ih =>
    rw [List.foldl_cons] at h
    rcases ih h with ⟨hmem,hcolumn⟩ | h
    · exact Or.inl ⟨List.mem_cons_of_mem _ hmem,hcolumn⟩
    · rw [construct,Dict.get?_set] at h
      split at h
      · rename_i hcolumn
        obtain rfl := Option.some.inj h
        exact Or.inl ⟨List.mem_cons_self,hcolumn⟩
      · exact Or.inr h

theorem exists_get?_foldl_construct {l : List RegisteredAttribute} {attributes : Attributes}
    {c : Column} (h : (∃ a ∈ l, a.toColumn = c) ∨ ∃ a, attributes.get? c = some a) :
    ∃ a, (l.foldl construct attributes).get? c = some a := by
  induction l generalizing attributes with
  | nil => exact h.resolve_left fun hnil => by simp at hnil
  | cons a' l ih =>
    rw [List.foldl_cons]
    by_cases hc : a'.toColumn = c
    · exact ih (Or.inr ⟨a',by rw [construct,Dict.get?_set,if_pos hc]⟩)
    · refine ih (h.imp ?_ ?_)
      · rintro ⟨a,ha,hcolumn⟩
        exact ⟨a,(List.mem_cons.mp ha).resolve_left fun heq => hc (heq ▸ hcolumn),hcolumn⟩
      · rintro ⟨a,ha⟩
        exact ⟨a,by rw [construct,Dict.get?_set,if_neg hc,ha]⟩

theorem exists_fromKey_of_imported {r : RegisteredAttribute} (hr : r ∈ importedAttributes)
    (constructed : List RegisteredAttribute) :
    ∃ a, (ofProcess constructed).fromKey r.toColumn = .ok a := by
  obtain ⟨a,ha⟩ := exists_get?_foldl_construct (c := r.toColumn)
    (Or.inl ⟨r,List.mem_append_left constructed hr,rfl⟩)
  exact ⟨a,by rw [fromKey,ofProcess,ha]⟩

theorem of_fromKey {constructed : List RegisteredAttribute} {c : Column} {a : RegisteredAttribute}
    (h : (ofProcess constructed).fromKey c = .ok a) :
    (a ∈ importedAttributes ∨ a ∈ constructed) ∧ a.toColumn = c := by
  rw [fromKey] at h
  split at h
  next a' hget =>
    obtain rfl := Except.ok.inj h
    rcases mem_of_get?_foldl_construct hget with ⟨hmem,hcolumn⟩ | hempty
    · exact ⟨List.mem_append.mp hmem,hcolumn⟩
    · cases hempty
  next => cases h

end Attributes

namespace AttributeArray

theorem getItem_injective (a : AttributeArray) {i j : ℕ}
    (h : (a.getItem i).toColumn = (a.getItem j).toColumn) : i = j := by
  have hkey := encodeUtf8_injective (congrArg Column.key h)
  have hdigits := List.append_cancel_left hkey
  simpa using congrArg (Nat.ofDigitChars 10 · 0) hdigits

theorem eq_of_familyId {a a' : AttributeArray} (ha : a ∈ all) (ha' : a' ∈ all)
    (h : a.familyId = a'.familyId) : a = a' := by
  have hall : ∀ a ∈ all, ∀ a' ∈ all, a.familyId = a'.familyId → a = a' := by decide
  exact hall a ha a' ha' h

theorem single_key_ne_getItem {a : AttributeArray} (ha : a ∈ all) (i : ℕ) {s : RegisteredAttribute}
    (hs : s ∈ singleAttributes) : s.key ≠ (a.getItem i).key := by
  have hlead : ∀ a ∈ all, ∀ s ∈ singleAttributes, ¬ encodeUtf8 a.pattern <+: s.key := by
    decide +kernel
  intro h
  refine hlead a ha s hs ⟨encodeUtf8 (Nat.toDigits 10 i),?_⟩
  rw [h]
  exact List.flatMap_append.symm

theorem colon_notMem_of_imported {r : RegisteredAttribute} (hr : r ∈ importedAttributes) :
    ':' ∉ r.familyId := by
  have hsingle : ∀ s ∈ singleAttributes, ':' ∉ s.familyId := by decide
  have hall : ∀ a ∈ all, ':' ∉ a.familyId := by decide
  rcases List.mem_append.mp hr with hs | hr
  · exact hsingle r hs
  · obtain ⟨a,ha,hr⟩ := List.mem_flatMap.mp hr
    obtain ⟨i,-,rfl⟩ := List.mem_map.mp hr
    exact hall a ha

theorem decodable_getItem (a : AttributeArray) (i : ℕ) : (a.getItem i).toColumn.Decodable :=
  Column.decodable_of_key rfl

theorem getItem_key_ne {i j : ℕ} : (atomicCrossChunkEdge.getItem i).key ≠ (crossChunkEdge.getItem j).key :=
  fun h => absurd (List.cons.inj (encodeUtf8_injective h)).1 (by decide)

/-- The columns of the module's attributes and of all items of its arrays. -/
def DeclaredColumn (c : Column) : Prop :=
  (∃ s ∈ singleAttributes, s.toColumn = c) ∨ ∃ a ∈ all, ∃ i, (a.getItem i).toColumn = c

/-- Two declared columns with one qualifier are the fake edges or the affinities of two families. -/
theorem eq_of_declared_key {c c' : Column} (hc : DeclaredColumn c) (hc' : DeclaredColumn c')
    (h : c.key = c'.key) :
    c = c' ∨ c.key = NumPy.Connectivity.fakeEdges.key ∨ c.key = NumPy.Connectivity.affinity.key := by
  rcases hc with ⟨s,hs,rfl⟩ | ⟨a,ha,i,rfl⟩ <;> rcases hc' with ⟨s',hs',rfl⟩ | ⟨a',ha',j,rfl⟩
  · have hsingle : ∀ s ∈ singleAttributes, ∀ s' ∈ singleAttributes, s.key = s'.key →
        s.toColumn = s'.toColumn ∨ s.key = NumPy.Connectivity.fakeEdges.key ∨
          s.key = NumPy.Connectivity.affinity.key := by decide +kernel
    exact hsingle s hs s' hs' h
  · exact absurd h (single_key_ne_getItem ha' j hs)
  · exact absurd h.symm (single_key_ne_getItem ha i hs')
  · simp only [all,List.mem_cons,List.not_mem_nil,or_false] at ha ha'
    rcases ha with rfl | rfl <;> rcases ha' with rfl | rfl
    · exact Or.inl (congrArg (Column.mk _) h)
    · exact absurd h getItem_key_ne
    · exact absurd h.symm getItem_key_ne
    · exact Or.inl (congrArg (Column.mk _) h)

theorem eq_getItem_of_imported {a : AttributeArray} (ha : a ∈ all) {i : ℕ} {r : RegisteredAttribute}
    (hr : r ∈ importedAttributes) (h : r.toColumn = (a.getItem i).toColumn) :
    i < 20 ∧ r = a.getItem i := by
  rcases List.mem_append.mp hr with hs | hr
  · exact absurd (congrArg Column.key h) (single_key_ne_getItem ha i hs)
  · obtain ⟨a',ha',hr⟩ := List.mem_flatMap.mp hr
    obtain ⟨j,hj,rfl⟩ := List.mem_map.mp hr
    obtain rfl := eq_of_familyId ha' ha (congrArg Column.familyId h)
    obtain rfl := getItem_injective a' h
    exact ⟨List.mem_range.mp hj,rfl⟩

theorem fromKey_getItem {a : AttributeArray} (ha : a ∈ all) (i : ℕ)
    {constructed : List RegisteredAttribute}
    (hnew : ∀ r ∈ constructed, r.toColumn ≠ (a.getItem i).toColumn) :
    (Attributes.ofProcess constructed).fromKey (a.getItem i).toColumn =
      if i < 20 then .ok (a.getItem i) else .error (.unknownKey (a.getItem i).toColumn) := by
  have hget : (Attributes.ofProcess constructed).get? (a.getItem i).toColumn =
      if i < 20 then some (a.getItem i) else none := by
    rw [Attributes.ofProcess,List.foldl_append,Attributes.get?_foldl_construct_of_ne hnew]
    split
    · rename_i hi
      refine Attributes.get?_foldl_construct (List.mem_append_right _ (List.mem_flatMap.mpr
        ⟨a,ha,List.mem_map.mpr ⟨i,List.mem_range.mpr hi,rfl⟩⟩)) (fun r hr h => ?_) _
      exact (eq_getItem_of_imported ha hr h).2
    · rename_i hi
      refine Attributes.get?_foldl_construct_of_ne (fun r hr h => ?_) .empty
      exact hi (eq_getItem_of_imported ha hr h).1
  rw [Attributes.fromKey,hget]
  by_cases hi : i < 20
  · rw [if_pos hi,if_pos hi]
  · rw [if_neg hi,if_neg hi,ReadError.ofUnknown,if_pos (a.decodable_getItem i)]

end AttributeArray

end KvdbClient
