import KvdbClient.StoredCells

/-! The NumPy serializers, over the memory of arrays: `serializers.py` and `basetypes.py`. A view
changes how memory is read, not the memory. -/
namespace KvdbClient
namespace NumPy

inductive Kind
  | unsigned | signed | floating
  deriving DecidableEq

inductive ByteOrder
  | little | big
  deriving DecidableEq

/-- A type of array elements; the machine's own byte order is little-endian. -/
structure DType where
  kind : Kind
  itemsize : ℕ
  byteorder : ByteOrder
  deriving DecidableEq

def DType.newbyteorder (d : DType) (order : ByteOrder) : DType := { d with byteorder := order }

/-- An array in C order; a scalar has no dimensions. -/
structure NdArray where
  dtype : DType
  shape : List ℕ
  buffer : Bytes
  length_buffer : buffer.length = shape.prod*dtype.itemsize

inductive CodecError
  | zstd | bufferSize | cannotReshape | index
  deriving DecidableEq

namespace NdArray

/-- `view` with elements of the same size. -/
def view (x : NdArray) (d : DType) (h : d.itemsize = x.dtype.itemsize) : NdArray :=
  ⟨d,x.shape,x.buffer,by rw [h]; exact x.length_buffer⟩

def tobytes (x : NdArray) : Bytes := x.buffer

/-- The number in the memory of an element, from its low byte on. -/
def littleEndian : Bytes → ℕ
  | [] => 0
  | b :: bs => b.toNat+256*littleEndian bs

def valueOf : ByteOrder → Bytes → ℕ
  | .little, bs => littleEndian bs
  | .big, bs => littleEndian bs.reverse

def items (x : NdArray) : List Bytes := chunked x.dtype.itemsize x.buffer

/-- The same elements in the same shape; floating-point numbers are compared by their bits. -/
def Equals (x y : NdArray) : Prop :=
  x.dtype.kind = y.dtype.kind ∧ x.dtype.itemsize = y.dtype.itemsize ∧ x.shape = y.shape ∧
    x.items.map (valueOf x.dtype.byteorder) = y.items.map (valueOf y.dtype.byteorder)

instance (x y : NdArray) : Decidable (x.Equals y) := inferInstanceAs (Decidable (_ ∧ _ ∧ _ ∧ _))

end NdArray

def frombuffer (val : Bytes) (d : DType) : Except CodecError NdArray :=
  if h : val.length % d.itemsize = 0 then
    .ok ⟨d,[val.length / d.itemsize],val,by
      rw [List.prod_singleton,Nat.div_mul_cancel (Nat.dvd_of_mod_eq_zero h)]⟩
  else .error .bufferSize

/-- `reshape((-1, k))`. -/
def reshape (x : NdArray) (k : ℕ) : Except CodecError NdArray :=
  if h : k ≠ 0 ∧ x.shape.prod % k = 0 then
    .ok ⟨x.dtype,[x.shape.prod / k,k],x.buffer,by
      rw [x.length_buffer,List.prod_cons,List.prod_singleton,
        Nat.div_mul_cancel (Nat.dvd_of_mod_eq_zero h.2)]⟩
  else .error .cannotReshape

/-- `data[0]` of a one-dimensional array. -/
def first (x : NdArray) : Except CodecError NdArray :=
  if h : x.shape.prod ≠ 0 then
    .ok ⟨x.dtype,[],x.buffer.take x.dtype.itemsize,by
      rw [List.length_take,List.prod_nil,one_mul,x.length_buffer]
      exact min_eq_left (Nat.le_mul_of_pos_left _ (Nat.pos_of_ne_zero h))⟩
  else .error .index

def zstdMagic : Bytes := [0x28,0xb5,0x2f,0xfd]

/-- The compression library: decompression inverts compression, and compressed frames start with
the magic bytes. -/
structure Zstd where
  compress : ℕ → Bytes → Bytes
  decompress : Bytes → Option Bytes
  decompress_compress : ∀ level content, decompress (compress level content) = some content
  take_compress : ∀ level content, (compress level content).take 4 = zstdMagic

/-- `NumPyArray`, where the shape is the `k` of `(-1, k)` and no compression is level zero, and
`NumPyValue`. -/
inductive Serializer
  | numPyArray (dtype : DType) (shape : Option ℕ) (compressionLevel : ℕ)
  | numPyValue (dtype : DType)
  deriving DecidableEq

namespace Serializer

def dtype : Serializer → DType
  | numPyArray d _ _ => d
  | numPyValue d => d

def compressionLevel : Serializer → ℕ
  | numPyArray _ _ level => level
  | numPyValue _ => 0

/-- The serializers view the argument in the declared byte order. -/
def content (s : Serializer) (x : NdArray) : Bytes :=
  (x.view (x.dtype.newbyteorder s.dtype.byteorder) rfl).tobytes

def decode (val : Bytes) : Serializer → Except CodecError NdArray
  | numPyArray d shape _ => do
    let data ← frombuffer val d
    match shape with
    | some k => reshape data k
    | none => return data
  | numPyValue d => do first (← frombuffer val d)

variable (z : Zstd) (s : Serializer)

def serialize (x : NdArray) : Bytes :=
  if s.compressionLevel ≠ 0 then z.compress s.compressionLevel (s.content x) else s.content x

def deserialize (obj : Bytes) : Except CodecError NdArray := do
  let obj ← if s.compressionLevel ≠ 0 ∧ obj.take 4 = zstdMagic then
      match z.decompress obj with
      | some content => .ok content
      | none => .error .zstd
    else .ok obj
  s.decode obj

/-- What the serializer is declared for: elements of the declared kind and width in the machine's
byte order; a scalar, a list of numbers, or any number of rows of the declared length. -/
def Fits (x : NdArray) : Prop :=
  x.dtype = s.dtype.newbyteorder .little ∧
    match s with
    | numPyArray _ none _ => ∃ n, x.shape = [n]
    | numPyArray _ (some k) _ => ∃ n, x.shape = [n,k]
    | numPyValue _ => x.shape = []

variable {z s}

theorem deserialize_serialize (x : NdArray) : s.deserialize z (s.serialize z x) = s.decode x.buffer := by
  by_cases h : s.compressionLevel = 0
  · simp [deserialize,serialize,h,content,NdArray.view,NdArray.tobytes,bind,Except.bind]
  · simp [deserialize,serialize,h,content,NdArray.view,NdArray.tobytes,bind,Except.bind,
      z.take_compress,z.decompress_compress]

theorem frombuffer_spec {val : Bytes} {d : DType} {n : ℕ} (hd : 0 < d.itemsize)
    (h : val.length = n*d.itemsize) :
    ∃ y, frombuffer val d = .ok y ∧ y.dtype = d ∧ y.shape = [n] ∧ y.buffer = val := by
  have hmod : val.length % d.itemsize = 0 := by rw [h,Nat.mul_mod_left]
  refine ⟨_,dif_pos hmod,rfl,?_,rfl⟩
  change [val.length / d.itemsize] = [n]
  rw [h,Nat.mul_div_cancel _ hd]

theorem reshape_spec {x : NdArray} {n k : ℕ} (hk : k ≠ 0) (h : x.shape.prod = n*k) :
    ∃ y, reshape x k = .ok y ∧ y.dtype = x.dtype ∧ y.shape = [n,k] ∧ y.buffer = x.buffer := by
  have hmod : k ≠ 0 ∧ x.shape.prod % k = 0 := ⟨hk,by rw [h,Nat.mul_mod_left]⟩
  refine ⟨_,dif_pos hmod,rfl,?_,rfl⟩
  change [x.shape.prod / k,k] = [n,k]
  rw [h,Nat.mul_div_cancel _ (Nat.pos_of_ne_zero hk)]

theorem first_spec {x : NdArray} (h : x.shape.prod = 1) :
    ∃ y, first x = .ok y ∧ y.dtype = x.dtype ∧ y.shape = [] ∧ y.buffer = x.buffer := by
  refine ⟨_,dif_pos (by rw [h]; exact one_ne_zero),rfl,rfl,?_⟩
  refine List.take_of_length_le ?_
  rw [x.length_buffer,h,one_mul]

/-- Decoding gives the same memory back, in the declared byte order. -/
theorem decode_spec (hitem : 0 < s.dtype.itemsize) (hk : ∀ d level, s ≠ numPyArray d (some 0) level)
    {x : NdArray} (hx : s.Fits x) :
    ∃ y, s.decode x.buffer = .ok y ∧ y.dtype = s.dtype ∧ y.shape = x.shape ∧ y.buffer = x.buffer := by
  obtain ⟨hdtype,hshape⟩ := hx
  have hlength : x.buffer.length = x.shape.prod*s.dtype.itemsize := by
    rw [x.length_buffer,hdtype]
    rfl
  obtain ⟨y,hy,hyd,hys,hyb⟩ := frombuffer_spec hitem hlength
  cases s with
  | numPyArray d shape level =>
    cases shape with
    | none =>
      obtain ⟨n,hn⟩ := hshape
      refine ⟨y,?_,hyd,?_,hyb⟩
      · simp only [decode,bind,Except.bind,pure,Except.pure]
        rw [show frombuffer x.buffer d = .ok y from hy]
      · rw [hys,hn,List.prod_singleton]
    | some k =>
      obtain ⟨n,hn⟩ := hshape
      have hprod : y.shape.prod = n*k := by
        rw [hys,hn]
        simp
      obtain ⟨y',hy',hyd',hys',hyb'⟩ := reshape_spec (fun h0 => hk d level (by rw [h0])) hprod
      refine ⟨y',?_,hyd'.trans hyd,hys'.trans hn.symm,hyb'.trans hyb⟩
      simp only [decode,bind,Except.bind]
      rw [show frombuffer x.buffer d = .ok y from hy]
      exact hy'
  | numPyValue d =>
    have hshape' : x.shape = [] := hshape
    have hprod : y.shape.prod = 1 := by
      rw [hys,hshape']
      rfl
    obtain ⟨y',hy',hyd',hys',hyb'⟩ := first_spec hprod
    refine ⟨y',?_,hyd'.trans hyd,hys'.trans hshape'.symm,hyb'.trans hyb⟩
    simp only [decode,bind,Except.bind]
    rw [show frombuffer x.buffer d = .ok y from hy]
    exact hy'

theorem littleEndian_inj {a b : Bytes} (hlen : a.length = b.length)
    (h : NdArray.littleEndian a = NdArray.littleEndian b) : a = b := by
  induction a generalizing b with
  | nil => exact (List.length_eq_zero_iff.mp hlen.symm).symm
  | cons x a ih =>
    cases b with
    | nil => simp at hlen
    | cons y b =>
      simp only [NdArray.littleEndian] at h
      have hx := x.toNat_lt
      have hy := y.toNat_lt
      have hxy : x = y := UInt8.toNat_inj.mp (by omega)
      rw [hxy,ih (by simpa using hlen) (by omega)]

/-- The two byte orders read the same number exactly from memory that is its own reverse. -/
theorem valueOf_eq_iff (order : ByteOrder) (item : Bytes) :
    NdArray.valueOf order item = NdArray.valueOf .little item ↔
      (order = .big → item.reverse = item) := by
  cases order with
  | little => simp
  | big => exact ⟨fun h _ => littleEndian_inj (by simp) h,fun h => congrArg NdArray.littleEndian (h rfl)⟩

theorem roundTrip_iff (hitem : 0 < s.dtype.itemsize) (hk : ∀ d level, s ≠ numPyArray d (some 0) level)
    {x : NdArray} (hx : s.Fits x) :
    (∃ y, s.deserialize z (s.serialize z x) = .ok y ∧ y.Equals x) ↔
      (s.dtype.byteorder = .big → ∀ item ∈ x.items, item.reverse = item) := by
  obtain ⟨y,hy,hyd,hys,hyb⟩ := decode_spec hitem hk hx
  have hdtype := hx.1
  have hequals : y.Equals x ↔ ∀ item ∈ x.items,
      NdArray.valueOf s.dtype.byteorder item = NdArray.valueOf .little item := by
    have hitems : y.items = x.items := by
      rw [NdArray.items,NdArray.items,hyb,hyd,hdtype]
      rfl
    rw [NdArray.Equals,hitems,hyd,hys,hdtype]
    simp [DType.newbyteorder,List.map_inj_left]
  rw [deserialize_serialize,hy]
  simp only [Except.ok.injEq,exists_eq_left',hequals,valueOf_eq_iff]
  exact ⟨fun h ho item hi => h item hi ho,fun h item hi ho => h ho item hi⟩

end Serializer

def nodeId : DType := ⟨.unsigned,8,.little⟩
def edgeAffinity : DType := ⟨.floating,4,.little⟩
def edgeArea : DType := ⟨.unsigned,8,.little⟩
def counter : DType := ⟨.signed,8,.big⟩
def coordinates : DType := ⟨.signed,8,.little⟩
def layerCount : DType := ⟨.unsigned,8,.little⟩

structure NumPyAttribute extends Column where
  serializer : Serializer

def arrayAttribute (familyId : Char) (key : String) (d : DType) (shape : Option ℕ)
    (compressionLevel : ℕ) : NumPyAttribute :=
  ⟨⟨[familyId],encodeUtf8 key.toList⟩,.numPyArray d shape compressionLevel⟩

namespace Concurrency

def counter : NumPyAttribute := ⟨KvdbClient.Concurrency.counter,.numPyValue NumPy.counter⟩

end Concurrency

namespace Connectivity

def affinity := arrayAttribute '0' "affinities" edgeAffinity none 0
def area := arrayAttribute '0' "areas" edgeArea none 0

def atomicCrossChunkEdge (item : ℕ) : NumPyAttribute :=
  ⟨⟨['3'],encodeUtf8 ("atomic_cross_edges_".toList ++ Nat.toDigits 10 item)⟩,
    .numPyArray nodeId (some 2) 22⟩

def crossChunkEdge (item : ℕ) : NumPyAttribute :=
  ⟨⟨['4'],encodeUtf8 ("cross_edges_".toList ++ Nat.toDigits 10 item)⟩,
    .numPyArray nodeId (some 2) 22⟩

def fakeEdgesCF3 := arrayAttribute '3' "fake_edges" nodeId (some 2) 0
def fakeEdges := arrayAttribute '4' "fake_edges" nodeId (some 2) 0
def splitEdges := arrayAttribute '4' "split_edges" nodeId (some 2) 0
def compactedSplitEdges := arrayAttribute '4' "compacted_split_edges" nodeId (some 2) 0
def compactedAffinity := arrayAttribute '4' "compacted_affinities" edgeAffinity none 0
def compactedArea := arrayAttribute '4' "compacted_areas" edgeArea none 0

end Connectivity

namespace Hierarchy

def child := arrayAttribute '0' "children" nodeId none 22
def formerParent := arrayAttribute '0' "former_parents" nodeId none 0
def newParent := arrayAttribute '0' "new_parents" nodeId none 0
def parent : NumPyAttribute := ⟨KvdbClient.Hierarchy.parent,.numPyValue nodeId⟩
def formerIdentity := arrayAttribute '0' "former_ids" nodeId none 0
def newIdentity := arrayAttribute '0' "new_ids" nodeId none 0

end Hierarchy

namespace GraphSettings

def layerCount : NumPyAttribute := ⟨KvdbClient.GraphSettings.layerCount,.numPyValue NumPy.layerCount⟩

end GraphSettings

namespace OperationLogs

def rootId := arrayAttribute '2' "roots" nodeId none 0
def sourceId := arrayAttribute '2' "source_ids" nodeId none 0
def sinkId := arrayAttribute '2' "sink_ids" nodeId none 0
def sourceCoordinate := arrayAttribute '2' "source_coords" coordinates (some 3) 0
def sinkCoordinate := arrayAttribute '2' "sink_coords" coordinates (some 3) 0
def boundingBoxOffset := arrayAttribute '2' "bb_offset" coordinates none 0
def addedEdge := arrayAttribute '2' "added_edges" nodeId (some 2) 0
def removedEdge := arrayAttribute '2' "removed_edges" nodeId (some 2) 0
def affinity := arrayAttribute '2' "affinities" edgeAffinity none 0
def l2ChunkLockScope := arrayAttribute '0' "l2_chunk_lock_scope" nodeId none 0

end OperationLogs

/-- The attributes of `attributes.py` with a NumPy serializer. -/
inductive Declared : NumPyAttribute → Prop
  | counter : Declared Concurrency.counter
  | affinity : Declared Connectivity.affinity
  | area : Declared Connectivity.area
  | atomicCrossChunkEdge (item : ℕ) : Declared (Connectivity.atomicCrossChunkEdge item)
  | crossChunkEdge (item : ℕ) : Declared (Connectivity.crossChunkEdge item)
  | fakeEdgesCF3 : Declared Connectivity.fakeEdgesCF3
  | fakeEdges : Declared Connectivity.fakeEdges
  | splitEdges : Declared Connectivity.splitEdges
  | compactedSplitEdges : Declared Connectivity.compactedSplitEdges
  | compactedAffinity : Declared Connectivity.compactedAffinity
  | compactedArea : Declared Connectivity.compactedArea
  | child : Declared Hierarchy.child
  | formerParent : Declared Hierarchy.formerParent
  | newParent : Declared Hierarchy.newParent
  | parent : Declared Hierarchy.parent
  | formerIdentity : Declared Hierarchy.formerIdentity
  | newIdentity : Declared Hierarchy.newIdentity
  | layerCount : Declared GraphSettings.layerCount
  | rootId : Declared OperationLogs.rootId
  | sourceId : Declared OperationLogs.sourceId
  | sinkId : Declared OperationLogs.sinkId
  | sourceCoordinate : Declared OperationLogs.sourceCoordinate
  | sinkCoordinate : Declared OperationLogs.sinkCoordinate
  | boundingBoxOffset : Declared OperationLogs.boundingBoxOffset
  | addedEdge : Declared OperationLogs.addedEdge
  | removedEdge : Declared OperationLogs.removedEdge
  | logAffinity : Declared OperationLogs.affinity
  | l2ChunkLockScope : Declared OperationLogs.l2ChunkLockScope

theorem Declared.spec {a : NumPyAttribute} (h : Declared a) :
    0 < a.serializer.dtype.itemsize ∧ (∀ d level, a.serializer ≠ .numPyArray d (some 0) level) ∧
      (a.serializer.dtype.byteorder = .big ↔ a.toColumn = KvdbClient.Concurrency.counter) := by
  cases h with
  | counter =>
    refine ⟨Nat.succ_pos _,?_,iff_of_true rfl rfl⟩
    rintro d level ⟨⟩
  | atomicCrossChunkEdge item =>
    refine ⟨Nat.succ_pos _,?_,iff_of_false ByteOrder.noConfusion fun h => ?_⟩
    · rintro d level ⟨⟩
    · exact absurd (congrArg Column.familyId h) (show ¬ (['3'] : Text) = ['1'] by decide)
  | crossChunkEdge item =>
    refine ⟨Nat.succ_pos _,?_,iff_of_false ByteOrder.noConfusion fun h => ?_⟩
    · rintro d level ⟨⟩
    · exact absurd (congrArg Column.familyId h) (show ¬ (['4'] : Text) = ['1'] by decide)
  | _ =>
    refine ⟨Nat.succ_pos _,?_,iff_of_false ByteOrder.noConfusion fun h => ?_⟩
    · rintro d level ⟨⟩
    · exact absurd (congrArg Column.familyId h) (by decide)

/-- Decoding undoes encoding, except for counters whose bytes read differently from the other end. -/
theorem deserialize_serialize_iff (z : Zstd) {a : NumPyAttribute} (ha : Declared a) {x : NdArray}
    (hx : a.serializer.Fits x) :
    (∃ y, a.serializer.deserialize z (a.serializer.serialize z x) = .ok y ∧ y.Equals x) ↔
      (a.toColumn = KvdbClient.Concurrency.counter → ∀ item ∈ x.items, item.reverse = item) := by
  obtain ⟨hitem,hshape,hbig⟩ := ha.spec
  rw [← hbig]
  exact Serializer.roundTrip_iff hitem hshape hx

def storedFrames : Zstd where
  compress _ content := zstdMagic ++ content
  decompress frame := if frame.take 4 = zstdMagic then some (frame.drop 4) else none
  decompress_compress _ content := by simp [zstdMagic]
  take_compress _ content := by simp [zstdMagic]

def scalar (kind : Kind) (low : UInt8) : NdArray :=
  ⟨⟨kind,8,.little⟩,[],[low,0,0,0,0,0,0,0],rfl⟩

theorem deserialize_serialize_iff_parent :
    ∃ y, Hierarchy.parent.serializer.deserialize storedFrames
      (Hierarchy.parent.serializer.serialize storedFrames (scalar .unsigned 7)) = .ok y ∧
      y.Equals (scalar .unsigned 7) := by
  have hfits : Hierarchy.parent.serializer.Fits (scalar .unsigned 7) := ⟨rfl,rfl⟩
  exact (deserialize_serialize_iff storedFrames Declared.parent hfits).mpr fun h =>
    absurd (congrArg Column.familyId h) (by decide)

/-- A counter of one is read back as two to the power of 56. -/
theorem counter_one_not_undone :
    Concurrency.counter.serializer.Fits (scalar .signed 1) ∧
    ¬ ∃ y, Concurrency.counter.serializer.deserialize storedFrames
      (Concurrency.counter.serializer.serialize storedFrames (scalar .signed 1)) = .ok y ∧
      y.Equals (scalar .signed 1) := by
  refine ⟨⟨rfl,rfl⟩,?_⟩
  rintro ⟨y,hy,_,_,_,hvalues⟩
  have hread : Concurrency.counter.serializer.deserialize storedFrames
      (Concurrency.counter.serializer.serialize storedFrames (scalar .signed 1)) =
      .ok ⟨counter,[],[1,0,0,0,0,0,0,0],rfl⟩ := rfl
  rw [hread] at hy
  cases hy
  exact absurd hvalues (by decide +kernel)

end NumPy
end KvdbClient
