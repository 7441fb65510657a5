import KvdbClient.NumpyCodec

/-! Payloads of the attributes with a compression level. The reader tells a frame from raw memory
by the first four bytes, and the memory of an array may start with any bytes. -/
namespace KvdbClient
namespace NumPy

namespace NdArray

def numbers (x : NdArray) : List ℕ := x.items.map littleEndian

theorem littleEndian_take (k : ℕ) (bs : Bytes) :
    littleEndian (bs.take k) = littleEndian bs % 256^k := by
  induction bs generalizing k with
  | nil => simp [littleEndian]
  | cons b bs ih =>
    cases k with
    | zero => simp [littleEndian,Nat.mod_one]
    | succ k =>
      have hb := b.toNat_lt
      have hlow : (b.toNat+256*littleEndian bs) % 256 = b.toNat := by omega
      have hhigh : (b.toNat+256*littleEndian bs) / 256 = littleEndian bs := by omega
      rw [List.take_succ_cons,littleEndian,littleEndian,ih,pow_succ',Nat.mod_mul,hlow,hhigh]

theorem chunks_cons {size : ℕ} (hsize : 0 < size) (n : ℕ) (b : UInt8) (bs : Bytes) :
    chunks size (n+1) (b :: bs) = (b :: bs).take size :: chunks size n ((b :: bs).drop size) := by
  rw [chunks,if_neg hsize.ne']

theorem take_eq_zstdMagic_iff {x : NdArray} (hitem : 4 ≤ x.dtype.itemsize) :
    x.buffer.take 4 = zstdMagic ↔ ∃ n ∈ x.numbers.head?, n % 2^32 = littleEndian zstdMagic := by
  obtain ⟨d,shape,buffer,hlength⟩ := x
  have hitem : 4 ≤ d.itemsize := hitem
  cases buffer with
  | nil => simp [numbers,items,chunked,chunks,zstdMagic]
  | cons b bs =>
    have hne : shape.prod ≠ 0 := fun h0 => by simp [h0] at hlength
    have hle : d.itemsize ≤ (b :: bs).length := by
      rw [hlength]
      exact Nat.le_mul_of_pos_left _ (Nat.pos_of_ne_zero hne)
    have hlow : littleEndian ((b :: bs).take d.itemsize) % 2^32 = littleEndian ((b :: bs).take 4) := by
      rw [show 2^32 = 256^4 by norm_num,← littleEndian_take,List.take_take,min_eq_left hitem]
    simp only [numbers,items,chunked,List.length_cons,chunks_cons (show 0 < d.itemsize by omega),
      List.map_cons,List.head?_cons,Option.mem_some_iff,exists_eq_left',hlow]
    refine ⟨congrArg littleEndian,Serializer.littleEndian_inj ?_⟩
    rw [List.length_take,min_eq_left (hitem.trans hle)]
    rfl

theorem chunks_inj {size n : ℕ} (hsize : 0 < size) {a b : Bytes} (hn : a.length ≤ n)
    (hlen : a.length = b.length)
    (h : (chunks size n a).map littleEndian = (chunks size n b).map littleEndian) : a = b := by
  induction n generalizing a b with
  | zero =>
    rw [List.length_eq_zero_iff.mp (Nat.le_zero.mp hn)] at hlen ⊢
    exact (List.length_eq_zero_iff.mp hlen.symm).symm
  | succ n ih =>
    cases a with
    | nil => exact (List.length_eq_zero_iff.mp hlen.symm).symm
    | cons x a =>
      cases b with
      | nil => cases hlen
      | cons y b =>
        simp only [chunks_cons hsize,List.map_cons,List.cons.injEq] at h
        obtain ⟨hfirst,hrest⟩ := h
        have htake := Serializer.littleEndian_inj (by simp only [List.length_take,hlen]) hfirst
        have hdrop : ((x :: a).drop size).length ≤ n := by
          simp only [List.length_drop,List.length_cons] at hn ⊢
          omega
        have hdrop := ih hdrop (by simp only [List.length_drop,hlen]) hrest
        rw [← List.take_append_drop size (x :: a),htake,hdrop,List.take_append_drop]

theorem Equals.buffer_eq {x y : NdArray} (hitem : 0 < x.dtype.itemsize)
    (hx : x.dtype.byteorder = .little) (hy : y.dtype.byteorder = .little) (h : y.Equals x) :
    y.buffer = x.buffer := by
  obtain ⟨_,hsize,hshape,hvalues⟩ := h
  have hlen : y.buffer.length = x.buffer.length := by
    rw [y.length_buffer,x.length_buffer,hsize,hshape]
  rw [hx,hy,items,items,chunked,chunked,hsize,hlen] at hvalues
  exact chunks_inj hitem hlen.le hlen hvalues

end NdArray

namespace Serializer

def ReadsBack (z : Zstd) (s : Serializer) (payload : Bytes) (x : NdArray) : Prop :=
  ∃ y, s.deserialize z payload = .ok y ∧ y.Equals x

theorem buffer_of_decode {d : DType} {shape : Option ℕ} {level : ℕ} {val : Bytes} {y : NdArray}
    (h : (numPyArray d shape level).decode val = .ok y) : y.buffer = val ∧ y.dtype = d := by
  have hfrom : ∀ {data}, frombuffer val d = .ok data → data.buffer = val ∧ data.dtype = d := by
    intro data hdata
    rw [frombuffer] at hdata
    split at hdata <;> cases hdata
    exact ⟨rfl,rfl⟩
  simp only [decode,bind,Except.bind] at h
  cases hdata : frombuffer val d with
  | error e => simp [hdata] at h
  | ok data =>
    rw [hdata] at h
    cases shape with
    | none =>
      cases h
      exact hfrom hdata
    | some k =>
      simp only [reshape] at h
      have hkept := hfrom hdata
      split at h <;> cases h
      exact hkept

variable {z : Zstd} {s : Serializer} {x : NdArray}

/-- Raw memory is read back unless it starts like a frame; then only a frame of itself is. -/
theorem readsBack_raw_iff (hlevel : s.compressionLevel ≠ 0) (hlittle : s.dtype.byteorder = .little)
    (hitem : 0 < s.dtype.itemsize) (hk : ∀ d level, s ≠ numPyArray d (some 0) level)
    (hx : s.Fits x) :
    s.ReadsBack z x.tobytes x ↔
      (x.buffer.take 4 = zstdMagic → z.decompress x.buffer = some x.buffer) := by
  have hplain : ∃ y, s.decode x.buffer = .ok y ∧ y.Equals x := by
    rw [← deserialize_serialize (z := z)]
    refine (roundTrip_iff hitem hk hx).mpr fun hbig => ?_
    rw [hlittle] at hbig
    cases hbig
  by_cases hmagic : x.buffer.take 4 = zstdMagic
  · cases hframe : z.decompress x.buffer with
    | none => simp [ReadsBack,deserialize,NdArray.tobytes,hlevel,hmagic,hframe,bind,Except.bind]
    | some content =>
      have hread : s.deserialize z x.tobytes = s.decode content := by
        simp [deserialize,NdArray.tobytes,hlevel,hmagic,hframe,bind,Except.bind]
      simp only [ReadsBack,hread,hmagic,Option.some.injEq,true_imp_iff]
      constructor
      · rintro ⟨y,hy,hequals⟩
        cases s with
        | numPyArray d shape level =>
          obtain ⟨hbuffer,hdtype⟩ := buffer_of_decode hy
          have hxd : x.dtype = d.newbyteorder .little := hx.1
          rw [← hbuffer]
          refine hequals.buffer_eq ?_ ?_ ?_
          · rw [hxd]
            exact hitem
          · rw [hxd]
            rfl
          · rw [hdtype]
            exact hlittle
        | numPyValue d => exact absurd rfl hlevel
      · rintro rfl
        exact hplain
  · have hread : s.deserialize z x.tobytes = s.decode x.buffer := by
      simp [deserialize,NdArray.tobytes,hmagic,bind,Except.bind]
    simp only [ReadsBack,hread]
    exact iff_of_true hplain fun h => absurd h hmagic

end Serializer

theorem Declared.compressed_spec {a : NumPyAttribute} (h : Declared a)
    (hlevel : a.serializer.compressionLevel ≠ 0) :
    a.serializer.dtype = nodeId ∧
      (a = Hierarchy.child ∨ ∃ item, a = Connectivity.atomicCrossChunkEdge item ∨
        a = Connectivity.crossChunkEdge item) := by
  cases h with
  | child => exact ⟨rfl,Or.inl rfl⟩
  | atomicCrossChunkEdge item => exact ⟨rfl,Or.inr ⟨item,Or.inl rfl⟩⟩
  | crossChunkEdge item => exact ⟨rfl,Or.inr ⟨item,Or.inr rfl⟩⟩
  | _ => exact absurd rfl hlevel

/-- The compressed payload of an array is read back, and its raw memory is, unless the low bytes
of the first node id are the magic bytes: then only raw memory that is a frame of itself is. -/
theorem payloads_readsBack_iff (z : Zstd) {a : NumPyAttribute} (ha : Declared a)
    (hlevel : a.serializer.compressionLevel ≠ 0) {x : NdArray} (hx : a.serializer.Fits x) :
    a.serializer.ReadsBack z (a.serializer.serialize z x) x ∧ a.serializer.ReadsBack z x.tobytes x ↔
      ∀ n ∈ x.numbers.head?, n % 2^32 = 0xfd2fb528 → z.decompress x.tobytes = some x.tobytes := by
  obtain ⟨hdtype,_⟩ := ha.compressed_spec hlevel
  obtain ⟨hitem,hshape,_⟩ := ha.spec
  have hlittle : a.serializer.dtype.byteorder = .little := by rw [hdtype]; rfl
  have hcompressed : a.serializer.ReadsBack z (a.serializer.serialize z x) x := by
    refine (Serializer.roundTrip_iff hitem hshape hx).mpr fun hbig => ?_
    rw [hlittle] at hbig
    cases hbig
  have hwidth : 4 ≤ x.dtype.itemsize := by
    rw [hx.1,hdtype]
    decide
  rw [and_iff_right hcompressed,Serializer.readsBack_raw_iff hlevel hlittle hitem hshape hx,
    NdArray.take_eq_zstdMagic_iff hwidth,show NdArray.littleEndian zstdMagic = 0xfd2fb528 from rfl]
  simp only [forall_exists_index,and_imp,NdArray.tobytes]

/-- Frames with a descriptor of zero before the content; the bit eight of a descriptor is reserved
and must not be set. -/
def describedFrames : Zstd where
  compress _ content := zstdMagic ++ 0 :: content
  decompress frame := if frame.take 5 = zstdMagic ++ [0] then some (frame.drop 5) else none
  decompress_compress _ content := by simp [zstdMagic]
  take_compress _ content := List.take_left' rfl

def onlyChild (b₀ b₁ b₂ b₃ b₄ : UInt8) : NdArray :=
  ⟨nodeId,[1],[b₀,b₁,b₂,b₃,b₄,0,0,0],rfl⟩

theorem payloads_readsBack_child :
    Hierarchy.child.serializer.ReadsBack describedFrames
        (Hierarchy.child.serializer.serialize describedFrames (onlyChild 7 0 0 0 0))
        (onlyChild 7 0 0 0 0) ∧
      Hierarchy.child.serializer.ReadsBack describedFrames [7,0,0,0,0,0,0,0]
        (onlyChild 7 0 0 0 0) :=
  (payloads_readsBack_iff describedFrames Declared.child (by decide) ⟨rfl,1,rfl⟩).mpr
    fun n hn hlow => absurd hlow (by
      obtain rfl : 7 = n := Option.some.inj hn
      decide)

/-- The raw child `0x8fd2fb528` starts like a frame with the reserved bit set. -/
theorem raw_child_not_readsBack :
    Hierarchy.child.serializer.Fits (onlyChild 0x28 0xb5 0x2f 0xfd 8) ∧
      Hierarchy.child.serializer.deserialize describedFrames
        (onlyChild 0x28 0xb5 0x2f 0xfd 8).tobytes = .error .zstd ∧
      ¬ Hierarchy.child.serializer.ReadsBack describedFrames
        (onlyChild 0x28 0xb5 0x2f 0xfd 8).tobytes (onlyChild 0x28 0xb5 0x2f 0xfd 8) := by
  have hread : Hierarchy.child.serializer.deserialize describedFrames
      (onlyChild 0x28 0xb5 0x2f 0xfd 8).tobytes = .error .zstd := rfl
  refine ⟨⟨rfl,1,rfl⟩,hread,?_⟩
  rintro ⟨y,hy,_⟩
  rw [hread] at hy
  cases hy

end NumPy
end KvdbClient
