import KvdbClient.RootTraversal

/-! The layer of one node id and those of an array of ids. The array is cast to a signed type, and
its shift keeps the sign. -/
namespace KvdbClient

namespace RootExtension

def topBits (bits : ℕ) (nodeId : UInt64) : ℕ :=
  (nodeId.toBitVec.extractLsb' (64-bits) bits).toNat

theorem toInt64_neg {n : ℕ} (h : 2^63 ≤ n) (hn : n < 2^64) : toInt64 n < 0 := by
  have hmodulus : ((2^64 : ℕ) : ℤ) = 18446744073709551616 := by norm_num
  unfold toInt64
  rw [Int.bmod_def,hmodulus]
  split_ifs <;> omega

theorem shiftRight_neg {z : ℤ} (h : z < 0) (k : ℕ) : z >>> k < 0 := by
  rw [Int.shiftRight_eq_div_pow]
  exact Int.ediv_neg_of_neg_of_pos h (by positivity)

section Layers

variable {V : Type} (graph : RootExtension V)

theorem getChunkLayer_eq_topBits (nodeId : UInt64) :
    getChunkLayer graph nodeId.toNat = topBits graph.layerIdBits nodeId := by
  have hbits := graph.layerIdBits_le
  rw [topBits,BitVec.extractLsb'_toNat,getChunkLayer]
  refine (Nat.mod_eq_of_lt ?_).symm
  rw [Nat.shiftRight_eq_div_pow,Nat.div_lt_iff_lt_mul (by positivity),← pow_add,
    Nat.add_sub_cancel' hbits]
  exact nodeId.toNat_lt

theorem toInt64_shiftRight_iff (nodeId : UInt64) :
    toInt64 nodeId.toNat >>> (64-graph.layerIdBits) = (getChunkLayer graph nodeId.toNat : ℤ) ↔
      nodeId.toNat < 2^63 := by
  refine ⟨fun h => ?_,fun h => ?_⟩
  · by_contra hlarge
    have hneg := shiftRight_neg (toInt64_neg (not_lt.mp hlarge) nodeId.toNat_lt)
      (64-graph.layerIdBits)
    omega
  · rw [toInt64_eq h]
    rfl

theorem getChunkLayers_eq_iff (nodeIds : List UInt64) :
    getChunkLayers graph (nodeIds.map UInt64.toNat) =
      nodeIds.map (fun id => (getChunkLayer graph id.toNat : ℤ)) ↔
    ∀ id ∈ nodeIds, id.toNat < 2^63 := by
  have helement : ∀ id ∈ nodeIds,
      (((fun n => toInt64 n >>> (64-graph.layerIdBits)) ∘ UInt64.toNat) id =
        (getChunkLayer graph id.toNat : ℤ) ↔ id.toNat < 2^63) := fun id _ => by
    rw [Function.comp_apply,toInt64_shiftRight_iff]
  rw [getChunkLayers,List.map_map,List.map_inj_left]
  exact forall₂_congr helement

/-- Every layer of an array of ids is that of the id alone, and it is the value of the top bits. -/
def LayersAgree (nodeIds : List UInt64) : Prop :=
  getChunkLayers graph (nodeIds.map UInt64.toNat) =
      nodeIds.map (fun id => (getChunkLayer graph id.toNat : ℤ)) ∧
    ∀ id ∈ nodeIds, getChunkLayer graph id.toNat = topBits graph.layerIdBits id

/-- The layers agree exactly for ids below half of the range. -/
theorem layersAgree_iff (nodeIds : List UInt64) :
    LayersAgree graph nodeIds ↔ ∀ id ∈ nodeIds, id.toNat < 2^63 := by
  rw [LayersAgree,getChunkLayers_eq_iff,
    and_iff_left fun id _ => getChunkLayer_eq_topBits graph id]

/-- With the default of eight bits the layer 128 of a single id is -128 in an array. -/
theorem not_layersAgree : ¬ LayersAgree (init (Service.bigTable.client
    Registry.parentOnly 1000 none [])) [0x8000000000000000] := by
  rintro ⟨h,_⟩
  have hsmall := (getChunkLayers_eq_iff _ _).mp h _ (List.mem_singleton_self _)
  exact absurd hsmall (by decide)

end Layers

end RootExtension
end KvdbClient
