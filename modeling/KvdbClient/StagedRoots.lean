import KvdbClient.RootTraversal

/-! Root lookups in stages: a lookup that stopped at a lower layer can be resumed at a higher one, on
every backend, for a single node with all its parents and for many nodes at once. -/
namespace KvdbClient
namespace RootExtension

/-- `get_root` of a node ends at another, along these nodes, from some number of steps on. -/
def EndsAlong {V : Type} (values : Values V) (graph : RootExtension V) (timeStamp : ℤ)
    (stopLayer : Option ℤ) (n r : ℕ) (nodes : List ℕ) : Prop :=
  ∃ enough, ∀ fuel, enough ≤ fuel →
    getRoot values graph fuel n timeStamp stopLayer = .ok (some (r,nodes))

section Lookups

variable {V : Type} (values : Values V) (graph : RootExtension V) {timeStamp : ℤ}
  {versions : ℕ → List (Cell V)}

theorem stops_of_stops {stop₁ stop₂ : ℤ} (hle : stop₁ ≤ stop₂) (n : ℕ)
    (h : stops graph stop₂ n = true) : stops graph stop₁ n = true := by
  simp only [stops,decide_eq_true_eq] at h ⊢
  exact hle.trans h

variable (hshows : graph.client.Shows Hierarchy.parent (asOf timeStamp) versions) {bound : ℕ}
  (hranked : AncestorChains.Ranked (parentOf values versions) (getChunkLayer graph) bound)
include hshows hranked

theorem rootLoop_path (stopLayer : ℤ) {fuel current : ℕ}
    (h : bound ≤ fuel+getChunkLayer graph current) (allParents : List ℕ) :
    rootLoop values graph timeStamp stopLayer (fuel+1) current allParents = .ok (some
      (AncestorChains.root (parentOf values versions) (stops graph stopLayer) bound current,
        allParents ++ (AncestorChains.path (parentOf values versions) (stops graph stopLayer) bound
          current).tail)) := by
  induction fuel generalizing current allParents with
  | zero =>
    have hend : AncestorChains.Ended (parentOf values versions) (stops graph stopLayer) current :=
      hranked.ended_of_le (by omega)
    rw [rootLoop_succ values graph hshows,AncestorChains.root_of_ended hend,
      AncestorChains.path_of_ended hend,List.tail_cons,List.append_nil]
    rcases hend with hs | hp
    · exact if_pos hs
    · rw [hp]
      exact ite_self _
  | succ fuel ih =>
    rw [rootLoop_succ values graph hshows]
    by_cases hs : stops graph stopLayer current = true
    · rw [if_pos hs,AncestorChains.root_of_ended (Or.inl hs),
        AncestorChains.path_of_ended (Or.inl hs),List.tail_cons,List.append_nil]
    · rw [if_neg hs]
      cases hp : parentOf values versions current with
      | none =>
        rw [AncestorChains.root_of_ended (Or.inr hp),AncestorChains.path_of_ended (Or.inr hp),
          List.tail_cons,List.append_nil]
      | some p =>
        have hsf : stops graph stopLayer current = false := by simpa using hs
        have hlt := hranked.lt hp
        have hpath : AncestorChains.path (parentOf values versions) (stops graph stopLayer) bound p =
            p :: _ := AncestorChains.path_eq_cons bound p
        rw [hranked.root_parent hsf hp,hranked.path_succ hsf hp,List.tail_cons,hpath]
        refine (ih (by omega) (allParents ++ [p])).trans ?_
        rw [List.append_assoc]
        rfl

theorem endsAlong_path {stopLayer : ℤ} {resolve : Option ℤ}
    (hresolve : resolveStopLayer values graph resolve = .ok stopLayer) (n : ℕ) :
    EndsAlong values graph timeStamp resolve n
      (AncestorChains.root (parentOf values versions) (stops graph stopLayer) bound n)
      (AncestorChains.path (parentOf values versions) (stops graph stopLayer) bound n) := by
  refine ⟨bound+1,fun fuel hfuel => ?_⟩
  obtain ⟨fuel,rfl⟩ : ∃ f, fuel = f+1 := ⟨fuel-1,by omega⟩
  have hloop := rootLoop_path values graph hshows hranked stopLayer
    (show bound ≤ fuel+getChunkLayer graph n by omega) [n]
  rw [List.singleton_append,← AncestorChains.path_eq_cons] at hloop
  simp only [getRoot,hresolve]
  exact hloop

end Lookups

/-- On every backend, of a table in which parents are in higher layers: looking roots up in two stages
comes to the same as doing it at once, of many nodes and of a single one, whose parents of the second
stage continue those of the first. -/
theorem getRoots_staged {V : Type} (values : Values V) (reg : Registry V)
    (hreg : reg.registered Hierarchy.parent = true) (maxRowKeyCount : ℕ) (hmax : 0 < maxRowKeyCount)
    (tableMeta : Option V) (store : List StoredCell) (b : Service) (hb : b.Consistent store)
    (graph : RootExtension V) (hext : graph.client = b.client reg maxRowKeyCount tableMeta store)
    (hlayered : Layered values reg graph store) (timeStamp : ℤ)
    (hzero : getParent values graph 0 timeStamp = .ok none) {stopLayer₁ stopLayer₂ : Option ℤ}
    {stop₁ stop₂ : ℤ} (h₁ : resolveStopLayer values graph stopLayer₁ = .ok stop₁)
    (h₂ : resolveStopLayer values graph stopLayer₂ = .ok stop₂) (hle : stop₁ ≤ stop₂) :
    (∀ nodeIds : List ℕ, (∀ n ∈ nodeIds, n < 2^63) → ∃ mid,
      getRoots values graph nodeIds timeStamp stopLayer₁ true = .ok mid ∧
      getRoots values graph mid timeStamp stopLayer₂ true =
        getRoots values graph nodeIds timeStamp stopLayer₂ true) ∧
    ∀ n, ∃ r₁ nodes₁ r₂ nodes₂, EndsAlong values graph timeStamp stopLayer₁ n r₁ nodes₁ ∧
      EndsAlong values graph timeStamp stopLayer₂ r₁ r₂ nodes₂ ∧
      EndsAlong values graph timeStamp stopLayer₂ n r₂ (nodes₁ ++ nodes₂.tail) ∧
      (nodes₁ ++ nodes₂.tail).IsChain (fun a p => getParent values graph a timeStamp =
        .ok (some p)) ∧ (nodes₁ ++ nodes₂.tail).getLast? = some r₂ := by
  have hshows : graph.client.Shows Hierarchy.parent (asOf timeStamp)
      (b.versions reg store Hierarchy.parent (asOf timeStamp)) := by
    rw [hext]
    exact Service.shows hmax tableMeta hb hreg _
  have hranked := hlayered.ranked b (asOf timeStamp)
  have hsmall : ∀ {n p}, parentOf values (b.versions reg store Hierarchy.parent (asOf timeStamp)) n =
      some p → p < 2^63 := fun hp => (hlayered.parentOf hp).2
  have hstops := stops_of_stops graph hle
  rw [getParent_eq values graph hshows] at hzero
  have hzero' := Except.ok.inj hzero
  constructor
  · intro nodeIds hids
    refine ⟨_,getRoots_ok values graph hshows hranked h₁ hsmall hzero' hids (Or.inl rfl),?_⟩
    have hmid : ∀ n ∈ nodeIds.map (rootOrZero values graph
        (b.versions reg store Hierarchy.parent (asOf timeStamp)) stop₁ (2^63)), n < 2^63 := by
      intro m hm
      obtain ⟨n,hn,rfl⟩ := List.mem_map.mp hm
      rw [rootOrZero_eq]
      split
      · exact AncestorChains.climb_induction (P := (· < 2^63)) hsmall (hids n hn) _
      · norm_num
    rw [getRoots_ok values graph hshows hranked h₂ hsmall hzero' hmid (Or.inl rfl),
      getRoots_ok values graph hshows hranked h₂ hsmall hzero' hids (Or.inl rfl),List.map_map]
    refine congrArg Except.ok (List.map_congr_left fun n _ => ?_)
    exact hranked.summit_summit hstops (rootOrZero_zero values graph hzero') n
  · intro n
    have hwhole := endsAlong_path values graph hshows hranked h₂ n
    have hchain : (AncestorChains.path (parentOf values (b.versions reg store Hierarchy.parent
        (asOf timeStamp))) (stops graph stop₂) (2^63) n).IsChain _ := AncestorChains.isChain_path _ n
    have hlast : _ = some (AncestorChains.root (parentOf values (b.versions reg store Hierarchy.parent
        (asOf timeStamp))) (stops graph stop₂) (2^63) n) := AncestorChains.getLast?_path (2^63) n
    rw [← hranked.root_root hstops,hranked.path_root hstops] at hwhole hlast
    rw [hranked.path_root hstops] at hchain
    refine ⟨_,_,_,_,endsAlong_path values graph hshows hranked h₁ n,
      endsAlong_path values graph hshows hranked h₂ _,hwhole,
      hchain.imp fun a p hp => ?_,hlast⟩
    rw [getParent_eq values graph hshows,hp]

/-- The parent of layer 3 is found with a stop at layer 2 on the way. -/
theorem getRoots_staged_oneParent : ∃ mid,
    getRoots bytesAsValues (oneParentExtension 1) [1,2,0,1] 0 (some 2) true = .ok mid ∧
    getRoots bytesAsValues (oneParentExtension 1) mid 0 (some 3) true =
      getRoots bytesAsValues (oneParentExtension 1) [1,2,0,1] 0 (some 3) true :=
  (getRoots_staged bytesAsValues .parentOnly rfl 1000 (by norm_num) none
    (oneParent 1) .bigTable trivial (oneParentExtension 1) rfl (layered_oneParent (by norm_num)) 0
    (by decide +kernel) rfl rfl (show (2 : ℤ) ≤ 3 by norm_num)).1 [1,2,0,1] (by decide)

end RootExtension
end KvdbClient
