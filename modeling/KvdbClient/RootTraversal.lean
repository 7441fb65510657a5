import KvdbClient.AncestorChains
import KvdbClient.NodeVersions

/-! The bulk lookup of roots against the single one. -/
namespace KvdbClient

namespace RootExtension

theorem toInt64_eq {n : ℕ} (h : n < 2^63) : toInt64 n = n := by
  refine Int.bmod_eq_of_le ?_ ?_
  · norm_num
  · norm_num
    omega

section Lookups

variable {V : Type} (values : Values V) (graph : RootExtension V)

def stops (stopLayer : ℤ) (n : ℕ) : Bool := stopLayer ≤ getChunkLayer graph n

theorem below_eq {stopLayer : ℤ} {l : List ℕ} (h : ∀ n ∈ l, n < 2^63) :
    below graph stopLayer l = l.map fun n => !stops graph stopLayer n := by
  rw [below,getChunkLayers,List.map_map]
  refine List.map_congr_left fun n hn => ?_
  have hlayer : toInt64 n >>> (64 - graph.layerIdBits) = (getChunkLayer graph n : ℤ) := by
    rw [toInt64_eq (h n hn)]
    rfl
  rw [Function.comp_apply,hlayer,stops,← decide_not]
  exact decide_eq_decide.mpr not_le.symm

def parentOf (versions : ℕ → List (Cell V)) (n : ℕ) : Option ℕ :=
  (versions n).head?.map fun x => values.uint64 x.value

variable {timeStamp : ℤ} {versions : ℕ → List (Cell V)}
  (hshows : graph.client.Shows Hierarchy.parent (asOf timeStamp) versions)
include hshows

theorem getParent_eq (n : ℕ) :
    getParent values graph n timeStamp = .ok (parentOf values versions n) := by
  simp only [getParent,hshows.readNode n,parentOf]
  cases versions n <;> rfl

theorem parentOrZero_spec {ids : List ℕ} (hnodup : ids.Nodup) (hids : ∀ n ∈ ids, n < 2^64) :
    ∃ d, (∀ failToZero, getParents values graph ids timeStamp failToZero =
        ids.mapM (parentOrZero values failToZero d)) ∧
      ∀ n ∈ ids, ∀ failToZero, parentOrZero values failToZero d n =
        match parentOf values versions n with
        | some p => .ok p
        | none => if failToZero then .ok 0 else .error (.key n) := by
  obtain ⟨d,hd,hget⟩ := hshows.readNodes ids hnodup hids
  refine ⟨d,fun failToZero => by simp only [getParents,hd]; rfl,fun n hn failToZero => ?_⟩
  rw [parentOrZero,hget n hn,parentOf]
  cases versions n <;> rfl

theorem getParents_ok {ids : List ℕ} (hnodup : ids.Nodup) (hids : ∀ n ∈ ids, n < 2^64)
    {failToZero : Bool} (h : ∀ n ∈ ids, failToZero = true ∨ parentOf values versions n ≠ none) :
    getParents values graph ids timeStamp failToZero =
      .ok (ids.map fun n => (parentOf values versions n).getD 0) := by
  obtain ⟨d,hread,hone⟩ := parentOrZero_spec values graph hshows hnodup hids
  rw [hread]
  refine ExceptLists.mapM_ok fun n hn => ?_
  rw [hone n hn]
  cases hp : parentOf values versions n with
  | some p => rfl
  | none => rw [if_pos ((h n hn).resolve_right (not_not_intro hp))]; rfl

theorem getParents_error {ids : List ℕ} (hnodup : ids.Nodup) (hids : ∀ n ∈ ids, n < 2^64)
    (h : ∃ n ∈ ids, parentOf values versions n = none) :
    ∃ k, getParents values graph ids timeStamp false = .error (.key k) := by
  obtain ⟨d,hread,hone⟩ := parentOrZero_spec values graph hshows hnodup hids
  obtain ⟨e,he,k,rfl⟩ := ExceptLists.mapM_error (f := parentOrZero values false d) (l := ids)
    (P := fun e => ∃ k, e = RootError.key k) (fun n hn e he => by
      rw [hone n hn] at he
      cases hp : parentOf values versions n with
      | some p =>
        rw [hp] at he
        cases he
      | none =>
        rw [hp] at he
        exact ⟨n,(Except.error.inj he).symm⟩) (by
      obtain ⟨n,hn,hp⟩ := h
      exact ⟨n,hn,.key n,by rw [hone n hn,hp]; rfl⟩)
  exact ⟨k,by rw [hread,he]⟩

theorem rootLoop_succ (stopLayer : ℤ) (fuel current : ℕ) (allParents : List ℕ) :
    rootLoop values graph timeStamp stopLayer (fuel+1) current allParents =
      if stops graph stopLayer current then .ok (some (current,allParents)) else
        match parentOf values versions current with
        | none => .ok (some (current,allParents))
        | some p => rootLoop values graph timeStamp stopLayer fuel p (allParents ++ [p]) := by
  have hparent : getParent values graph current (getValidTimestamp timeStamp) = _ :=
    getParent_eq values graph (by rwa [asOf_getValidTimestamp]) current
  rw [rootLoop,hparent]
  by_cases hs : stopLayer ≤ getChunkLayer graph current
  · rw [if_neg (not_lt.mpr hs),stops,decide_eq_true hs,if_pos rfl]
  · rw [if_pos (not_le.mp hs),stops,decide_eq_false hs,if_neg (by simp)]
    cases parentOf values versions current <;> rfl

/-- `get_root` follows parents to where the climb ends. -/
theorem rootLoop_eq (stopLayer : ℤ) {bound : ℕ}
    (hranked : AncestorChains.Ranked (parentOf values versions) (getChunkLayer graph) bound)
    {fuel : ℕ} {current : ℕ} (h : bound ≤ fuel+getChunkLayer graph current) (allParents : List ℕ) :
    ∃ l, rootLoop values graph timeStamp stopLayer (fuel+1) current allParents =
      .ok (some (AncestorChains.root (parentOf values versions) (stops graph stopLayer) bound current,
        l)) := by
  induction fuel generalizing current allParents with
  | zero =>
    have hend : AncestorChains.Ended (parentOf values versions) (stops graph stopLayer) current :=
      hranked.ended_of_le (by omega)
    rw [rootLoop_succ values graph hshows,AncestorChains.root_of_ended hend]
    rcases hend with hs | hp
    · exact ⟨allParents,if_pos hs⟩
    · exact ⟨allParents,by rw [hp]; exact ite_self _⟩
  | succ fuel ih =>
    rw [rootLoop_succ values graph hshows]
    by_cases hs : stops graph stopLayer current = true
    · rw [if_pos hs,AncestorChains.root_of_ended (Or.inl hs)]
      exact ⟨allParents,rfl⟩
    · rw [if_neg hs]
      cases hp : parentOf values versions current with
      | none =>
        rw [AncestorChains.root_of_ended (Or.inr hp)]
        exact ⟨allParents,rfl⟩
      | some p =>
        rw [hranked.root_parent (by simpa using hs) hp]
        have hlt := hranked.lt hp
        exact ih (by omega) (allParents ++ [p])

section Bulk

variable (ids : List ℕ)

def up (versions : ℕ → List (Cell V)) (n : ℕ) : ℕ := (parentOf values versions n).getD 0

def nextResult (versions : ℕ → List (Cell V)) (x : ℕ → ℕ) (m : ℕ → Bool) (n : ℕ) : ℕ :=
  if m n then up values versions (x n) else x n

def nextMask (versions : ℕ → List (Cell V)) (stopLayer : ℤ) (x : ℕ → ℕ) (m : ℕ → Bool) (n : ℕ) :
    Bool :=
  m n && !stops graph stopLayer (up values versions (x n))

omit hshows in
theorem mem_climbers {x : ℕ → ℕ} {m : ℕ → Bool} {a : ℕ} :
    a ∈ MaskedLists.unique ((ids.filter m).map x) ↔ ∃ n ∈ ids, m n = true ∧ x n = a := by
  simp only [MaskedLists.mem_unique,List.mem_map,List.mem_filter,and_assoc]

theorem getParents_climbers {failToZero : Bool} {x : ℕ → ℕ} {m : ℕ → Bool}
    (hx : ∀ n ∈ ids, x n < 2^64)
    (h : ∀ n ∈ ids, m n = true → failToZero = true ∨ parentOf values versions (x n) ≠ none) :
    getParents values graph (MaskedLists.unique ((ids.filter m).map x))
      (getValidTimestamp timeStamp) failToZero =
        .ok ((MaskedLists.unique ((ids.filter m).map x)).map (up values versions)) := by
  refine getParents_ok values graph (by rwa [asOf_getValidTimestamp]) (MaskedLists.nodup_unique _)
    (fun a ha => ?_) fun a ha => ?_
  · obtain ⟨n,hn,_,rfl⟩ := (mem_climbers ids).mp ha
    exact hx n hn
  · obtain ⟨n,hn,hm,rfl⟩ := (mem_climbers ids).mp ha
    exact h n hn hm

omit hshows in
theorem below_climbers {stopLayer : ℤ} {x : ℕ → ℕ} {m : ℕ → Bool}
    (hup : ∀ n ∈ ids, up values versions (x n) < 2^63) :
    below graph stopLayer ((ids.filter m).map (up values versions ∘ x)) =
      (ids.filter m).map fun n => !stops graph stopLayer (up values versions (x n)) := by
  rw [below_eq graph fun a ha => ?_,List.map_map]
  · rfl
  · obtain ⟨n,hn,rfl⟩ := List.mem_map.mp ha
    exact hup n (List.mem_filter.mp hn).1

omit hshows in
theorem assign_nextMask {stopLayer : ℤ} (x : ℕ → ℕ) (m : ℕ → Bool) :
    MaskedLists.assign (ids.map m) (ids.map m) ((ids.filter m).map fun n =>
      !stops graph stopLayer (up values versions (x n))) =
        ids.map (nextMask values graph versions stopLayer x m) := by
  rw [MaskedLists.assign_map]
  refine List.map_congr_left fun n _ => ?_
  cases hm : m n <;> simp [nextMask,hm]

omit hshows in
theorem assign_nextResult (x : ℕ → ℕ) (m : ℕ → Bool) :
    MaskedLists.assign (ids.map m) (ids.map x) ((ids.filter m).map (up values versions ∘ x)) =
      ids.map (nextResult values versions x m) :=
  MaskedLists.assign_map m x _ ids

theorem rootsLoop_succ {stopLayer : ℤ} {failToZero : Bool} (k : ℕ) {x : ℕ → ℕ} {m : ℕ → Bool}
    (hx : ∀ n ∈ ids, x n < 2^64) (hup : ∀ n ∈ ids, up values versions (x n) < 2^63)
    (h : ∀ n ∈ ids, m n = true → failToZero = true ∨ parentOf values versions (x n) ≠ none) :
    rootsLoop values graph timeStamp stopLayer failToZero (k+1) (ids.map x) (ids.map m) =
      if ∀ n ∈ ids, nextMask values graph versions stopLayer x m n = false then
        .ok (ids.map (nextResult values versions x m))
      else rootsLoop values graph timeStamp stopLayer failToZero k
        (ids.map (nextResult values versions x m))
        (ids.map (nextMask values graph versions stopLayer x m)) := by
  have hparents := getParents_climbers values graph hshows ids hx h
  have hpick := MaskedLists.pick_inverse (up values versions) ((ids.filter m).map x)
  rw [List.map_map] at hpick
  have hall : (ids.map (nextMask values graph versions stopLayer x m)).all not = true ↔
      ∀ n ∈ ids, nextMask values graph versions stopLayer x m n = false := by
    simp
  rw [rootsLoop,MaskedLists.select_map]
  by_cases hnil : ids.filter m = []
  · have hm : ∀ n ∈ ids, m n = false := fun n hn => by
      simpa using List.filter_eq_nil_iff.mp hnil n hn
    have hsame : ids.map (nextResult values versions x m) = ids.map x :=
      List.map_congr_left fun n hn => by rw [nextResult,hm n hn,if_neg (by simp)]
    rw [if_pos fun n hn => by rw [nextMask,hm n hn,Bool.false_and],hsame,hnil]
    rfl
  · have hempty : ((ids.filter m).map x).isEmpty = false := by simpa using hnil
    simp only [hempty,hparents,hpick,below_climbers values graph ids hup,
      assign_nextMask values graph ids,assign_nextResult values ids,bind,Except.bind,pure,Except.pure,
      Bool.false_eq_true,if_false,hall]

theorem rootsLoop_raises {stopLayer : ℤ} (k : ℕ) {x : ℕ → ℕ} {m : ℕ → Bool}
    (hx : ∀ n ∈ ids, x n < 2^64) (h : ∃ n ∈ ids, m n = true ∧ parentOf values versions (x n) = none) :
    ∃ key, rootsLoop values graph timeStamp stopLayer false (k+1) (ids.map x) (ids.map m) =
      .error (.key key) := by
  obtain ⟨n,hn,hm,hp⟩ := h
  have hfloored : graph.client.Shows Hierarchy.parent (asOf (getValidTimestamp timeStamp))
      versions := by
    rwa [asOf_getValidTimestamp]
  obtain ⟨key,hkey⟩ := getParents_error values graph hfloored
    (MaskedLists.nodup_unique ((ids.filter m).map x))
    (fun a ha => by
      obtain ⟨n,hn,_,rfl⟩ := (mem_climbers ids).mp ha
      exact hx n hn) ⟨x n,(mem_climbers ids).mpr ⟨n,hn,hm,rfl⟩,hp⟩
  have hempty : ((ids.filter m).map x).isEmpty = false := by
    simpa using ⟨n,hn,hm⟩
  refine ⟨key,?_⟩
  rw [rootsLoop,MaskedLists.select_map]
  simp only [hempty,hkey,bind,Except.bind,Bool.false_eq_true,if_false]

omit hshows in
theorem up_of_some {n p : ℕ} (h : parentOf values versions n = some p) :
    up values versions n = p := by
  rw [up,h,Option.getD_some]

omit hshows in
theorem up_of_none {n : ℕ} (h : parentOf values versions n = none) : up values versions n = 0 := by
  rw [up,h,Option.getD_none]

/-- The root of a node that has one at the stop layer, zero for the others. -/
def rootOrZero (versions : ℕ → List (Cell V)) (stopLayer : ℤ) (bound n : ℕ) : ℕ :=
  AncestorChains.summit (parentOf values versions) (stops graph stopLayer) bound 0 n

/-- What a round leaves of a node `n`: where it is now, `x`, has the same root. Without the mask it
is there; with it, it has climbed as many layers as there were rounds, or has become zero. -/
structure Sound (versions : ℕ → List (Cell V)) (stopLayer : ℤ) (bound rounds n x : ℕ) (m : Bool) :
    Prop where
  lt : x < 2^63
  same : rootOrZero values graph versions stopLayer bound x =
    rootOrZero values graph versions stopLayer bound n
  settled : m = false → x = rootOrZero values graph versions stopLayer bound n
  climbing : m = true → stops graph stopLayer x = false ∧ (x = 0 ∨ rounds ≤ getChunkLayer graph x)

section Rounds

variable {stopLayer : ℤ} {bound : ℕ}
  (hranked : AncestorChains.Ranked (parentOf values versions) (getChunkLayer graph) bound)
  (hsmall : ∀ {n p}, parentOf values versions n = some p → p < 2^63)
  (hzero : parentOf values versions 0 = none)
omit hshows

include hsmall in
theorem up_lt (n : ℕ) : up values versions n < 2^63 := by
  cases hp : parentOf values versions n with
  | none => rw [up_of_none values hp]; norm_num
  | some p => rw [up_of_some values hp]; exact hsmall hp

include hzero in
theorem rootOrZero_zero : rootOrZero values graph versions stopLayer bound 0 = 0 := by
  cases hs : stops graph stopLayer 0 with
  | true => exact AncestorChains.summit_of_stops hs
  | false => exact AncestorChains.summit_of_none hs hzero

include hranked hzero in
theorem rootOrZero_up {n : ℕ} (hs : stops graph stopLayer n = false) :
    rootOrZero values graph versions stopLayer bound (up values versions n) =
      rootOrZero values graph versions stopLayer bound n := by
  cases hp : parentOf values versions n with
  | none =>
    rw [up_of_none values hp,rootOrZero_zero values graph hzero]
    exact (AncestorChains.summit_of_none hs hp).symm
  | some p =>
    rw [up_of_some values hp]
    exact (hranked.summit_parent hs hp).symm

include hranked hsmall hzero in
theorem Sound.next {rounds : ℕ} {x : ℕ → ℕ} {m : ℕ → Bool} {n : ℕ}
    (h : Sound values graph versions stopLayer bound rounds n (x n) (m n)) :
    Sound values graph versions stopLayer bound (rounds+1) n (nextResult values versions x m n)
      (nextMask values graph versions stopLayer x m n) := by
  cases hm : m n with
  | false =>
    rw [nextResult,nextMask,hm,if_neg (by simp),Bool.false_and]
    exact ⟨h.lt,h.same,fun _ => h.settled hm,fun h => by cases h⟩
  | true =>
    obtain ⟨hs,hlayer⟩ := h.climbing hm
    have hsame := (rootOrZero_up values graph hranked hzero hs).trans h.same
    rw [nextResult,nextMask,hm,if_pos rfl,Bool.true_and]
    refine ⟨up_lt values hsmall (x n),hsame,fun hstop => ?_,fun hgo => ⟨by simpa using hgo,?_⟩⟩
    · rw [← hsame]
      exact (AncestorChains.summit_of_stops (by simpa using hstop)).symm
    · cases hp : parentOf values versions (x n) with
      | none => exact Or.inl (up_of_none values hp)
      | some p =>
        have hlt := hranked.lt hp
        have hne : x n ≠ 0 := fun hx => by
          rw [hx,hzero] at hp
          cases hp
        rw [up_of_some values hp]
        exact Or.inr (by have := hlayer.resolve_left hne; omega)

theorem stops_of_le {rounds n : ℕ} (h : stopLayer+1 ≤ rounds) (hn : rounds ≤ getChunkLayer graph n) :
    stops graph stopLayer n = true :=
  decide_eq_true (by omega)

include hranked hsmall hzero hshows

/-- The loop ends with every node at its root, or at zero if it has none; without `fail_to_zero` it
does so when all have one. -/
theorem rootsLoop_eq (failToZero : Bool) {k rounds : ℕ} (hk : stopLayer+1 ≤ k+rounds) {x : ℕ → ℕ}
    {m : ℕ → Bool}
    (hsound : ∀ n ∈ ids, Sound values graph versions stopLayer bound rounds n (x n) (m n))
    (hreach : ∀ n ∈ ids, m n = true → failToZero = true ∨ stops graph stopLayer
      (AncestorChains.root (parentOf values versions) (stops graph stopLayer) bound (x n)) = true) :
    rootsLoop values graph timeStamp stopLayer failToZero k (ids.map x) (ids.map m) =
      .ok (ids.map (rootOrZero values graph versions stopLayer bound)) := by
  induction k generalizing rounds x m with
  | zero =>
    refine congrArg Except.ok (List.map_congr_left fun n hn => ?_)
    cases hm : m n with
    | false => exact (hsound n hn).settled hm
    | true =>
      obtain ⟨hs,hlayer⟩ := (hsound n hn).climbing hm
      rcases hlayer with hx | hlayer
      · rw [← (hsound n hn).same,hx,rootOrZero_zero values graph hzero]
      · rw [stops_of_le graph (by simpa using hk) hlayer] at hs
        cases hs
  | succ k ih =>
    have hparent : ∀ n ∈ ids, m n = true →
        failToZero = true ∨ parentOf values versions (x n) ≠ none := by
      refine fun n hn hm => (hreach n hn hm).imp_right fun hstop hnone => ?_
      rw [AncestorChains.root_of_ended (Or.inr hnone),((hsound n hn).climbing hm).1] at hstop
      cases hstop
    have hnext := fun n hn => (hsound n hn).next values graph hranked hsmall hzero (m := m) (x := x)
    rw [rootsLoop_succ values graph hshows ids k (fun n hn => lt_trans (hsound n hn).lt (by norm_num))
      (fun n _ => up_lt values hsmall (x n)) hparent]
    split
    · rename_i hdone
      exact congrArg Except.ok (List.map_congr_left fun n hn => (hnext n hn).settled (hdone n hn))
    · refine ih (by push_cast at hk ⊢; omega) hnext fun n hn hm => ?_
      have hm' : m n = true := by
        rw [nextMask,Bool.and_eq_true] at hm
        exact hm.1
      refine (hreach n hn hm').imp_right fun hstop => ?_
      have hs := ((hsound n hn).climbing hm').1
      rw [nextResult,if_pos hm']
      cases hp : parentOf values versions (x n) with
      | none =>
        rw [AncestorChains.root_of_ended (Or.inr hp),hs] at hstop
        cases hstop
      | some p =>
        rw [up_of_some values hp]
        rwa [hranked.root_parent hs hp] at hstop

omit hzero in
theorem rootsLoop_error {k rounds : ℕ} (hk : stopLayer+1 ≤ k+rounds) {x : ℕ → ℕ} {m : ℕ → Bool}
    (hx : ∀ n ∈ ids, x n < 2^63)
    (hclimb : ∀ n ∈ ids, m n = true → stops graph stopLayer (x n) = false ∧
      rounds ≤ getChunkLayer graph (x n))
    (hlost : ∃ n ∈ ids, m n = true ∧ stops graph stopLayer
      (AncestorChains.root (parentOf values versions) (stops graph stopLayer) bound (x n)) = false) :
    ∃ key, rootsLoop values graph timeStamp stopLayer false k (ids.map x) (ids.map m) =
      .error (.key key) := by
  induction k generalizing rounds x m with
  | zero =>
    obtain ⟨n,hn,hm,_⟩ := hlost
    obtain ⟨hs,hlayer⟩ := hclimb n hn hm
    rw [stops_of_le graph (by simpa using hk) hlayer] at hs
    cases hs
  | succ k ih =>
    have hx' : ∀ n ∈ ids, x n < 2^64 := fun n hn => lt_trans (hx n hn) (by norm_num)
    by_cases hnone : ∃ n ∈ ids, m n = true ∧ parentOf values versions (x n) = none
    · exact rootsLoop_raises values graph hshows ids k hx' hnone
    · have hsome : ∀ n ∈ ids, m n = true → ∃ p, parentOf values versions (x n) = some p :=
        fun n hn hm => Option.ne_none_iff_exists'.mp fun hp => hnone ⟨n,hn,hm,hp⟩
      obtain ⟨n,hn,hm,hroot⟩ := hlost
      obtain ⟨p,hp⟩ := hsome n hn hm
      have hs := (hclimb n hn hm).1
      rw [hranked.root_parent hs hp] at hroot
      have hsp : stops graph stopLayer p = false := by
        by_contra hsp
        rw [AncestorChains.root_of_ended (Or.inl (by simpa using hsp))] at hroot
        exact hsp hroot
      have hmask : nextMask values graph versions stopLayer x m n = true := by
        rw [nextMask,hm,up_of_some values hp,hsp]
        rfl
      rw [rootsLoop_succ values graph hshows ids k hx' (fun n _ => up_lt values hsmall (x n))
        fun n hn hm => Or.inr (by obtain ⟨p,hp⟩ := hsome n hn hm; simp [hp]),
        if_neg fun hall => by simp [hall n hn] at hmask]
      have hk' : stopLayer+1 ≤ (k : ℤ)+((rounds+1 : ℕ) : ℤ) := by
        push_cast at hk ⊢
        omega
      refine ih hk' (fun n hn => ?_) (fun n hn hgo => ?_)
        ⟨n,hn,hmask,by rw [nextResult,if_pos hm,up_of_some values hp,hroot]⟩
      · rw [nextResult]
        split
        · exact up_lt values hsmall (x n)
        · exact hx n hn
      · rw [nextMask,Bool.and_eq_true] at hgo
        obtain ⟨q,hq⟩ := hsome n hn hgo.1
        have hlt := hranked.lt hq
        have hlayer := (hclimb n hn hgo.1).2
        rw [up_of_some values hq] at hgo
        rw [nextResult,if_pos hgo.1,up_of_some values hq]
        exact ⟨by simpa using hgo.2,by omega⟩

end Rounds

end Bulk

/-- `get_root` of a node ends at another, from some number of steps on. -/
def EndsAt (timeStamp : ℤ) (stopLayer : Option ℤ) (n r : ℕ) : Prop :=
  ∃ enough, ∀ fuel, enough ≤ fuel → ∃ l, getRoot values graph fuel n timeStamp stopLayer =
    .ok (some (r,l))

section Roots

variable {stopLayer : ℤ} {bound : ℕ}
  (hranked : AncestorChains.Ranked (parentOf values versions) (getChunkLayer graph) bound)
  {resolve : Option ℤ} (hresolve : resolveStopLayer values graph resolve = .ok stopLayer)

include hshows hranked hresolve in
theorem endsAt_root (n : ℕ) : EndsAt values graph timeStamp resolve n
    (AncestorChains.root (parentOf values versions) (stops graph stopLayer) bound n) := by
  refine ⟨bound+1,fun fuel hfuel => ?_⟩
  obtain ⟨fuel,rfl⟩ : ∃ f, fuel = f+1 := ⟨fuel-1,by omega⟩
  obtain ⟨l,hl⟩ := rootLoop_eq values graph hshows stopLayer hranked
    (show bound ≤ fuel+getChunkLayer graph n by omega) [n]
  exact ⟨l,by simp only [getRoot,hresolve]; exact hl⟩

omit hshows in
theorem layerMask_eq {ids : List ℕ} (hids : ∀ n ∈ ids, n < 2^63) :
    MaskedLists.fill (ids.map fun n => n = 0) (MaskedLists.fill ((below graph stopLayer ids).map not)
      (List.replicate ids.length true) false) false =
        ids.map fun n => !decide (n = 0) && !stops graph stopLayer n := by
  rw [below_eq graph hids,List.map_map,← List.map_const',MaskedLists.fill_map,MaskedLists.fill_map]
  refine List.map_congr_left fun n _ => ?_
  by_cases hn : n = 0 <;> cases hs : stops graph stopLayer n <;> simp [hn,hs]

omit hshows in
theorem rootOrZero_eq (n : ℕ) : rootOrZero values graph versions stopLayer bound n =
    if stops graph stopLayer
      (AncestorChains.root (parentOf values versions) (stops graph stopLayer) bound n)
    then AncestorChains.root (parentOf values versions) (stops graph stopLayer) bound n else 0 := rfl

variable (hsmall : ∀ {n p}, parentOf values versions n = some p → p < 2^63)
  (hzero : parentOf values versions 0 = none)

omit hshows in
include hsmall in
theorem noneBelow {ids : List ℕ} (hids : ∀ n ∈ ids, n < 2^63) :
    (below graph stopLayer ((ids.map (rootOrZero values graph versions stopLayer bound)).filter
      fun n => n ≠ 0)).any id = false := by
  have hroot : ∀ r ∈ (ids.map (rootOrZero values graph versions stopLayer bound)).filter
      fun n => n ≠ 0, stops graph stopLayer r = true ∧ r < 2^63 := fun r hr => by
    obtain ⟨hr,hne⟩ := List.mem_filter.mp hr
    obtain ⟨n,hn,rfl⟩ := List.mem_map.mp hr
    rw [rootOrZero_eq] at hne ⊢
    split
    · rename_i hs
      exact ⟨hs,AncestorChains.climb_induction (P := (· < 2^63)) hsmall (hids n hn) bound⟩
    · rename_i hs
      rw [if_neg hs] at hne
      simp at hne
  rw [below_eq graph fun r hr => (hroot r hr).2,List.any_map,List.any_eq_false]
  exact fun r hr => by simp [(hroot r hr).1]

include hshows hranked hresolve hsmall

include hzero in
/-- `get_roots` returns the root of every node that has one, and zero for the others. -/
theorem getRoots_ok {ids : List ℕ} (hids : ∀ n ∈ ids, n < 2^63) {failToZero : Bool}
    (hreach : failToZero = true ∨ ∀ n ∈ ids, n ≠ 0 → stops graph stopLayer
      (AncestorChains.root (parentOf values versions) (stops graph stopLayer) bound n) = true) :
    getRoots values graph ids timeStamp resolve failToZero =
      .ok (ids.map (rootOrZero values graph versions stopLayer bound)) := by
  have hloop := rootsLoop_eq values graph hshows ids hranked hsmall hzero failToZero
    (show stopLayer+1 ≤ ((stopLayer+1).toNat : ℤ)+((0 : ℕ) : ℤ) by omega) (x := fun n => n)
    (m := fun n => !decide (n = 0) && !stops graph stopLayer n) (fun n hn => ?_) fun n hn hm => ?_
  · rw [List.map_id'] at hloop
    simp only [getRoots,hresolve,layerMask_eq graph hids,hloop,bind,Except.bind,pure,Except.pure,
      noneBelow values graph hsmall hids,Bool.false_eq_true,if_false]
  · refine ⟨hids n hn,rfl,fun hm => ?_,fun hm => ?_⟩
    · by_cases h0 : n = 0
      · rw [h0,rootOrZero_zero values graph hzero]
      · refine (AncestorChains.summit_of_stops ?_).symm
        simpa [h0] using hm
    · rw [Bool.and_eq_true] at hm
      exact ⟨by simpa using hm.2,Or.inr (Nat.zero_le _)⟩
  · refine hreach.imp_right fun h => h n hn fun h0 => ?_
    simp [h0] at hm

theorem getRoots_error {ids : List ℕ} (hids : ∀ n ∈ ids, n < 2^63)
    (hlost : ∃ n ∈ ids, n ≠ 0 ∧ stops graph stopLayer
      (AncestorChains.root (parentOf values versions) (stops graph stopLayer) bound n) = false) :
    ∃ key, getRoots values graph ids timeStamp resolve false = .error (.key key) := by
  obtain ⟨key,hloop⟩ := rootsLoop_error values graph hshows ids hranked hsmall
    (show stopLayer+1 ≤ ((stopLayer+1).toNat : ℤ)+((0 : ℕ) : ℤ) by omega) (x := fun n => n)
    (m := fun n => !decide (n = 0) && !stops graph stopLayer n) hids (fun n _ hm => by
      rw [Bool.and_eq_true] at hm
      exact ⟨by simpa using hm.2,Nat.zero_le _⟩) (by
      obtain ⟨n,hn,h0,hs⟩ := hlost
      refine ⟨n,hn,?_,hs⟩
      have hsn : stops graph stopLayer n = false := by
        by_contra hsn
        rw [AncestorChains.root_of_ended (Or.inl (by simpa using hsn))] at hs
        exact hsn hs
      simp [h0,hsn])
  rw [List.map_id'] at hloop
  refine ⟨key,?_⟩
  simp only [getRoots,hresolve,layerMask_eq graph hids,hloop,bind,Except.bind]

end Roots

end Lookups

section Stores

variable {V : Type} (values : Values V) (reg : Registry V) (graph : RootExtension V)

/-- Every stored parent is in a higher layer than its child, and the top bit of its id is clear, which
for 8 layer bits says that its layer is below 128. -/
def Layered (store : List StoredCell) : Prop :=
  ∀ x ∈ store, x.column = Hierarchy.parent → ∀ n, x.rowKey = serializeUint64 n false false →
    getChunkLayer graph n <
        getChunkLayer graph (values.uint64 (reg.deserialize Hierarchy.parent x.value)) ∧
      values.uint64 (reg.deserialize Hierarchy.parent x.value) < 2^63

variable {values reg graph}

theorem Layered.parentOf {store : List StoredCell} (h : Layered values reg graph store) {b : Service}
    {w : Window} {n p : ℕ}
    (hp : parentOf values (b.versions reg store Hierarchy.parent w) n = some p) :
    getChunkLayer graph n < getChunkLayer graph p ∧ p < 2^63 := by
  obtain ⟨y,hy,rfl⟩ := Option.map_eq_some_iff.mp hp
  obtain ⟨x,hx,hk,hcol,hvalue⟩ := Service.mem_versions (List.mem_of_head? hy)
  rw [hvalue]
  exact h x hx hcol n hk

theorem Layered.ranked {store : List StoredCell} (h : Layered values reg graph store) (b : Service)
    (w : Window) : AncestorChains.Ranked
      (RootExtension.parentOf values (b.versions reg store Hierarchy.parent w)) (getChunkLayer graph)
      (2^63) where
  lt hp := (h.parentOf hp).1
  lt_bound hp := lt_of_le_of_lt (Nat.shiftRight_le _ _) (h.parentOf hp).2

end Stores

/-- Bulk and single lookups of roots agree, provided that zero, which stands for no node, has no
parent. -/
theorem getRoots_agrees {V : Type} (values : Values V) (reg : Registry V)
    (hreg : reg.registered Hierarchy.parent = true) (maxRowKeyCount : ℕ) (hmax : 0 < maxRowKeyCount)
    (tableMeta : Option V) (store : List StoredCell) (b : Service) (hb : b.Consistent store)
    (graph : RootExtension V) (hext : graph.client = b.client reg maxRowKeyCount tableMeta store)
    (hlayered : Layered values reg graph store) (timeStamp : ℤ)
    (hzero : getParent values graph 0 timeStamp = .ok none) (nodeIds : List ℕ)
    (hids : ∀ n ∈ nodeIds, n < 2^63) (stopLayer : Option ℤ) :
    match resolveStopLayer values graph stopLayer with
    | .error e => (∀ fuel n, getRoot values graph fuel n timeStamp stopLayer = .error e) ∧
        ∀ failToZero, getRoots values graph nodeIds timeStamp stopLayer failToZero = .error e
    | .ok stop => ∃ root : ℕ → ℕ, (∀ n, EndsAt values graph timeStamp stopLayer n (root n)) ∧
        let rootOrZero n := if stop ≤ getChunkLayer graph (root n) then root n else 0
        getRoots values graph nodeIds timeStamp stopLayer true = .ok (nodeIds.map rootOrZero) ∧
          ((∀ n ∈ nodeIds, n ≠ 0 → stop ≤ getChunkLayer graph (root n)) →
            getRoots values graph nodeIds timeStamp stopLayer false = .ok (nodeIds.map rootOrZero)) ∧
          ((∃ n ∈ nodeIds, n ≠ 0 ∧ getChunkLayer graph (root n) < stop) →
            ∃ key, getRoots values graph nodeIds timeStamp stopLayer false = .error (.key key)) := by
  have hshows : graph.client.Shows Hierarchy.parent (asOf timeStamp)
      (b.versions reg store Hierarchy.parent (asOf timeStamp)) := by
    rw [hext]
    exact Service.shows hmax tableMeta hb hreg _
  have hranked := hlayered.ranked b (asOf timeStamp)
  have hsmall : ∀ {n p}, parentOf values (b.versions reg store Hierarchy.parent (asOf timeStamp)) n =
      some p → p < 2^63 := fun hp => (hlayered.parentOf hp).2
  rw [getParent_eq values graph hshows] at hzero
  cases hresolve : resolveStopLayer values graph stopLayer with
  | error e =>
    exact ⟨fun fuel n => by simp only [getRoot,hresolve]; rfl,
      fun failToZero => by simp only [getRoots,hresolve]; rfl⟩
  | ok stop =>
    obtain ⟨root,hroot⟩ : ∃ root, root = AncestorChains.root (parentOf values
      (b.versions reg store Hierarchy.parent (asOf timeStamp))) (stops graph stop) (2^63) := ⟨_,rfl⟩
    have hok : ∀ failToZero : Bool, (failToZero = true ∨ ∀ n ∈ nodeIds, n ≠ 0 →
        stops graph stop (root n) = true) →
        getRoots values graph nodeIds timeStamp stopLayer failToZero =
          .ok (nodeIds.map fun n => if stop ≤ getChunkLayer graph (root n) then root n else 0) := by
      intro failToZero hreach
      rw [hroot] at hreach ⊢
      rw [getRoots_ok values graph hshows hranked hresolve hsmall (Except.ok.inj hzero) hids hreach]
      refine congrArg Except.ok (List.map_congr_left fun n _ => ?_)
      simp only [rootOrZero_eq,stops,decide_eq_true_eq]
    refine ⟨root,fun n => ?_,hok true (Or.inl rfl),fun hall => ?_,?_⟩
    · rw [hroot]
      exact endsAt_root values graph hshows hranked hresolve n
    · exact hok false (Or.inr fun n hn h0 => decide_eq_true (hall n hn h0))
    · rintro ⟨n,hn,h0,hlt⟩
      rw [hroot] at hlt
      exact getRoots_error values graph hshows hranked hresolve hsmall hids
        ⟨n,hn,h0,decide_eq_false (not_le.mpr hlt)⟩

def oneParent (child : ℕ) : List StoredCell :=
  [⟨serializeUint64 child false false,Hierarchy.parent,0,[0,0,0,0,0,0,0,3]⟩]

def oneParentExtension (child : ℕ) : RootExtension Bytes :=
  .init (Service.bigTable.client .parentOnly 1000 none (oneParent child))

theorem layered_oneParent {child : ℕ} (h : child < 2^56) :
    Layered bytesAsValues .parentOnly (oneParentExtension child)
      (oneParent child) := by
  intro x hx _ n hn
  obtain rfl := List.mem_singleton.mp hx
  obtain rfl := serializeUint64_injective false false hn
  have hchild : getChunkLayer (oneParentExtension child) child = 0 := by
    rw [getChunkLayer,oneParentExtension,Nat.shiftRight_eq_div_pow]
    exact Nat.div_eq_of_lt h
  have hvalue : bytesAsValues.uint64 [0,0,0,0,0,0,0,3] = 3*2^56 := by decide
  have hparent : getChunkLayer (oneParentExtension child) (3*2^56) = 3 := rfl
  change getChunkLayer _ child < getChunkLayer _ (bytesAsValues.uint64 [0,0,0,0,0,0,0,3]) ∧
    bytesAsValues.uint64 [0,0,0,0,0,0,0,3] < 2^63
  rw [hchild,hvalue,hparent]
  norm_num

theorem getRoots_agrees_oneParent : ∃ root : ℕ → ℕ,
    (∀ n, EndsAt bytesAsValues (oneParentExtension 1) 0 (some 3) n (root n)) ∧
      getRoots bytesAsValues (oneParentExtension 1) [1,2,0,1] 0 (some 3) true =
        .ok ([1,2,0,1].map fun n =>
          if (3 : ℤ) ≤ getChunkLayer (oneParentExtension 1) (root n) then root n else 0) := by
  obtain ⟨root,hends,hroots,_⟩ := getRoots_agrees bytesAsValues .parentOnly rfl 1000
    (by norm_num) none (oneParent 1) .bigTable trivial (oneParentExtension 1) rfl
    (layered_oneParent (by norm_num)) 0 (by decide +kernel) [1,2,0,1] (by decide) (some 3)
  exact ⟨root,hends,hroots⟩

/-- If zero has a parent, `get_root` climbs from it, and `get_roots` does not. -/
theorem zero_with_parent_differs :
    Layered bytesAsValues .parentOnly (oneParentExtension 0) (oneParent 0) ∧
    ¬ ∃ root : ℕ → ℕ, (∀ n, EndsAt bytesAsValues (oneParentExtension 0) 0 (some 3) n (root n)) ∧
      getRoots bytesAsValues (oneParentExtension 0) [0] 0 (some 3) true =
        .ok ([0].map fun n =>
          if (3 : ℤ) ≤ getChunkLayer (oneParentExtension 0) (root n) then root n else 0) := by
  refine ⟨layered_oneParent (by norm_num),?_⟩
  rintro ⟨root,hends,hroots⟩
  obtain ⟨enough,h⟩ := hends 0
  obtain ⟨l,hl⟩ := h (enough+2) (by omega)
  have hclimb : getRoot bytesAsValues (oneParentExtension 0) (enough+2) 0 0 (some 3) =
      .ok (some (3*2^56,[0,3*2^56])) := by
    rfl
  rw [hclimb] at hl
  obtain ⟨hroot,_⟩ := Prod.mk.inj (Option.some.inj (Except.ok.inj hl))
  have hzero : getRoots bytesAsValues (oneParentExtension 0) [0] 0 (some 3) true = .ok [0] := by
    decide +kernel
  rw [hzero,List.map_singleton,← hroot] at hroots
  exact absurd hroots (by decide)

end RootExtension
end KvdbClient
