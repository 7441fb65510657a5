import KvdbClient.RootNodeIds

/-! The maximum of a root chunk's ids, read from its 256 counters. A counter that was never
incremented counts as zero, which is not the number of any id. -/
namespace KvdbClient
namespace IdAllocation

open Transition

def getMaxRootNodeId (counters : Bytes → ℕ) (chunkId : ℕ) : ℕ :=
  chunkId ||| (List.finRange 256).foldl (fun maxValue counter =>
    let val := (counters (rootCounterKey chunkId counter)*256+counter) % 2^64
    if val > maxValue then val else maxValue) 0

def Call.rootChunk : Call → Option ℕ
  | .createRootNodeIds chunkId _ _ | .createRootNodeId chunkId _ => some chunkId
  | _ => none

def returned (b : Backend) (chunkId : ℕ) (tr : List Event) : List ℕ :=
  (tr.filter fun e => e.call.rootChunk = some chunkId).flatMap (Event.rootNodeIds b)

section Maximum

variable {α : Type} (f : α → ℕ) (l : List α) (m : ℕ)

theorem le_foldl_larger : m ≤ l.foldl (fun m c => if f c > m then f c else m) m ∧
    ∀ c ∈ l, f c ≤ l.foldl (fun m c => if f c > m then f c else m) m := by
  induction l generalizing m with
  | nil => simp
  | cons d l ih =>
    obtain ⟨hm,hl⟩ := ih (if f d > m then f d else m)
    have hlarger : m ≤ (if f d > m then f d else m) ∧ f d ≤ (if f d > m then f d else m) := by
      split <;> omega
    refine ⟨hlarger.1.trans hm,fun c hc => ?_⟩
    rcases List.mem_cons.mp hc with rfl | hc
    · exact hlarger.2.trans hm
    · exact hl c hc

theorem foldl_larger_mem : l.foldl (fun m c => if f c > m then f c else m) m = m ∨
    ∃ c ∈ l, l.foldl (fun m c => if f c > m then f c else m) m = f c := by
  induction l generalizing m with
  | nil => simp
  | cons d l ih =>
    rw [List.foldl_cons]
    rcases ih (if f d > m then f d else m) with h | ⟨c,hc,h⟩
    · rw [h]
      split
      · exact Or.inr ⟨d,List.mem_cons_self,rfl⟩
      · exact Or.inl rfl
    · exact Or.inr ⟨c,List.mem_cons_of_mem _ hc,h⟩

end Maximum

section Keys

theorem underscore_notMem_padNodeId (n : ℕ) : '_' ∉ padNodeId n := fun h =>
  absurd (isDigit_of_mem_padNodeId h) (by decide)

/-- The underscore separates the chunk from the counter. -/
theorem serializeKey_counter_inj {chunkId chunkId' counter counter' : ℕ}
    (h : serializeKey ('i'::padNodeId chunkId ++ '_'::Nat.toDigits 10 counter) =
      serializeKey ('i'::padNodeId chunkId' ++ '_'::Nat.toDigits 10 counter')) :
    chunkId = chunkId' ∧ counter = counter' := by
  have hdigits : '_' ∉ Nat.toDigits 10 counter := fun hmem =>
    absurd (Nat.isDigit_of_mem_toDigits (by norm_num) (by norm_num) hmem) (by decide)
  have htail := (List.cons.inj (serializeKey_injective h)).2
  obtain ⟨hpad,_,hcounter⟩ := (List.append_cons_inj_of_notMem
    (underscore_notMem_padNodeId chunkId) hdigits).mp htail
  exact ⟨padNodeId_injective hpad,by simpa using congrArg (Nat.ofDigitChars 10 · 0) hcounter⟩

theorem rootCounterKey_inj {chunkId chunkId' : ℕ} {counter counter' : Fin 256}
    (h : rootCounterKey chunkId counter = rootCounterKey chunkId' counter') :
    chunkId = chunkId' ∧ counter = counter' :=
  (serializeKey_counter_inj h).imp id Fin.ext

theorem rootChunk_of_key {c : Call} {chunkId : ℕ} {counter : Fin 256}
    (h : c.key = rootCounterKey chunkId counter) : c.rootChunk = some chunkId := by
  have hroot : '_' ∈ 'i'::padNodeId chunkId ++ '_'::Nat.toDigits 10 counter := by simp
  have hplain : ∀ t : Text, '_' ∉ t → serializeKey t ≠ rootCounterKey chunkId counter :=
    fun t ht heq => ht ((serializeKey_injective heq) ▸ hroot)
  have hcounter : ∀ n, counterKey n ≠ rootCounterKey chunkId counter := fun n =>
    hplain ('i'::padNodeId n) (by simp [underscore_notMem_padNodeId])
  cases c with
  | createRootNodeIds chunkId' _ counter' => rw [Call.rootChunk,(rootCounterKey_inj h).1]
  | createRootNodeId chunkId' counter' => rw [Call.rootChunk,(rootCounterKey_inj h).1]
  | createNodeIds chunkId' => exact absurd h (hcounter chunkId')
  | createNodeId chunkId' => exact absurd h (hcounter chunkId')
  | setMaxNodeId chunkId' => exact absurd h (hcounter chunkId')
  | createOperationId => exact absurd h (hplain _ (by decide))

end Keys

section Runs

variable {b : Backend} {k chunkId : ℕ} {s₀ s : Bytes → ℕ} {tr : List Event}

theorem mem_returned {id : ℕ} : id ∈ returned b chunkId tr ↔
    ∃ e ∈ tr, e.call.rootChunk = some chunkId ∧ id ∈ e.rootNodeIds b := by
  simp [returned,and_assoc]

theorem last_mem_rootNodeIds (hk : k ≤ 64) (h : Exec machine (rootPermitted b k) s₀ tr s)
    {e : Event} (he : e ∈ tr) {counter : Fin 256} (hkey : e.call.key = rootCounterKey chunkId counter) :
    chunkId % 2^k = 0 ∧ 1 ≤ e.high ∧ 256*(e.high+1) ≤ 2^k ∧
      chunkId+(256*e.high+counter) ∈ e.rootNodeIds b := by
  obtain ⟨⟨hbudget,hprecise⟩,hs,_⟩ := event_spec h e he
  have hchunk := rootChunk_of_key hkey
  obtain ⟨c,high⟩ := e
  cases c with
  | createRootNodeIds chunkId' size counter' =>
    obtain ⟨rfl,rfl⟩ := rootCounterKey_inj hkey
    obtain ⟨hzero,hpos,hbound⟩ : chunkId' % 2^k = 0 ∧ 1 ≤ size ∧ 256*(high+1) ≤ 2^k := hbudget
    have hs : size ≤ high := hs
    refine ⟨hzero,hpos.trans hs,hbound,?_⟩
    simp only [Event.rootNodeIds,createRootNodeIds_eq hk hzero hpos hs hbound hprecise,
      Option.getD_some]
    refine List.mem_map_of_mem (List.mem_map.mpr ⟨size-1,List.mem_range.mpr (by omega),?_⟩)
    omega
  | createRootNodeId chunkId' counter' =>
    obtain ⟨rfl,rfl⟩ := rootCounterKey_inj hkey
    obtain ⟨hzero,hbound⟩ : chunkId' % 2^k = 0 ∧ 256*(high+1) ≤ 2^k := hbudget
    have hs : 1 ≤ high := hs
    refine ⟨hzero,hs,hbound,?_⟩
    simp only [Event.rootNodeIds,createRootNodeId_eq hk hzero hs hbound hprecise]
    exact List.mem_singleton_self _
  | createNodeIds | createNodeId | setMaxNodeId | createOperationId => cases hchunk

theorem rootCounter_cases (h : Exec machine (rootPermitted b k) s₀ tr s)
    (h₀ : ∀ counter, s₀ (rootCounterKey chunkId counter) = 0) (counter : Fin 256) :
    (∃ e ∈ tr, e.call.key = rootCounterKey chunkId counter ∧
      s (rootCounterKey chunkId counter) = e.high) ∨ s (rootCounterKey chunkId counter) = 0 := by
  by_cases hkey : ∃ e ∈ tr, e.call.key = rootCounterKey chunkId counter
  · exact Or.inl (exists_high h hkey)
  · refine Or.inr (((history h).unchanged fun i hi heq => ?_).trans (h₀ counter))
    obtain ⟨e,he,rfl⟩ := List.mem_map.mp hi
    exact hkey ⟨e,he,heq⟩

theorem maxValue_spec (hk : k ≤ 64) (h : Exec machine (rootPermitted b k) s₀ tr s)
    (h₀ : ∀ counter, s₀ (rootCounterKey chunkId counter) = 0) :
    ∃ counter : Fin 256,
      getMaxRootNodeId s chunkId = chunkId ||| (256*s (rootCounterKey chunkId counter)+counter) ∧
      ∀ counter' : Fin 256, 256*s (rootCounterKey chunkId counter')+counter' ≤
        256*s (rootCounterKey chunkId counter)+counter := by
  have hval : ∀ counter : Fin 256, (s (rootCounterKey chunkId counter)*256+counter) % 2^64 =
      256*s (rootCounterKey chunkId counter)+counter := by
    intro counter
    have hc := counter.isLt
    have hbound : 256*s (rootCounterKey chunkId counter)+counter < 2^64 := by
      rcases rootCounter_cases h h₀ counter with ⟨e,he,hkey,hs⟩ | hs
      · obtain ⟨_,_,hbound,_⟩ := last_mem_rootNodeIds hk h he hkey
        have hint : 2^k ≤ 2^64 := Nat.pow_le_pow_right (by norm_num) hk
        omega
      · omega
    rw [Nat.mul_comm,Nat.mod_eq_of_lt hbound]
  obtain ⟨_,hle⟩ := le_foldl_larger
    (fun counter : Fin 256 => 256*s (rootCounterKey chunkId counter)+counter) (List.finRange 256) 0
  rcases foldl_larger_mem
    (fun counter : Fin 256 => 256*s (rootCounterKey chunkId counter)+counter) (List.finRange 256) 0
    with hmax | ⟨counter,_,hmax⟩
  · have := hle 255 (List.mem_finRange _)
    rw [hmax] at this
    simp at this
  · refine ⟨counter,?_,fun counter' => hmax ▸ hle counter' (List.mem_finRange _)⟩
    simp only [getMaxRootNodeId,hval,hmax]

theorem key_of_rootChunk {c : Call} (h : c.rootChunk = some chunkId) :
    ∃ counter, c.key = rootCounterKey chunkId counter := by
  cases c with
  | createRootNodeIds _ _ counter | createRootNodeId _ counter =>
    cases h
    exact ⟨counter,rfl⟩
  | createNodeIds | createNodeId | setMaxNodeId | createOperationId => cases h

theorem high_le_counter (h : Exec machine (rootPermitted b k) s₀ tr s) {e : Event} (he : e ∈ tr) :
    e.high ≤ s e.call.key := by
  have hafter : e.increment.after = e.high := Nat.sub_add_cancel (event_spec h e he).2.1
  exact hafter ▸ (history h).after_le (List.mem_map_of_mem he)

/-- Once an id of the chunk was created, the largest value is that of a counter above zero, and
the last id of its last call is the largest. -/
theorem getMaxRootNodeId_of_call (hk : k ≤ 64) (h : Exec machine (rootPermitted b k) s₀ tr s)
    (h₀ : ∀ counter, s₀ (rootCounterKey chunkId counter) = 0)
    (hcall : ∃ e ∈ tr, e.call.rootChunk = some chunkId) :
    (returned b chunkId tr).max? = some (getMaxRootNodeId s chunkId) := by
  obtain ⟨counter,hmax,hle⟩ := maxValue_spec hk h h₀
  have hpos : s (rootCounterKey chunkId counter) ≠ 0 := by
    intro hzero
    obtain ⟨e,he,hchunk⟩ := hcall
    obtain ⟨counter',hkey⟩ := key_of_rootChunk hchunk
    have hone := (last_mem_rootNodeIds hk h he hkey).2.1
    have hcounter := hkey ▸ high_le_counter h he
    have := hle counter'
    have := counter.isLt
    omega
  obtain ⟨e,he,hkey,hhigh⟩ := (rootCounter_cases h h₀ counter).resolve_right hpos
  obtain ⟨hzero,_,hbound,hmem⟩ := last_mem_rootNodeIds hk h he hkey
  have hlt : 256*s (rootCounterKey chunkId counter)+counter < 2^k := by
    have := counter.isLt
    omega
  rw [hmax,Nat.or_comm,or_eq_add hzero hlt,List.max?_eq_some_iff]
  refine ⟨mem_returned.mpr ⟨e,he,rootChunk_of_key hkey,hhigh ▸ hmem⟩,fun id hid => ?_⟩
  obtain ⟨e',he',hchunk,hid⟩ := mem_returned.mp hid
  obtain ⟨⟨hbudget,hprecise⟩,hs,_⟩ := event_spec h e' he'
  obtain ⟨chunkId',counter',n,hkey',_,_,hn,_,rfl⟩ := mem_rootNodeIds hk hbudget hprecise hs hid
  obtain rfl : chunkId' = chunkId :=
    Option.some.inj ((rootChunk_of_key hkey').symm.trans hchunk)
  have hcounter := hkey' ▸ high_le_counter h he'
  have := hle counter'
  omega

/-- Without an id of the chunk the largest value is that of the last counter. -/
theorem getMaxRootNodeId_of_no_call (hk : k ≤ 64) (h : Exec machine (rootPermitted b k) s₀ tr s)
    (h₀ : ∀ counter, s₀ (rootCounterKey chunkId counter) = 0)
    (hcall : ¬ ∃ e ∈ tr, e.call.rootChunk = some chunkId) :
    getMaxRootNodeId s chunkId = chunkId ||| 255 := by
  have hzero : ∀ counter, s (rootCounterKey chunkId counter) = 0 := fun counter =>
    (rootCounter_cases h h₀ counter).resolve_left fun ⟨e,he,hkey,_⟩ =>
      hcall ⟨e,he,rootChunk_of_key hkey⟩
  obtain ⟨counter,hmax,hle⟩ := maxValue_spec hk h h₀
  have hlast : ((255 : Fin 256) : ℕ) ≤ counter := by simpa [hzero] using hle 255
  have hcounter : (counter : ℕ) = 255 := Nat.le_antisymm (Nat.le_of_lt_succ counter.isLt) hlast
  rw [hmax,hzero,hcounter]

theorem or_255_eq_self_iff (n : ℕ) : n ||| 255 = n ↔ n % 256 = 255 := by
  have hlow : ∀ r < 256, r ||| 255 = 255 := by decide +kernel
  have hr : n % 256 < 2^8 := Nat.mod_lt _ (by norm_num)
  have hsplit : n = 2^8*(n/256) ||| n % 256 := by
    rw [← Nat.two_pow_add_eq_or_of_lt hr,show 2^8 = 256 by norm_num,Nat.div_add_mod]
  have hor : n ||| 255 = 256*(n/256)+255 := by
    conv_lhs => rw [hsplit]
    rw [Nat.or_assoc,hlow _ hr,← Nat.two_pow_add_eq_or_of_lt (by norm_num)]
  omega

/-- From counters at zero, `get_max_node_id` is the largest id returned for a root chunk, and the
chunk without one, exactly once an id of the chunk was created, or for chunks that end in the
number of the last counter and have no room for an id. -/
theorem getMaxRootNodeId_exact_iff (b : Backend) (k : ℕ) (hk : k ≤ 64) (s₀ s : Bytes → ℕ)
    (tr : List Event) (chunkId : ℕ) (h₀ : ∀ counter, s₀ (rootCounterKey chunkId counter) = 0)
    (h : Exec machine (rootPermitted b k) s₀ tr s) :
    getMaxRootNodeId s chunkId = (returned b chunkId tr).max?.getD chunkId ↔
      (∃ e ∈ tr, e.call.rootChunk = some chunkId) ∨ chunkId % 256 = 255 := by
  by_cases hcall : ∃ e ∈ tr, e.call.rootChunk = some chunkId
  · rw [getMaxRootNodeId_of_call hk h h₀ hcall]
    exact iff_of_true rfl (Or.inl hcall)
  · have hnone : returned b chunkId tr = [] := by
      refine List.eq_nil_iff_forall_not_mem.mpr fun id hid => ?_
      obtain ⟨e,he,hchunk,_⟩ := mem_returned.mp hid
      exact hcall ⟨e,he,hchunk⟩
    rw [getMaxRootNodeId_of_no_call hk h h₀ hcall,hnone,or_iff_right hcall]
    exact or_255_eq_self_iff chunkId

end Runs

theorem getMaxRootNodeId_exact_hBase : ∃ tr s,
    Exec machine (rootPermitted .hBase 16) (fun _ => 0) tr s ∧
    returned .hBase 65536 tr = [65799,66055,65800,66311] ∧ getMaxRootNodeId s 65536 = 66311 := by
  obtain ⟨tr,s,hrun,hids,hcalled⟩ := exists_exec machine (rootPermitted .hBase 16)
    (s := fun _ => 0)
    (P := fun tr _ => returned .hBase 65536 tr = [65799,66055,65800,66311] ∧
      ∃ e ∈ tr, e.call.rootChunk = some 65536)
    [.createRootNodeIds 65536 2 7,.createRootNodeId 65536 8,.createRootNodeIds 65536 1 7]
    (by decide +kernel)
  have hexact := (getMaxRootNodeId_exact_iff .hBase 16 (by norm_num) _ s tr 65536 (fun _ => rfl)
    hrun).mpr (Or.inl hcalled)
  rw [hids] at hexact
  exact ⟨tr,s,hrun,hids,hexact⟩

/-- Before an id of the chunk `65536` is created its maximum is read as `65791`. -/
theorem getMaxRootNodeId_of_fresh_chunk :
    Exec machine (rootPermitted .bigTable 16) (fun _ => 0) [] (fun _ => 0) ∧
    getMaxRootNodeId (fun _ => 0) 65536 = 65791 ∧
    (returned .bigTable 65536 []).max?.getD 65536 = 65536 := by
  have hrun : Exec machine (rootPermitted .bigTable 16) (fun _ => 0) [] (fun _ => 0) := Exec.refl
  exact ⟨hrun,getMaxRootNodeId_of_no_call (by norm_num) hrun (fun _ => rfl) (by simp),rfl⟩

end IdAllocation
end KvdbClient
