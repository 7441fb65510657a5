import KvdbClient.Dict
import KvdbClient.HBaseServer
import KvdbClient.KeyedWrites
import KvdbClient.StoredCells

/-! Bulk writes of the HBase client: `_write_rows` and its retries, with responses that get lost.
A table is what it has stored for every version. -/
namespace KvdbClient
namespace HBase

structure CellVersion where
  rowKey : Bytes
  column : Column
  ts : ℤ
  deriving DecidableEq

abbrev Versioned := CellVersion → Option Bytes

/-- `HBaseMutation`: a value for every column, with the datetime of those that have one. -/
structure Mutation where
  rowKey : Bytes
  cells : Dict Column (Bytes × Option ℤ)

/-- `mutate_row`: all cells of the row have the same time, or none. -/
def mutateRow (rowKey : Bytes) (valDict : Dict Column Bytes) (timeStamp : Option ℤ) : Mutation :=
  ⟨rowKey,valDict.mapValues fun _ v => (v,timeStamp)⟩

structure CellPut where
  rowKey : Bytes
  column : Column
  timestamp : Option ℤ
  value : Bytes

def buildCellsetJson (mutations : List Mutation) : List CellPut :=
  mutations.flatMap fun m => m.cells.entries.map fun e =>
    ⟨m.rowKey,e.1,e.2.2.map datetimeToHbaseTs,e.2.1⟩

/-- The server stamps a cell without a timestamp when it applies the request. -/
def CellPut.stamped (now : ℤ) (c : CellPut) : CellVersion × Bytes :=
  (⟨c.rowKey,c.column,c.timestamp.getD (nowMs now)⟩,c.value)

/-- A version that is there already is overwritten. -/
def applyCellset (body : List CellPut) (t : Versioned) (now : ℤ) : Versioned :=
  KeyedWrites.write (body.map (CellPut.stamped now)) t

/-- How an attempt ends: the request or the response gets lost, or the server answers. -/
inductive Attempt
  | lost
  | unanswered
  | answered
  deriving DecidableEq

section Requests

variable (attempts : ℕ → Attempt) (clock : ℕ → ℤ)

/-- `_put_rows_with_retry`, with the attempts that are left and those that were made. It raises when
none is left. -/
def putRowsWithRetry (body : List CellPut) : ℕ → ℕ → Versioned → Bool × Versioned
  | 0, _, t => (false,t)
  | n+1, i, t =>
    match attempts i with
    | .lost => putRowsWithRetry body n (i+1) t
    | .unanswered => putRowsWithRetry body n (i+1) (applyCellset body t (clock i))
    | .answered => (true,applyCellset body t (clock i))

def applied : ℕ → ℕ → List ℕ
  | 0, _ => []
  | n+1, i =>
    match attempts i with
    | .lost => applied n (i+1)
    | .unanswered => i :: applied n (i+1)
    | .answered => [i]

variable {attempts}

theorem putRowsWithRetry_eq (body : List CellPut) {n i : ℕ}
    (h : ∃ a, i ≤ a ∧ a < i+n ∧ attempts a = .answered) (t : Versioned) :
    putRowsWithRetry attempts clock body n i t =
      (true,((applied attempts n i).map clock).foldl (applyCellset body) t) := by
  induction n generalizing i t with
  | zero =>
    obtain ⟨a,hi,ha,-⟩ := h
    omega
  | succ n ih =>
    have hnext : attempts i ≠ .answered → ∃ a, i+1 ≤ a ∧ a < i+1+n ∧ attempts a = .answered := by
      intro hne
      obtain ⟨a,hi,ha,hans⟩ := h
      have hia : i ≠ a := fun he => hne (he ▸ hans)
      exact ⟨a,by omega,by omega,hans⟩
    rw [putRowsWithRetry,applied]
    cases hai : attempts i with
    | lost => exact ih (hnext (by simp [hai])) t
    | unanswered => exact ih (hnext (by simp [hai])) _
    | answered => rfl

theorem applied_ne_nil {n i : ℕ} (h : ∃ a, i ≤ a ∧ a < i+n ∧ attempts a = .answered) :
    applied attempts n i ≠ [] := by
  induction n generalizing i with
  | zero =>
    obtain ⟨a,hi,ha,-⟩ := h
    omega
  | succ n ih =>
    rw [applied]
    cases hai : attempts i with
    | lost =>
      obtain ⟨a,hi,ha,hans⟩ := h
      have hia : i ≠ a := fun he => by simp [he,hans] at hai
      exact ih ⟨a,by omega,by omega,hans⟩
    | unanswered => simp
    | answered => simp

theorem mem_applied {n i a : ℕ} (h : a ∈ applied attempts n i) : i ≤ a ∧ a < i+n := by
  induction n generalizing i with
  | zero => simp [applied] at h
  | succ n ih =>
    rw [applied] at h
    cases hai : attempts i with
    | lost =>
      rw [hai] at h
      have := ih h
      omega
    | unanswered =>
      rw [hai] at h
      rcases List.mem_cons.mp h with rfl | h
      · omega
      · have := ih h
        omega
    | answered =>
      rw [hai] at h
      rw [List.mem_singleton.mp h]
      omega

theorem nodup_applied (n i : ℕ) : (applied attempts n i).Nodup := by
  induction n generalizing i with
  | zero => exact List.nodup_nil
  | succ n ih =>
    rw [applied]
    cases attempts i with
    | lost => exact ih (i+1)
    | unanswered =>
      refine List.nodup_cons.mpr ⟨fun hi => ?_,ih (i+1)⟩
      have := mem_applied hi
      omega
    | answered => exact List.nodup_singleton i

end Requests

section Blocks

variable (attempts : ℕ → ℕ → Attempt) (clock : ℕ → ℕ → ℤ)

/-- The loop of `_write_rows`, with the number of blocks that were written. -/
def writeBlocks : List (List Mutation) → ℕ → Versioned → Bool × Versioned
  | [], _, t => (true,t)
  | block :: blocks, j, t =>
    match putRowsWithRetry (attempts j) (clock j) (buildCellsetJson block) 5 0 t with
    | (true,t) => writeBlocks blocks (j+1) t
    | (false,t) => (false,t)

/-- `_write_rows`: whether it returns, and the table. -/
def writeRows (rows : List Mutation) (blockSize : ℕ) (t : Versioned) : Bool × Versioned :=
  writeBlocks attempts clock (chunked blockSize rows) 0 t

/-- Every block is applied at each of its times. -/
def deliver (times : ℕ → List ℤ) : List (List Mutation) → ℕ → Versioned → Versioned
  | [], _, t => t
  | block :: blocks, j, t =>
    deliver times blocks (j+1) ((times j).foldl (applyCellset (buildCellsetJson block)) t)

/-- Every block is answered by one of its five attempts. -/
def Answered (attempts : ℕ → ℕ → Attempt) (n : ℕ) : Prop :=
  ∀ j < n, ∃ a < 5, attempts j a = .answered

variable {attempts}

theorem writeBlocks_eq (blocks : List (List Mutation)) {j : ℕ}
    (h : ∀ i < blocks.length, ∃ a < 5, attempts (j+i) a = .answered) (t : Versioned) :
    writeBlocks attempts clock blocks j t =
      (true,deliver (fun j => (applied (attempts j) 5 0).map (clock j)) blocks j t) := by
  induction blocks generalizing j t with
  | nil => rfl
  | cons block blocks ih =>
    have hrest : ∀ i < blocks.length, ∃ a < 5, attempts (j+1+i) a = .answered := fun i hi => by
      have hnext := h (i+1) (by simpa using hi)
      rwa [show j+(i+1) = j+1+i by omega] at hnext
    have hanswered : ∃ a, 0 ≤ a ∧ a < 0+5 ∧ attempts j a = .answered := by
      obtain ⟨a,ha,hans⟩ := h 0 (by simp)
      exact ⟨a,Nat.zero_le a,by omega,hans⟩
    rw [writeBlocks,putRowsWithRetry_eq _ _ hanswered]
    exact ih hrest _

theorem isSome_deliver {times : ℕ → List ℤ} {blocks : List (List Mutation)} {j : ℕ} {t : Versioned}
    {v : CellVersion} :
    (deliver times blocks j t v).isSome = true ↔
      (∃ i block, blocks[i]? = some block ∧ ∃ now ∈ times (j+i),
        ∃ c ∈ buildCellsetJson block, (c.stamped now).1 = v) ∨ (t v).isSome = true := by
  have hone : ∀ (body : List CellPut) (l : List ℤ) (t : Versioned),
      (l.foldl (applyCellset body) t v).isSome = true ↔
        (∃ now ∈ l, ∃ c ∈ body, (c.stamped now).1 = v) ∨ (t v).isSome = true := by
    intro body l
    induction l with
    | nil => simp
    | cons now l ih =>
      intro t
      rw [List.foldl_cons,ih,applyCellset,KeyedWrites.isSome_write]
      simp only [List.mem_cons,exists_eq_or_imp,List.mem_map,exists_exists_and_eq_and]
      exact or_assoc.symm.trans (or_congr_left or_comm)
  induction blocks generalizing j t with
  | nil => simp [deliver]
  | cons block blocks ih =>
    refine ih.trans ?_
    rw [hone]
    constructor
    · rintro (⟨i,b,hb,now,hnow,hc⟩ | ⟨now,hnow,hc⟩ | ht)
      · exact Or.inl ⟨i+1,b,hb,now,by rwa [show j+(i+1) = j+1+i by omega],hc⟩
      · exact Or.inl ⟨0,block,rfl,now,hnow,hc⟩
      · exact Or.inr ht
    · rintro (⟨i,b,hb,now,hnow,hc⟩ | ht)
      · cases i with
        | zero =>
          cases hb
          exact Or.inr (Or.inl ⟨now,hnow,hc⟩)
        | succ i => exact Or.inl ⟨i,b,hb,now,by rwa [show j+1+i = j+(i+1) by omega],hc⟩
      · exact Or.inr (Or.inr ht)

/-- The table when every block is applied once, at one of the times at which it was. -/
def AppliedOnce (attempts : ℕ → ℕ → Attempt) (clock : ℕ → ℕ → ℤ) (rows : List Mutation)
    (blockSize : ℕ) (t t' : Versioned) : Prop :=
  ∃ chosen : ℕ → ℕ,
    (∀ j < (chunked blockSize rows).length, chosen j ∈ applied (attempts j) 5 0) ∧
    t' = deliver (fun j => [clock j (chosen j)]) (chunked blockSize rows) 0 t

/-- The block has a cell that the server stamps. -/
def Unstamped (block : List Mutation) : Prop := ∃ m ∈ block, ∃ e ∈ m.cells.entries, e.2.2 = none

instance (block : List Mutation) : Decidable (Unstamped block) :=
  inferInstanceAs (Decidable (∃ m ∈ block, ∃ e ∈ _, _))

theorem unstamped_iff {block : List Mutation} :
    Unstamped block ↔ ∃ c ∈ buildCellsetJson block, c.timestamp = none := by
  simp only [Unstamped,buildCellsetJson,List.mem_flatMap,List.mem_map]
  constructor
  · rintro ⟨m,hm,e,he,hnone⟩
    exact ⟨_,⟨m,hm,e,he,rfl⟩,by rw [hnone]; rfl⟩
  · rintro ⟨_,⟨m,hm,e,he,rfl⟩,hnone⟩
    exact ⟨m,hm,e,he,by simpa using hnone⟩

/-- A request that brings all its timestamps can be applied any number of times. -/
theorem foldl_applyCellset {block : List Mutation} (h : ¬ Unstamped block) {times : List ℤ} {now : ℤ}
    (hnow : now ∈ times) (t : Versioned) :
    times.foldl (applyCellset (buildCellsetJson block)) t =
      applyCellset (buildCellsetJson block) t now := by
  have hstamped : ∀ a b : ℤ, (buildCellsetJson block).map (CellPut.stamped a) =
      (buildCellsetJson block).map (CellPut.stamped b) := fun a b => by
    refine List.map_congr_left fun c hc => ?_
    cases hts : c.timestamp with
    | none => exact absurd (unstamped_iff.mpr ⟨c,hc,hts⟩) h
    | some ts => simp only [CellPut.stamped,hts,Option.getD_some]
  have hconst : applyCellset (buildCellsetJson block) = fun t _ =>
      KeyedWrites.write ((buildCellsetJson block).map (CellPut.stamped now)) t := by
    funext t a
    rw [applyCellset,hstamped a now]
  rw [hconst]
  exact KeyedWrites.foldl_write _ (List.ne_nil_of_mem hnow) t

/-- Of every block one time is enough, if it has only one or its cells bring theirs. -/
theorem deliver_once {times : ℕ → List ℤ} {once : ℕ → ℤ} {blocks : List (List Mutation)} {j : ℕ}
    (h : ∀ i block, blocks[i]? = some block → once (j+i) ∈ times (j+i) ∧
      (Unstamped block → (times (j+i)).length ≤ 1)) (t : Versioned) :
    deliver times blocks j t = deliver (fun j => [once j]) blocks j t := by
  induction blocks generalizing j t with
  | nil => rfl
  | cons block blocks ih =>
    obtain ⟨hmem,hlength⟩ := h 0 block rfl
    have hblock : (times j).foldl (applyCellset (buildCellsetJson block)) t =
        [once j].foldl (applyCellset (buildCellsetJson block)) t := by
      by_cases hu : Unstamped block
      · have hsingle : times j = [once j] := by
          obtain ⟨a,ha⟩ := List.length_eq_one_iff.mp
            (le_antisymm (hlength hu) (List.length_pos_of_mem hmem))
          have ha' : times j = [a] := ha
          have hmem' : once j ∈ times j := hmem
          rw [ha',List.mem_singleton] at hmem'
          rw [ha',hmem']
        rw [hsingle]
      · exact foldl_applyCellset hu hmem t
    rw [deliver,deliver,hblock]
    refine ih (fun i b hb => ?_) _
    have hnext := h (i+1) b hb
    rwa [show j+(i+1) = j+1+i by omega] at hnext

/-- The clock is later than every time that comes with a cell, and different for every attempt. -/
def TellsApart (clock : ℕ → ℕ → ℤ) (rows : List Mutation) : Prop :=
  (∀ j a, ∀ c ∈ buildCellsetJson rows, ∀ ts ∈ c.timestamp, ts < nowMs (clock j a)) ∧
  ∀ j a i b, a < 5 → b < 5 → nowMs (clock j a) = nowMs (clock i b) → j = i ∧ a = b

theorem exists_clock (rows : List Mutation) : ∃ clock, TellsApart clock rows := by
  obtain ⟨M,hM⟩ := ((buildCellsetJson rows).filterMap CellPut.timestamp).toFinset.exists_le
  refine ⟨fun j a => 1000*(M+1+5*j+a),fun j a c hc ts hts => ?_,fun j a i b ha hb he => ?_⟩
  · have hle : ts ≤ M := hM ts (List.mem_toFinset.mpr (List.mem_filterMap.mpr ⟨c,hc,hts⟩))
    simp only [nowMs]
    omega
  · simp only [nowMs] at he
    omega

theorem mem_buildCellsetJson_of_block {rows : List Mutation} {blockSize : ℕ} (hpos : 0 < blockSize)
    {block : List Mutation} (hb : block ∈ chunked blockSize rows) {c : CellPut}
    (hc : c ∈ buildCellsetJson block) : c ∈ buildCellsetJson rows := by
  obtain ⟨m,hm,hc⟩ := List.mem_flatMap.mp hc
  refine List.mem_flatMap.mpr ⟨m,?_,hc⟩
  rw [← flatten_chunked hpos rows]
  exact List.mem_flatten.mpr ⟨block,hb,hm⟩

/-- The version of a cell that the server stamps tells the attempt which left it. -/
theorem attempt_of_version {rows : List Mutation} {blockSize : ℕ} (hpos : 0 < blockSize)
    {clock : ℕ → ℕ → ℤ} (hclock : TellsApart clock rows) {chosen : ℕ → ℕ}
    (hchosen : ∀ j < (chunked blockSize rows).length, chosen j < 5) {c : CellPut}
    (hc : c.timestamp = none) {j x : ℕ} (hx : x < 5)
    (h : (deliver (fun j => [clock j (chosen j)]) (chunked blockSize rows) 0 (fun _ => none)
      (c.stamped (clock j x)).1).isSome = true) : x = chosen j := by
  obtain ⟨i,block,hblock,now,hnow,c',hc',heq⟩ := (isSome_deliver.mp h).resolve_right (by simp)
  rw [Nat.zero_add,List.mem_singleton] at hnow
  subst hnow
  have hi : i < (chunked blockSize rows).length := (List.getElem?_eq_some_iff.mp hblock).1
  have hts := congrArg CellVersion.ts heq
  simp only [CellPut.stamped,hc,Option.getD_none] at hts
  cases hc'ts : c'.timestamp with
  | some ts =>
    rw [hc'ts,Option.getD_some] at hts
    have hlt := hclock.1 j x c' (mem_buildCellsetJson_of_block hpos (List.mem_of_getElem? hblock) hc')
      ts hc'ts
    omega
  | none =>
    rw [hc'ts,Option.getD_none] at hts
    obtain ⟨hij,hax⟩ := hclock.2 _ _ _ _ (hchosen i hi) hx hts
    rw [← hax,hij]

/-- A bulk write whose blocks are all answered returns, and it is as if every mutation was applied
once, whatever the table and the server's clock, exactly when no block with a cell that the server
stamps is applied twice. -/
theorem writeRows_once_iff (rows : List Mutation) {blockSize : ℕ} (hpos : 0 < blockSize)
    (attempts : ℕ → ℕ → Attempt) (hans : Answered attempts (chunked blockSize rows).length) :
    (∀ clock t, ∃ t', writeRows attempts clock rows blockSize t = (true,t') ∧
      AppliedOnce attempts clock rows blockSize t t') ↔
    ∀ j block, (chunked blockSize rows)[j]? = some block → Unstamped block →
      (applied (attempts j) 5 0).length ≤ 1 := by
  have heq : ∀ clock t, writeRows attempts clock rows blockSize t =
      (true,deliver (fun j => (applied (attempts j) 5 0).map (clock j)) (chunked blockSize rows) 0
        t) := fun clock t =>
    writeBlocks_eq clock _ (fun i hi => by simpa using hans i hi) t
  have hne : ∀ j < (chunked blockSize rows).length, applied (attempts j) 5 0 ≠ [] := fun j hj => by
    obtain ⟨a,ha,hanswered⟩ := hans j hj
    exact applied_ne_nil ⟨a,Nat.zero_le a,by omega,hanswered⟩
  constructor
  · intro h j block hblock hu
    obtain ⟨clock,hclock⟩ := exists_clock rows
    obtain ⟨t',hwrite,chosen,hchosen,ht'⟩ := h clock fun _ => none
    rw [heq] at hwrite
    obtain ⟨c,hc,hcts⟩ := unstamped_iff.mp hu
    -- every application of the block leaves its version, but only the chosen one accounts for it
    have honly : applied (attempts j) 5 0 ⊆ [chosen j] := fun x hx => by
      have hsome : (t' (c.stamped (clock j x)).1).isSome = true := by
        rw [← (Prod.mk.inj hwrite).2]
        exact isSome_deliver.mpr (Or.inl ⟨j,block,hblock,clock j x,
          List.mem_map.mpr ⟨x,by simpa using hx,by rw [Nat.zero_add]⟩,c,hc,rfl⟩)
      rw [ht'] at hsome
      exact List.mem_singleton.mpr (attempt_of_version hpos hclock
        (fun i hi => (mem_applied (hchosen i hi)).2) hcts (mem_applied hx).2 hsome)
    exact (List.subperm_of_subset (nodup_applied 5 0) honly).length_le
  · intro h clock t
    have hhead : ∀ j < (chunked blockSize rows).length,
        (applied (attempts j) 5 0).headD 0 ∈ applied (attempts j) 5 0 := fun j hj => by
      obtain ⟨a,l,hal⟩ := List.exists_cons_of_ne_nil (hne j hj)
      rw [hal]
      exact List.mem_cons_self
    refine ⟨_,heq clock t,fun j => (applied (attempts j) 5 0).headD 0,hhead,?_⟩
    refine deliver_once (fun i block hb => ?_) t
    have hi : i < (chunked blockSize rows).length := (List.getElem?_eq_some_iff.mp hb).1
    rw [Nat.zero_add,List.length_map]
    exact ⟨List.mem_map.mpr ⟨_,hhead i hi,rfl⟩,h i block hb⟩

end Blocks

section Example

def lostResponse : ℕ → ℕ → Attempt := fun j a => if j = 0 ∧ a = 0 then .unanswered else .answered

def secondsApart : ℕ → ℕ → ℤ := fun j a => 1000000*(10*j+a)

def stampedThenNot : List Mutation :=
  [mutateRow [97] ((Dict.empty).set Hierarchy.newParent [1]) (some 5000),
    mutateRow [98] ((Dict.empty).set Hierarchy.newParent [2]) none]

theorem writeRows_once_stamped_first :
    ∃ t', writeRows lostResponse secondsApart stampedThenNot 1 (fun _ => none) = (true,t') ∧
      AppliedOnce lostResponse secondsApart stampedThenNot 1 (fun _ => none) t' := by
  refine (writeRows_once_iff stampedThenNot (by decide) lostResponse
    (fun j _ => ⟨1,by decide,by simp [lostResponse]⟩)).mpr (fun j block hb hu => ?_) _ _
  match j, hb with
  | 0, hb =>
    cases hb
    exact absurd hu (by decide)
  | j+1, _ => simp [applied,lostResponse]

/-- With the block that the server stamps first, its cell is stored twice. -/
theorem writeRows_twice :
    ¬ ∃ t', writeRows lostResponse secondsApart stampedThenNot.reverse 1 (fun _ => none) = (true,t') ∧
      AppliedOnce lostResponse secondsApart stampedThenNot.reverse 1 (fun _ => none) t' := by
  rintro ⟨t',hwrite,chosen,hchosen,ht'⟩
  have hzero : chosen 0 ∈ [0,1] := hchosen 0 (by decide)
  have htable := (Prod.mk.inj hwrite).2.trans ht'
  have hsome : ∀ v, (deliver (fun j => [secondsApart j (chosen j)])
      (chunked 1 stampedThenNot.reverse) 0 (fun _ => none) v).isSome = true → v.rowKey = [98] →
        v.ts = 1000*(chosen 0 : ℤ) := fun v hv hk => by
    rcases isSome_deliver.mp hv with ⟨i,b,hb,now,hnow,c,hc,rfl⟩ | hnone
    · match i, hb with
      | 0, hb =>
        cases hb
        rw [List.mem_singleton.mp hc,List.mem_singleton.mp hnow]
        simp only [CellPut.stamped,secondsApart,nowMs,Option.map_none,Option.getD_none,Nat.add_zero]
        omega
      | 1, hb =>
        cases hb
        rw [List.mem_singleton.mp hc] at hk
        cases hk
    · cases hnone
  have hfirst := hsome ⟨[98],Hierarchy.newParent,0⟩ (by rw [← htable]; decide) rfl
  have hsecond := hsome ⟨[98],Hierarchy.newParent,1000⟩ (by rw [← htable]; decide) rfl
  simp only at hfirst hsecond
  omega

end Example

end HBase
end KvdbClient
