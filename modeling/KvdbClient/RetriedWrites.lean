import KvdbClient.HBaseWrites

/-! Bulk writes on HBase that are repeated until one of them returns. -/
namespace KvdbClient
namespace HBase

open KeyedWrites

def Stamped (rows : List Mutation) : Prop := ¬ Unstamped rows

/-- The cells of the rows as writes to the table; the server's clock is not asked. -/
def cellsOf (rows : List Mutation) : List (CellVersion × Bytes) :=
  (buildCellsetJson rows).map (CellPut.stamped 0)

section Attempts

variable {rows block : List Mutation}

theorem applyCellset_stamped (h : Stamped rows) (t : Versioned) (now : ℤ) :
    applyCellset (buildCellsetJson rows) t now = write (cellsOf rows) t := by
  rw [applyCellset,cellsOf]
  refine congrArg (fun ws => write ws t) (List.map_congr_left fun c hc => ?_)
  cases hts : c.timestamp with
  | none => exact absurd (unstamped_iff.mpr ⟨c,hc,hts⟩) h
  | some ts => simp only [CellPut.stamped,hts,Option.getD_some]

theorem Stamped.append_left {a b : List Mutation} (h : Stamped (a ++ b)) : Stamped a :=
  fun ⟨m,hm,he⟩ => h ⟨m,List.mem_append_left b hm,he⟩

theorem Stamped.append_right {a b : List Mutation} (h : Stamped (a ++ b)) : Stamped b :=
  fun ⟨m,hm,he⟩ => h ⟨m,List.mem_append_right a hm,he⟩

theorem cellsOf_append (a b : List Mutation) : cellsOf (a ++ b) = cellsOf a ++ cellsOf b := by
  simp [cellsOf,buildCellsetJson]

theorem putRowsWithRetry_cases (attempts : ℕ → Attempt) (clock : ℕ → ℤ) (h : Stamped block) (n i : ℕ)
    (t : Versioned) :
    ∃ b : Bool, (putRowsWithRetry attempts clock (buildCellsetJson block) n i t).2 =
        (if b then write (cellsOf block) t else t) ∧
      ((putRowsWithRetry attempts clock (buildCellsetJson block) n i t).1 = true → b = true) := by
  induction n generalizing i t with
  | zero => exact ⟨false,rfl,by simp [putRowsWithRetry]⟩
  | succ n ih =>
    rw [putRowsWithRetry]
    cases attempts i with
    | lost => exact ih (i+1) t
    | answered => exact ⟨true,applyCellset_stamped h t _,fun _ => rfl⟩
    | unanswered =>
      obtain ⟨b,hb,-⟩ := ih (i+1) (applyCellset (buildCellsetJson block) t (clock i))
      refine ⟨true,?_,fun _ => rfl⟩
      rw [hb,applyCellset_stamped h]
      cases b with
      | false => rfl
      | true => exact write_write _ t

/-- A bulk write leaves the cells of some of its first blocks, and all of them if it returns. -/
theorem writeBlocks_cases (attempts : ℕ → ℕ → Attempt) (clock : ℕ → ℕ → ℤ)
    (blocks : List (List Mutation)) (h : Stamped blocks.flatten) (j : ℕ) (t : Versioned) :
    ∃ n ≤ blocks.length, (writeBlocks attempts clock blocks j t).2 =
        write (cellsOf (blocks.take n).flatten) t ∧
      ((writeBlocks attempts clock blocks j t).1 = true → n = blocks.length) := by
  induction blocks generalizing j t with
  | nil => exact ⟨0,le_rfl,rfl,fun _ => rfl⟩
  | cons block blocks ih =>
    rw [List.flatten_cons] at h
    obtain ⟨b,hb,hret⟩ := putRowsWithRetry_cases (attempts j) (clock j) h.append_left 5 0 t
    rw [writeBlocks]
    cases hput : putRowsWithRetry (attempts j) (clock j) (buildCellsetJson block) 5 0 t with
    | mk ok t' =>
      rw [hput] at hb hret
      cases ok with
      | false =>
        refine ⟨b.toNat,?_,?_,fun hf => absurd hf (by simp)⟩
        · cases b <;> simp
        · rw [hb]
          cases b <;> simp [cellsOf,buildCellsetJson]
      | true =>
        have ht' : t' = write (cellsOf block) t := hb.trans (if_pos (hret rfl))
        obtain ⟨n,hn,htable,hlength⟩ := ih h.append_right (j+1) t'
        refine ⟨n+1,by simpa using hn,?_,fun hr => by simp [hlength hr]⟩
        rw [htable,ht',List.take_succ_cons,List.flatten_cons,cellsOf_append,write_append]

end Attempts

/-- One call of `_write_rows`, after what others have written since the last one. -/
structure Try where
  attempts : ℕ → ℕ → Attempt
  clock : ℕ → ℕ → ℤ
  others : List (CellVersion × Bytes)

section Tries

variable (rows : List Mutation) (blockSize : ℕ)

def Try.run (c : Try) (t : Versioned) : Bool × Versioned :=
  writeRows c.attempts c.clock rows blockSize (write c.others t)

/-- The table after calls that may all have failed. -/
def afterTries (tries : List Try) (t : Versioned) : Versioned :=
  tries.foldl (fun t c => (c.run rows blockSize t).2) t

variable {rows blockSize} (hpos : 0 < blockSize) (hrows : Stamped rows)
include hpos hrows

theorem Try.run_cases (c : Try) (t : Versioned) :
    ∃ ws, (∀ w ∈ ws, w ∈ cellsOf rows) ∧ (c.run rows blockSize t).2 = write ws (write c.others t) ∧
      ((c.run rows blockSize t).1 = true → ws = cellsOf rows) := by
  have hflat := flatten_chunked hpos rows
  obtain ⟨n,-,htable,hret⟩ := writeBlocks_cases c.attempts c.clock (chunked blockSize rows)
    (hflat.symm ▸ hrows) 0 (write c.others t)
  refine ⟨_,fun w hw => ?_,htable,fun hr => ?_⟩
  · rw [← hflat,← List.take_append_drop n (chunked blockSize rows),List.flatten_append,cellsOf_append]
    exact List.mem_append_left _ hw
  · rw [hret hr,List.take_length,hflat]

theorem afterTries_cases (tries : List Try)
    (hothers : ∀ c ∈ tries, ∀ o ∈ c.others, ∀ w ∈ cellsOf rows, w.1 ≠ o.1) (t : Versioned) :
    ∃ ws, (∀ w ∈ ws, w ∈ cellsOf rows) ∧
      afterTries rows blockSize tries t = write ws (write (tries.flatMap Try.others) t) := by
  induction tries using List.reverseRecOn with
  | nil => exact ⟨[],by simp,rfl⟩
  | append_singleton tries c ih =>
    obtain ⟨ws,hws,htable⟩ := ih fun d hd => hothers d (List.mem_append_left _ hd)
    obtain ⟨vs,hvs,hrun,-⟩ := c.run_cases hpos hrows (afterTries rows blockSize tries t)
    refine ⟨ws ++ vs,fun w hw => (List.mem_append.mp hw).elim (hws w) (hvs w),?_⟩
    have hc : ∀ o ∈ c.others, ∀ w ∈ ws, w.1 ≠ o.1 := fun o ho w hw =>
      hothers c (List.mem_append_right _ List.mem_cons_self) o ho w (hws w hw)
    rw [afterTries,List.foldl_concat,← afterTries,hrun,htable,← write_comm hc,List.flatMap_append,
      List.flatMap_singleton,write_append,write_append]

/-- Rows that bring their times can be written again until a call returns, however often and
wherever the calls before it failed and whatever others write to other versions meanwhile: the
table is as after one write of the rows. -/
theorem retried_write (tries : List Try) (c : Try)
    (hothers : ∀ d ∈ tries ++ [c], ∀ o ∈ d.others, ∀ w ∈ cellsOf rows, w.1 ≠ o.1) (t : Versioned)
    (hreturns : (c.run rows blockSize (afterTries rows blockSize tries t)).1 = true) :
    (c.run rows blockSize (afterTries rows blockSize tries t)).2 =
      write (cellsOf rows) (write ((tries ++ [c]).flatMap Try.others) t) := by
  obtain ⟨ws,hws,htable⟩ := afterTries_cases hpos hrows tries
    (fun d hd => hothers d (List.mem_append_left _ hd)) t
  obtain ⟨vs,-,hrun,hall⟩ := c.run_cases hpos hrows (afterTries rows blockSize tries t)
  have hc : ∀ o ∈ c.others, ∀ w ∈ ws, w.1 ≠ o.1 := fun o ho w hw =>
    hothers c (List.mem_append_right _ List.mem_cons_self) o ho w (hws w hw)
  rw [hrun,hall hreturns,htable,← write_comm hc,write_absorb fun v hv => ⟨v,hws v hv,rfl⟩,
    List.flatMap_append,List.flatMap_singleton,write_append]

end Tries

def stampedRows : List Mutation :=
  [mutateRow [97] (Dict.empty.set Hierarchy.newParent [1]) (some 5000),
    mutateRow [98] (Dict.empty.set Hierarchy.newParent [2]) (some 7000)]

/-- No request for the second block arrives. -/
def failsHalfway : Try where
  attempts j _ := if j = 0 then .answered else .lost
  clock := secondsApart
  others := []

/-- The response to the first request of each block is lost, after another row was written. -/
def succeeds : Try where
  attempts _ a := if a = 0 then .unanswered else .answered
  clock := secondsApart
  others := [(⟨[99],Hierarchy.newParent,9⟩,[3])]

theorem retried_write_twoBlocks :
    (succeeds.run stampedRows 1 (afterTries stampedRows 1 [failsHalfway] fun _ => none)).2 =
      write (cellsOf stampedRows) (write [(⟨[99],Hierarchy.newParent,9⟩,[3])] fun _ => none) :=
  retried_write (by decide) (by decide : ¬ Unstamped stampedRows) [failsHalfway] succeeds (by decide)
    _ (by decide)

end HBase
end KvdbClient
