import KvdbClient.BackendStores

/-! Runs of writes and deletes on the three services at once. Each service has its own table, and all
of them hold the values of one wide-column map. -/
namespace KvdbClient

open Vast (WideColumn Version versionOf)
open BigTable.GuardedWrite (RowMutationEntry)

theorem chunks_map {α β : Type} (f : α → β) (size n : ℕ) (xs : List α) :
    chunks size n (xs.map f) = (chunks size n xs).map (List.map f) := by
  induction n generalizing xs with
  | zero => rfl
  | succ n ih =>
    cases xs with
    | nil => rfl
    | cons x xs =>
      rw [List.map_cons,chunks,chunks]
      split
      · rfl
      · rw [List.map_cons,← List.map_cons,← List.map_take,← List.map_drop,ih]

section Steps

variable {V : Type} {reg : Registry V} {takes : ℕ → Bool} {map : WideColumn}
  {c : StoreCall reg × Delivery}

variable (reg) in
theorem deletes_iff_names (d : Deletion) (x : StoredCell) :
    (Vast.Operation.deleteCells d.mutations d.rowKeysToDelete : Vast.Operation reg).Deletes
      (versionOf (atMicros x)) ↔ d.Names x := Iff.rfl

theorem StoreCall.Portable.valid (h : StoreCall.Portable takes c) : c.1.operation.Valid := by
  obtain ⟨call,delivery⟩ := c
  cases call with
  | write rows => exact fun m hm => (h.1 m hm).1
  | deleteCells d =>
    exact ⟨fun m hm hne => (h.2.2 m.1 (Or.inl ⟨m,hm,rfl,hne⟩)).1,
      fun k hk => (h.2.2 k (Or.inr hk)).1⟩
  | deleteRow k => exact h.1

theorem map_step_write {rows : List (Vast.Mutation reg)} {blockSize : ℕ} {hpos : 0 < blockSize}
    (h : ∀ m ∈ rows, m.rowKey.toByteArray.IsValidUTF8) :
    map.step (.write rows blockSize hpos) = KeyedWrites.write (writesOf rows) map := by
  rw [← foldl_write_eq]
  exact if_pos h

theorem map_step_delete_eq {op : Vast.Operation reg} (hvalid : op.Valid)
    (hop : ∀ rows blockSize hpos, op ≠ .write rows blockSize hpos) :
    map.step op = KeyedWrites.erase (fun v => decide (op.Deletes v)) map := by
  rw [Vast.map_step_delete map hop,if_pos hvalid]
  funext v
  simp only [KeyedWrites.erase,decide_eq_true_eq]

theorem OnGrid.exists_cell (h : OnGrid reg map) {v : Vast.Version} (hv : map v ≠ none) :
    ∃ x : StoredCell, cellOf v = atMicros x ∧ v = versionOf (atMicros x) := by
  obtain ⟨b,hb⟩ := Option.ne_none_iff_exists'.mp hv
  obtain ⟨ms,hms⟩ := h.whole v b hb
  obtain ⟨k,column,ts⟩ := v
  obtain rfl : ts = 1000*ms := hms
  exact ⟨⟨k,column,ms,[]⟩,rfl,rfl⟩

theorem BigTable.represents_step {t : BigTable.Table} (hone : takes 1 = true)
    (h : BigTable.Represents t map) (hgrid : OnGrid reg map) (hc : StoreCall.Portable takes c) :
    BigTable.Represents (storeStep takes t c) (map.step c.1.operation) := by
  have hvalid := hc.valid
  obtain ⟨call,delivery⟩ := c
  cases call with
  | write rows blockSize hpos =>
    obtain ⟨hrows,hnodup,-⟩ := hc
    have hentries : (rows.map fun m => (⟨m.rowKey,m.values.entries.map fun e =>
        ⟨e.1,m.timeStamp.getD (floorMs m.now),e.2⟩⟩ : RowMutationEntry)).flatMap writesOfEntry =
          writesOf rows := by
      rw [List.flatMap_map,writesOf,List.map_flatMap]
      exact List.flatMap_congr fun m hm => writesOfEntry_eq (hrows m hm).2.2
    have hkeys : (writesOf rows).map Prod.fst = (rows.flatMap Vast.Mutation.cells).map versionOf := by
      rw [writesOf,List.map_map]
      rfl
    have hmap : map.step (StoreCall.write rows blockSize hpos).operation = _ := map_step_write hvalid
    simp only [storeStep,mapM_mutateRow fun m hm => (hrows m hm).2.1,hmap,← hentries]
    exact h.writeRows _ (by rwa [hentries,hkeys])
  | deleteCells d =>
    obtain ⟨htakes,hround,-⟩ := hc
    have hmap : map.step (StoreCall.deleteCells d).operation = _ :=
      map_step_delete_eq hvalid (by simp [StoreCall.operation])
    simp only [storeStep,(deleteEntries_eq_ok_iff hone).mpr ⟨htakes,rfl⟩,hmap]
    have hsame : KeyedWrites.erase
        (fun v => decide ((StoreCall.deleteCells d : StoreCall reg).operation.Deletes v)) map =
        KeyedWrites.erase (fun v => (delivery.deletions.arrange (allEntries d)).any fun entry =>
          entryRemoves entry (cellOf v)) map := by
      refine KeyedWrites.erase_congr fun v hv => ?_
      obtain ⟨x,hx,rfl⟩ := hgrid.exists_cell hv
      rw [hx,(delivery.deletions.perm _).any_eq,Bool.eq_iff_iff,decide_eq_true_eq,any_allEntries_iff,
        Deletion.covers_iff_names.mpr hround]
      exact deletes_iff_names reg d x
    rw [hsame]
    exact h.foldl_applyEntry _
  | deleteRow k =>
    have hmap : map.step (StoreCall.deleteRow k).operation = _ :=
      map_step_delete_eq hvalid (by simp [StoreCall.operation])
    have hsame : KeyedWrites.erase
        (fun v => decide ((StoreCall.deleteRow k : StoreCall reg).operation.Deletes v)) map =
        KeyedWrites.erase (fun v => entryRemoves (k,[.deleteAllFromRow]) (cellOf v)) map :=
      KeyedWrites.erase_congr fun v _ => by
        have hremoves : entryRemoves (k,[.deleteAllFromRow]) (cellOf v) = decide (v.rowKey = k) :=
          Bool.and_true _
        rw [hremoves,Bool.eq_iff_iff,decide_eq_true_eq,decide_eq_true_eq]
        rfl
    rw [hmap,hsame]
    exact h.applyEntry _

theorem HBase.represents_step (t : TableId) {m : Versioned} (h : HBase.Represents m map)
    (hc : StoreCall.Portable takes c) :
    HBase.Represents (storeStep t m c) (map.step c.1.operation) := by
  have hvalid := hc.valid
  obtain ⟨call,delivery⟩ := c
  cases call with
  | write rows blockSize hpos =>
    obtain ⟨hrows,-,hans⟩ := hc
    have hblocks : chunked blockSize (mutations rows) = (chunked blockSize rows).map mutations := by
      rw [mutations,chunked,chunks_map,List.length_map]
      rfl
    have hmap : map.step (StoreCall.write rows blockSize hpos).operation = _ := map_step_write hvalid
    have hflat := flatten_chunked hpos rows
    have hwrite : writeBlocks delivery.attempts delivery.clock
        ((chunked blockSize rows).map mutations) 0 m = (true,deliver (fun j =>
          (applied (delivery.attempts j) 5 0).map (delivery.clock j))
            ((chunked blockSize rows).map mutations) 0 m) :=
      writeBlocks_eq delivery.clock _ (fun i hi => by simpa using hans i (by simpa using hi)) m
    have hdeliver : HBase.Represents (deliver (fun j =>
        (applied (delivery.attempts j) 5 0).map (delivery.clock j))
          ((chunked blockSize rows).map mutations) 0 m)
        (KeyedWrites.write (writesOf (chunked blockSize rows).flatten) map) := by
      refine h.deliver (fun m hm => (hrows m (hflat ▸ hm)).2.2) fun i hi => ?_
      obtain ⟨a,ha,hanswered⟩ := hans i hi
      rw [Nat.zero_add,ne_eq,List.map_eq_nil_iff]
      exact applied_ne_nil ⟨a,Nat.zero_le a,by omega,hanswered⟩
    rw [hflat] at hdeliver
    change HBase.Represents (writeRows delivery.attempts delivery.clock (mutations rows) blockSize m).2 _
    rw [hmap,writeRows,hblocks,hwrite]
    exact hdeliver
  | deleteCells d =>
    obtain ⟨-,-,hkeys⟩ := hc
    have hmap : map.step (StoreCall.deleteCells d).operation = _ :=
      map_step_delete_eq hvalid (by simp [StoreCall.operation])
    rw [hmap]
    refine h.foldl_applyDelete t _ fun v => Bool.eq_iff_iff.mpr ?_
    rw [List.any_eq_true,decide_eq_true_eq,exists_removes_iff t d fun k hk => (hkeys k hk).2]
    exact deletes_iff_names reg d ⟨v.rowKey,v.column,v.ts,[]⟩
  | deleteRow k =>
    have hmap : map.step (StoreCall.deleteRow k).operation = _ :=
      map_step_delete_eq hvalid (by simp [StoreCall.operation])
    rw [hmap]
    refine h.foldl_applyDelete t [deleteRow t k] fun v => Bool.eq_iff_iff.mpr ?_
    rw [List.any_cons,List.any_nil,Bool.or_false,removes_deleteRow_iff hc.2,decide_eq_true_eq]
    rfl

theorem onGrid_step (h : OnGrid reg map) (hc : StoreCall.Portable takes c) :
    OnGrid reg (map.step c.1.operation) := by
  have hvalid := hc.valid
  have hkept : ∀ p : Vast.Version → Bool, OnGrid reg (KeyedWrites.erase p map) := fun p => by
    have hsome : ∀ v b, KeyedWrites.erase p map v = some b → map v = some b := fun v b hv => by
      rw [KeyedWrites.erase] at hv
      split at hv
      · cases hv
      · exact hv
    exact ⟨fun v b hv => h.whole v b (hsome v b hv),fun v b hv => h.registered v b (hsome v b hv)⟩
  obtain ⟨call,delivery⟩ := c
  cases call with
  | write rows blockSize hpos =>
    have hmap : map.step (StoreCall.write rows blockSize hpos).operation = _ := map_step_write hvalid
    have hwritten : ∀ v b, KeyedWrites.last (writesOf rows) v = some b →
        1000 ∣ v.timestamp ∧ reg.registered v.column = true := fun v b hv => by
      obtain ⟨w,hw,rfl⟩ := KeyedWrites.isSome_last.mp (Option.isSome_of_eq_some hv)
      obtain ⟨x,hx,rfl⟩ := List.mem_map.mp hw
      obtain ⟨m,hm,hx⟩ := List.mem_flatMap.mp hx
      obtain ⟨e,he,rfl⟩ := List.mem_map.mp hx
      refine ⟨?_,m.registered e.1 (List.mem_map.mpr ⟨e,he,rfl⟩)⟩
      change 1000 ∣ Vast.getVastCompatibleTimeStamp _ false
      rw [getVastCompatibleTimeStamp_false]
      exact Dvd.intro_left _ rfl
    rw [hmap]
    constructor <;> intro v b hv <;> rw [KeyedWrites.write_eq] at hv <;>
      rcases Option.or_eq_some_iff.mp hv with hv | ⟨-,hv⟩
    · exact (hwritten v b hv).1
    · exact h.whole v b hv
    · exact (hwritten v b hv).2
    · exact h.registered v b hv
  | deleteCells d =>
    have hmap : map.step (StoreCall.deleteCells d).operation = _ :=
      map_step_delete_eq hvalid (by simp [StoreCall.operation])
    rw [hmap]
    exact hkept _
  | deleteRow k =>
    have hmap : map.step (StoreCall.deleteRow k).operation = _ :=
      map_step_delete_eq hvalid (by simp [StoreCall.operation])
    rw [hmap]
    exact hkept _

def operationsOf (calls : List (StoreCall reg × Delivery)) : List (Vast.Operation reg) :=
  calls.map fun c => c.1.operation

def mapOf (calls : List (StoreCall reg × Delivery)) : WideColumn := WideColumn.run (operationsOf calls)

/-- All along a run of portable calls the tables of BigTable and HBase hold the values of the map. -/
theorem represents_run (t : HBase.TableId) (hone : takes 1 = true)
    {calls : List (StoreCall reg × Delivery)} (hcalls : ∀ c ∈ calls, StoreCall.Portable takes c) :
    BigTable.Represents (BigTable.storeRun takes calls) (mapOf calls) ∧
      HBase.Represents (HBase.storeRun t calls) (mapOf calls) ∧ OnGrid reg (mapOf calls) := by
  induction calls using List.reverseRecOn with
  | nil =>
    refine ⟨fun k x => ?_,rfl,⟨fun v b hv => ?_,fun v b hv => ?_⟩⟩
    · simp [BigTable.storeRun,BigTable.Row.empty,mapOf,operationsOf,WideColumn.run]
    · cases hv
    · cases hv
  | append_singleton calls c ih =>
    obtain ⟨hbig,hhbase,hgrid⟩ := ih fun c hc => hcalls c (List.mem_append_left _ hc)
    have hc := hcalls c (List.mem_append_right _ List.mem_cons_self)
    have hmap : mapOf (calls ++ [c]) = (mapOf calls).step c.1.operation := by
      rw [mapOf,operationsOf,List.map_append]
      exact Vast.map_run_append _ _
    rw [hmap,BigTable.storeRun,HBase.storeRun,List.foldl_append,List.foldl_append]
    exact ⟨BigTable.represents_step hone hbig hgrid hc,HBase.represents_step t hhbase hc,
      onGrid_step hgrid hc⟩

end Steps

section Reads

variable {V : Type} {reg : Registry V} {map : WideColumn} {store content : List StoredCell}

/-- The content, in milliseconds, has exactly the values of the map, each column newest first. -/
def Lists (map : WideColumn) (content : List StoredCell) : Prop :=
  NewestFirst content ∧ ∀ x, x ∈ content ↔ map (versionOf (atMicros x)) = some x.value

theorem Lists.registered (h : Lists map content) (hgrid : OnGrid reg map) :
    ∀ x ∈ content, reg.registered x.column = true := fun x hx =>
  hgrid.registered _ _ ((h.2 x).mp hx)

theorem HBase.Delivers.lists {m : HBase.Versioned} (h : HBase.Delivers m store)
    (hm : HBase.Represents m map) : Lists map store := by
  obtain rfl : m = map ∘ HBase.CellVersion.micros := hm
  exact h

theorem BigTable.Delivers.exists_lists {t : BigTable.Table} (h : BigTable.Delivers t store)
    (ht : BigTable.Represents t map) (hgrid : OnGrid reg map) :
    ∃ content, Lists map content ∧ store = inMicros content := by
  have hvalue : ∀ x, x ∈ store ↔ map (versionOf x) = some x.value := fun x =>
    (h.2 x).trans (ht x.rowKey (ofStored x))
  have hback : ∀ x ∈ store, atMicros (Vast.millis x) = x := fun x hx => by
    obtain ⟨ms,hms⟩ := hgrid.whole _ _ ((hvalue x).mp hx)
    obtain ⟨k,column,ts,value⟩ := x
    obtain rfl : ts = 1000*ms := hms
    simp [Vast.millis,atMicros]
  have hstore : store = inMicros (store.map Vast.millis) := by
    rw [inMicros,List.map_map]
    exact ((List.map_congr_left hback).trans (List.map_id store)).symm
  refine ⟨store.map Vast.millis,⟨?_,fun x => ?_⟩,hstore⟩
  · refine List.pairwise_map.mpr (h.1.imp_of_mem fun {x y} hx hy hxy hrow hcolumn => ?_)
    have hlt := hxy hrow hcolumn
    have hxt := congrArg StoredCell.timestamp (hback x hx)
    have hyt := congrArg StoredCell.timestamp (hback y hy)
    simp only [atMicros] at hxt hyt
    omega
  · have hx : map (versionOf (atMicros x)) = some x.value ↔ atMicros x ∈ store :=
      (hvalue (atMicros x)).symm
    rw [hx,List.mem_map]
    constructor
    · rintro ⟨y,hy,rfl⟩
      rwa [hback y hy]
    · exact fun hx => ⟨atMicros x,hx,Vast.millis_micros x⟩

theorem Lists.perm_of_represents {table : List StoredCell} (h : Lists map content)
    (hgrid : OnGrid reg map) (hdistinct : Vast.Distinct table) (htable : Vast.Represents table map) :
    table.Perm (inMicros content) := by
  have hvalue : ∀ x, x ∈ table ↔ map (versionOf x) = some x.value := fun x => by
    rw [htable]
    constructor
    · exact fun hx => ⟨x,hx,rfl,rfl⟩
    · rintro ⟨y,hy,hv,hb⟩
      obtain ⟨hk,hc,ht⟩ := Vast.Version.mk.inj hv
      obtain rfl : y = x := by
        cases x; cases y
        simp_all
      exact hy
  have hmicros : (inMicros content).Nodup := h.1.nodup.map atMicros_injective
  refine (List.perm_ext_iff_of_nodup (List.Nodup.of_map _ hdistinct) hmicros).mpr fun x => ?_
  rw [hvalue,inMicros,List.mem_map]
  constructor
  · intro hx
    obtain ⟨ms,hms⟩ := hgrid.whole _ _ hx
    obtain ⟨k,column,ts,value⟩ := x
    obtain rfl : ts = 1000*ms := hms
    exact ⟨⟨k,column,ms,value⟩,(h.2 _).mpr hx,rfl⟩
  · rintro ⟨y,hy,rfl⟩
    exact (h.2 y).mp hy

theorem Lists.pointLookup_eq {content' : List StoredCell} (h : Lists map content)
    (h' : Lists map content') (columns : Columns) (w : Window) :
    pointLookup reg content columns w = pointLookup reg content' columns w :=
  funext fun _ => h.1.pointLookup_congr h'.1 fun x => by rw [h.2,h'.2]

def Finitely (map : WideColumn) : Prop :=
  ∃ l : List StoredCell, ∀ x, map (versionOf (atMicros x)) = some x.value → x ∈ l

theorem Finitely.update (h : Finitely map) (v : Vast.Version) (b : Bytes) :
    Finitely (Function.update map v (some b)) := by
  obtain ⟨l,hl⟩ := h
  refine ⟨Vast.millis ⟨v.rowKey,v.column,v.timestamp,b⟩ :: l,fun x hx => ?_⟩
  by_cases hv : versionOf (atMicros x) = v
  · subst hv
    rw [Function.update_self,Option.some.injEq] at hx
    subst hx
    exact List.mem_cons.mpr (Or.inl (Vast.millis_micros x).symm)
  · rw [Function.update_of_ne hv] at hx
    exact List.mem_cons_of_mem _ (hl x hx)

theorem Finitely.write (h : Finitely map) (ws : List (Vast.Version × Bytes)) :
    Finitely (KeyedWrites.write ws map) := by
  induction ws generalizing map with
  | nil => exact h
  | cons w ws ih => exact ih (h.update w.1 w.2)

theorem Finitely.step (h : Finitely map) (op : Vast.Operation reg) : Finitely (map.step op) := by
  have hkept : ∀ {deletes : Vast.Version → Prop} [DecidablePred deletes],
      Finitely fun v => if deletes v then none else map v := by
    obtain ⟨l,hl⟩ := h
    intro deletes _
    refine ⟨l,fun x hx => hl x ?_⟩
    beta_reduce at hx
    split at hx
    · cases hx
    · exact hx
  cases op with
  | write rows blockSize hpos =>
    rw [WideColumn.step]
    split
    · rw [foldl_write_eq]
      exact h.write _
    · exact h
  | deleteCells | deleteRow =>
    rw [Vast.map_step_delete map (by simp)]
    split
    · exact hkept
    · exact h

theorem finitely_run (ops : List (Vast.Operation reg)) : Finitely (WideColumn.run ops) := by
  induction ops using List.reverseRecOn with
  | nil => exact ⟨[],fun x hx => by cases hx⟩
  | append_singleton ops op ih =>
    rw [Vast.map_run_append]
    exact ih.step op

theorem Finitely.exists_lists (h : Finitely map) : ∃ content, Lists map content := by
  obtain ⟨l,hl⟩ := h
  have hmem : ∀ x, x ∈ Vast.sortByTime
      (l.dedup.filter fun x => map (versionOf (atMicros x)) = some x.value) ↔
        map (versionOf (atMicros x)) = some x.value := fun x => by
    rw [Vast.sortByTime,List.mem_insertionSort,List.mem_filter,List.mem_dedup,decide_eq_true_eq]
    exact and_iff_right_of_imp (hl x)
  refine ⟨_,?_,hmem⟩
  have hsorted : (Vast.sortByTime (l.dedup.filter fun x =>
      map (versionOf (atMicros x)) = some x.value)).Pairwise fun x y => y.timestamp ≤ x.timestamp := by
    have : Std.Total fun x y : StoredCell => y.timestamp ≤ x.timestamp := ⟨fun _ _ => le_total _ _⟩
    have : IsTrans StoredCell fun x y => y.timestamp ≤ x.timestamp :=
      ⟨fun _ _ _ hxy hyz => le_trans hyz hxy⟩
    exact List.pairwise_insertionSort _ _
  have hnodup : (Vast.sortByTime (l.dedup.filter fun x =>
      map (versionOf (atMicros x)) = some x.value)).Nodup :=
    (List.perm_insertionSort _ _).nodup_iff.mpr ((List.nodup_dedup l).filter _)
  refine (hsorted.and hnodup).imp_of_mem fun {x y} hx hy hxy hrow hcolumn => ?_
  refine lt_of_le_of_ne hxy.1 fun ht => hxy.2 ?_
  have hvx := (hmem x).mp hx
  have hvy := (hmem y).mp hy
  obtain ⟨k,c,ts,b⟩ := x
  obtain ⟨k',c',ts',b'⟩ := y
  obtain ⟨rfl,rfl,rfl⟩ : k = k' ∧ c = c' ∧ ts' = ts := ⟨hrow,hcolumn,ht⟩
  obtain rfl : b = b' := Option.some.inj (hvx.symm.trans hvy)
  rfl

end Reads

theorem exists_delivers {V : Type} {reg : Registry V} {takes : ℕ → Bool} (hone : takes 1 = true)
    (t : HBase.TableId) {calls : List (StoreCall reg × Delivery)}
    (hcalls : ∀ c ∈ calls, StoreCall.Portable takes c) :
    ∃ content, BigTable.Delivers (BigTable.storeRun takes calls) (inMicros content) ∧
      HBase.Delivers (HBase.storeRun t calls) content := by
  obtain ⟨hbig,hhbase,hgrid⟩ := represents_run t hone hcalls
  obtain ⟨content,hlists⟩ := (finitely_run (operationsOf calls)).exists_lists
  refine ⟨content,⟨?_,fun x => ?_⟩,?_⟩
  · refine List.pairwise_map.mpr (hlists.1.imp fun hxy hrow hcolumn => ?_)
    have hlt := hxy hrow hcolumn
    change 1000*_ < 1000*_
    omega
  · rw [hbig x.rowKey (BigTable.ofStored x),inMicros,List.mem_map]
    constructor
    · rintro ⟨y,hy,rfl⟩
      exact (hlists.2 y).mp hy
    · intro hx
      obtain ⟨ms,hms⟩ := hgrid.whole _ _ hx
      obtain ⟨k,column,ts,value⟩ := x
      obtain rfl : ts = 1000*ms := hms
      exact ⟨⟨k,column,ms,value⟩,(hlists.2 _).mpr hx,rfl⟩
  · refine ⟨hlists.1,fun x => (hlists.2 x).trans ?_⟩
    rw [hhbase]
    rfl

/-- After the same run of portable calls the reads of BigTable and HBase return the same values, those
of the map, and so do the reads of VAST if the run never writes a version again. -/
theorem run_reads_agree {V : Type} {reg : Registry V} {takes : ℕ → Bool} (hone : takes 1 = true)
    (t : HBase.TableId) {calls : List (StoreCall reg × Delivery)}
    (hcalls : ∀ c ∈ calls, StoreCall.Portable takes c) {store store' : List StoredCell}
    (hstore : BigTable.Delivers (BigTable.storeRun takes calls) store)
    (hstore' : HBase.Delivers (HBase.storeRun t calls) store') {p : HBase.Paging}
    (hp : p.KeepsRows store') (a : Vast.Arrangement) {maxRowKeyCount : ℕ} (hmax : 0 < maxRowKeyCount)
    {rows : RowSelection} {columns : Columns} (hread : PortableRead rows columns) (w : Window) :
    ∃ content, Lists (mapOf calls) content ∧
      (w.EndSet → ReturnsSelected (BigTable.readByteRows reg maxRowKeyCount store rows columns w none)
        rows (pointLookup reg content columns w)) ∧
      ReturnsSelected (HBase.readByteRows reg p store' columns w maxRowKeyCount rows none) rows
        (pointLookup reg content columns w) ∧
      ((∀ pre op, pre ++ [op] <+: operationsOf calls → op.Fresh (Vast.run pre)) →
        ReturnsSelected (Vast.readByteRows reg a (Vast.run (operationsOf calls)) maxRowKeyCount rows
          columns w none) rows (pointLookup reg content columns w)) := by
  obtain ⟨hbig,hhbase,hgrid⟩ := represents_run t hone hcalls
  obtain ⟨content,hlists,rfl⟩ := hstore.exists_lists hbig hgrid
  have hlists' := hstore'.lists hhbase
  have hreg := hlists.registered hgrid
  refine ⟨content,hlists,fun hw => ?_,?_,fun hfresh => ?_⟩
  · exact Service.readByteRows_lookup (b := .bigTable) hlists.1 hreg rfl hmax hread fun _ => hw
  · rw [hlists.pointLookup_eq hlists' columns w]
    exact Service.readByteRows_lookup (b := .hbase p) hlists'.1 (hlists'.registered hgrid) ⟨rfl,hp⟩
      hmax hread fun hb => by cases hb
  · obtain ⟨hdistinct,htable⟩ := Vast.represents_run hfresh
    exact Service.readByteRows_lookup (b := .vast a) hlists.1 hreg
      (hlists.perm_of_represents hgrid hdistinct htable) hmax hread fun hb => by cases hb

section Example

/-- Batches in their order; the response to the first request of every block gets lost. -/
def lostOnce : Delivery where
  entries := ⟨List.reverse,List.reverse_perm⟩
  deletions := ⟨id,List.Perm.refl⟩
  attempts _ a := if a = 0 then .unanswered else .answered
  clock _ _ := 0

def twoRowsThenOne : List (StoreCall Registry.parentOnly × Delivery) :=
  [(.write [⟨encodeUtf8 ['k'],Dict.empty.set Hierarchy.parent [1],some (1000*5),0,
        fun _ hc => decide_eq_true hc⟩,
      ⟨encodeUtf8 ['l'],Dict.empty.set Hierarchy.parent [2],some (1000*7),0,
        fun _ hc => decide_eq_true hc⟩] 1 one_pos,lostOnce),
    (.deleteRow (encodeUtf8 ['l']),lostOnce)]

theorem twoRowsThenOne_portable :
    ∀ c ∈ twoRowsThenOne, StoreCall.Portable (fun n => decide (0 < n)) c := by
  intro c hc
  rcases List.mem_cons.mp hc with rfl | hc
  · refine ⟨fun m hm => ?_,by decide,fun j _ => ⟨1,by decide,rfl⟩⟩
    rcases List.mem_cons.mp hm with rfl | hm
    · exact ⟨isValidUTF8_encodeUtf8 ['k'],rfl,5,rfl⟩
    · obtain rfl := List.mem_singleton.mp hm
      exact ⟨isValidUTF8_encodeUtf8 ['l'],rfl,7,rfl⟩
  · obtain rfl := List.mem_singleton.mp hc
    exact ⟨isValidUTF8_encodeUtf8 ['l'],by decide⟩

/-- The row that is left is what every backend returns of the two. -/
theorem run_reads_agree_twoRows : ∃ store store' content,
    BigTable.Delivers (BigTable.storeRun (fun n => decide (0 < n)) twoRowsThenOne) store ∧
    HBase.Delivers (HBase.storeRun HBase.sampleTable twoRowsThenOne) store' ∧
    Lists (mapOf twoRowsThenOne) content ∧
    ReturnsSelected (BigTable.readByteRows .parentOnly 1 store
      (.ofKeys [encodeUtf8 ['k'],encodeUtf8 ['l']]) .all .unbounded none)
      (.ofKeys [encodeUtf8 ['k'],encodeUtf8 ['l']])
      (pointLookup .parentOnly content .all .unbounded) ∧
    ReturnsSelected (HBase.readByteRows .parentOnly .whole store' .all .unbounded 1
      (.ofKeys [encodeUtf8 ['k'],encodeUtf8 ['l']]) none)
      (.ofKeys [encodeUtf8 ['k'],encodeUtf8 ['l']])
      (pointLookup .parentOnly content .all .unbounded) ∧
    ReturnsSelected (Vast.readByteRows .parentOnly .storage
      (Vast.run (operationsOf twoRowsThenOne)) 1 (.ofKeys [encodeUtf8 ['k'],encodeUtf8 ['l']]) .all
        .unbounded none) (.ofKeys [encodeUtf8 ['k'],encodeUtf8 ['l']])
      (pointLookup .parentOnly content .all .unbounded) := by
  obtain ⟨stored,hbig,hhbase⟩ := exists_delivers (by decide) HBase.sampleTable twoRowsThenOne_portable
  have hread : PortableRead (.ofKeys [encodeUtf8 ['k'],encodeUtf8 ['l']]) .all :=
    ⟨Or.inl (by simp [RowSelection.ofKeys]),
      by simp [Vast.Encodable,RowSelection.ofKeys,isValidUTF8_encodeUtf8],
      by simp [RowSelection.ofKeys,encodeUtf8_injective.eq_iff],by simp,by simp [BigTable.Distinct]⟩
  obtain ⟨content,hlists,hreads⟩ := run_reads_agree (by decide) HBase.sampleTable
    twoRowsThenOne_portable hbig hhbase (HBase.Paging.whole_keepsRows _) .storage one_pos hread
    .unbounded
  exact ⟨_,_,content,hbig,hhbase,hlists,hreads.1 Window.unbounded_endSet,hreads.2.1,
    hreads.2.2 (Vast.fresh_of_take (by decide +kernel))⟩

end Example

end KvdbClient
