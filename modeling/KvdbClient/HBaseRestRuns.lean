import KvdbClient.BackendRuns
import KvdbClient.HBaseRestReads

/-! Runs of the client with its JSON: the server takes from every cell set the cells that were put
into it, so the tables are those of the client without, and so are the reads. -/
namespace KvdbClient
namespace HBase.Rest

open Wire RelatedDicts

section Columns

def specText (c : Column) : Text := colSpec c ((decodeUtf8 c.key).getD [])

theorem Named.decode_key {c : Column} (h : Named c) : ∃ key, decodeUtf8 c.key = some key ∧
    specText c = colSpec c key := by
  obtain ⟨-,key,hkey⟩ := h
  have hdecode : decodeUtf8 c.key = some key := by rw [hkey,decodeUtf8_encodeUtf8]
  exact ⟨key,hdecode,by rw [specText,hdecode]; rfl⟩

theorem Named.encode_spec {c : Column} (h : Named c) : encodeUtf8 (specText c) = columnBytes c := by
  obtain ⟨key,hdecode,hspec⟩ := h.decode_key
  rw [hspec,columnBytes_eq (encodeUtf8_of_decodeUtf8 hdecode).symm]

theorem named_of_imported {a : RegisteredAttribute} (ha : a ∈ importedAttributes) :
    Named a.toColumn := by
  refine ⟨AttributeArray.colon_notMem_of_imported ha,?_⟩
  have hsingle : ∀ s ∈ singleAttributes, s.key = encodeUtf8 (decodeAscii s.key) := by decide +kernel
  rcases List.mem_append.mp ha with hs | hitem
  · exact ⟨_,hsingle a hs⟩
  · obtain ⟨array,-,hitem⟩ := List.mem_flatMap.mp hitem
    obtain ⟨i,-,rfl⟩ := List.mem_map.mp hitem
    exact ⟨_,rfl⟩

theorem named_of_fromKey {constructed : List RegisteredAttribute}
    (hnamed : ∀ a ∈ constructed, Named a.toColumn) {c : Column} {a : RegisteredAttribute}
    (h : (Attributes.ofProcess constructed).fromKey c = .ok a) : Named c := by
  obtain ⟨hmem,rfl⟩ := Attributes.of_fromKey h
  exact hmem.elim named_of_imported (hnamed a)

end Columns

section Writes

variable {V : Type} {reg : Registry V}

def wireMutation (m : Vast.Mutation reg) : Wire.Mutation :=
  ⟨m.rowKey,m.values.entries.foldl (fun d e => d.set (specText e.1) (e.2,m.timeStamp)) .empty⟩

def plainMutation (m : Vast.Mutation reg) : HBase.Mutation :=
  HBase.mutateRow m.rowKey m.values m.timeStamp

theorem mutateRow_ok {m : Vast.Mutation reg} (h : ∀ c ∈ m.values.keys, Named c) :
    mutateRow m = .ok (wireMutation m) := by
  have hkey : ∀ e ∈ m.values.entries, Named e.1 := fun e he => h e.1 (List.mem_map_of_mem he)
  obtain ⟨x,hx,rfl⟩ := foldlM_rel (P := fun (x : Wire.Mutation) d => x = ⟨m.rowKey,d⟩)
    (g := fun d (e : Column × Bytes) => d.set (specText e.1) (e.2,m.timeStamp))
    (f := fun x e => x.setCell e.1.familyId e.1.key e.2 m.timeStamp)
    (S := fun e e' => e = e' ∧ Named e.1) (fun x d e e' hx he => by
      obtain ⟨rfl,hnamed⟩ := he
      obtain ⟨key,hdecode,hspec⟩ := hnamed.decode_key
      refine ⟨_,?_,rfl⟩
      rw [Wire.Mutation.setCell,hdecode,hx,hspec]
      rfl) (List.forall₂_same.mpr fun e he => ⟨rfl,hkey e he⟩) (s := ⟨m.rowKey,.empty⟩) rfl
  exact hx

theorem entries_wireMutation {m : Vast.Mutation reg} (h : ∀ c ∈ m.values.keys, Named c) :
    (wireMutation m).cells.entries = m.values.entries.map fun e => (specText e.1,e.2,m.timeStamp) := by
  have hnodup : ((m.values.entries.map fun e => (specText e.1,e.2,m.timeStamp)).map Prod.fst).Nodup := by
    rw [List.map_map]
    refine List.Nodup.map_on (fun e he e' he' heq => ?_) (List.Nodup.of_map _ m.values.nodup)
    have hcol := congrArg encodeUtf8 heq
    have hn := h e.1 (List.mem_map_of_mem he)
    have hn' := h e'.1 (List.mem_map_of_mem he')
    simp only [Function.comp_apply] at hcol
    rw [hn.encode_spec,hn'.encode_spec] at hcol
    exact List.inj_on_of_nodup_map m.values.nodup he he' (hn.columnBytes_injective hn' hcol)
  rw [← Dict.entries_foldl_set hnodup,List.foldl_map]
  rfl

theorem receiveCell_ok {c : Column} (h : Named c) {timeStamp : Option ℤ}
    (htime : ∀ t ∈ timeStamp, 0 ≤ t) (rowKey value : Bytes) :
    receiveCell rowKey (Wire.jsonCell (specText c) value timeStamp) =
      .ok ⟨rowKey,c,timeStamp.map datetimeToHbaseTs,value⟩ := by
  obtain ⟨key,htext,hsplit,hcolumn⟩ := h.split
  have hts : timeStamp.map toHbaseTs = timeStamp.map datetimeToHbaseTs := by
    cases timeStamp with
    | none => rfl
    | some t => exact congrArg some (Int.tdiv_eq_ediv_of_nonneg (htime t rfl))
  simp only [receiveCell,Wire.jsonCell,h.encode_spec,decodeValue_encodeValue,ok_bind,htext,hsplit,
    hcolumn,hts]
  rfl

variable {rows : List (Vast.Mutation reg)}

/-- Rows of named columns, with times from 1970 on. -/
def Sendable (rows : List (Vast.Mutation reg)) : Prop :=
  ∀ m ∈ rows, (∀ c ∈ m.values.keys, Named c) ∧ ∀ t ∈ m.timeStamp, 0 ≤ t

theorem receive_buildCellsetJson (h : Sendable rows) :
    receive (Wire.buildCellsetJson (rows.map wireMutation)) =
      .ok (HBase.buildCellsetJson (rows.map plainMutation)) := by
  have hrows : ((Wire.buildCellsetJson (rows.map wireMutation)).mapM fun row => do
      let rowKey ← decodeValue row.key
      row.cells.mapM (receiveCell rowKey)) = .ok (rows.map fun m =>
        m.values.entries.map fun e =>
          (⟨m.rowKey,e.1,m.timeStamp.map datetimeToHbaseTs,e.2⟩ : CellPut)) := by
    rw [Wire.buildCellsetJson,List.map_map,List.mapM_map]
    refine ExceptLists.mapM_ok fun m hm => ?_
    obtain ⟨hnamed,htime⟩ := h m hm
    simp only [Function.comp_apply,decodeValue_encodeValue,ok_bind,entries_wireMutation hnamed,
      List.map_map,List.mapM_map]
    refine ExceptLists.mapM_ok fun e he => ?_
    exact receiveCell_ok (hnamed e.1 (List.mem_map_of_mem he)) htime m.rowKey e.2
  rw [receive,hrows,ok_bind]
  refine congrArg Except.ok ?_
  rw [HBase.buildCellsetJson,List.flatMap_map,List.flatMap_def]
  refine congrArg List.flatten (List.map_congr_left fun m _ => ?_)
  simp [plainMutation,HBase.mutateRow,Dict.mapValues]

variable (attempts : ℕ → ℕ → Attempt) (clock : ℕ → ℕ → ℤ)

theorem writeBlocks_eq (blocks : List (List (Vast.Mutation reg))) (h : ∀ block ∈ blocks, Sendable block)
    (j : ℕ) (t : Versioned) :
    writeBlocks attempts clock (blocks.map (List.map wireMutation)) j t =
      HBase.writeBlocks attempts clock (blocks.map (List.map plainMutation)) j t := by
  induction blocks generalizing j t with
  | nil => rfl
  | cons block blocks ih =>
    rw [List.map_cons,List.map_cons,writeBlocks,HBase.writeBlocks,
      receive_buildCellsetJson (h block List.mem_cons_self)]
    dsimp only
    rcases putRowsWithRetry (attempts j) (clock j) (HBase.buildCellsetJson (block.map plainMutation)) 5 0 t
      with ⟨_ | _,t'⟩
    · rfl
    · exact ih (fun b hb => h b (List.mem_cons_of_mem _ hb)) (j+1) t'

theorem writeRows_eq (h : Sendable rows) {blockSize : ℕ} (hpos : 0 < blockSize) (t : Versioned) :
    writeRows attempts clock (rows.map wireMutation) blockSize t =
      HBase.writeRows attempts clock (rows.map plainMutation) blockSize t := by
  have hmap : ∀ {α : Type} (f : Vast.Mutation reg → α),
      chunked blockSize (rows.map f) = (chunked blockSize rows).map (List.map f) := fun f => by
    rw [chunked,List.length_map,chunks_map]
    rfl
  rw [writeRows,HBase.writeRows,hmap,hmap]
  refine writeBlocks_eq attempts clock _ (fun block hblock m hm => h m ?_) 0 t
  rw [← flatten_chunked hpos rows]
  exact List.mem_flatten.mpr ⟨block,hblock,hm⟩

end Writes

section Stored

def AllNamed (t : Versioned) : Prop := ∀ v b, t v = some b → Named v.column

variable {t : Versioned}

theorem AllNamed.applyCellset (h : AllNamed t) {body : List CellPut}
    (hbody : ∀ c ∈ body, Named c.column) (now : ℤ) : AllNamed (applyCellset body t now) := by
  intro v b hv
  rcases KeyedWrites.isSome_write.mp (Option.isSome_of_eq_some hv) with ⟨w,hw,rfl⟩ | hold
  · obtain ⟨c,hc,rfl⟩ := List.mem_map.mp hw
    exact hbody c hc
  · obtain ⟨b',hb'⟩ := Option.isSome_iff_exists.mp hold
    exact h v b' hb'

theorem AllNamed.putRowsWithRetry (h : AllNamed t) {body : List CellPut}
    (hbody : ∀ c ∈ body, Named c.column) (attempts : ℕ → Attempt) (clock : ℕ → ℤ) (n i : ℕ) :
    AllNamed (putRowsWithRetry attempts clock body n i t).2 := by
  induction n generalizing i t with
  | zero => exact h
  | succ n ih =>
    rw [HBase.putRowsWithRetry]
    cases attempts i with
    | lost => exact ih h (i+1)
    | unanswered => exact ih (h.applyCellset hbody _) (i+1)
    | answered => exact h.applyCellset hbody _

theorem AllNamed.writeBlocks (h : AllNamed t) (attempts : ℕ → ℕ → Attempt) (clock : ℕ → ℕ → ℤ)
    (blocks : List (List HBase.Mutation)) (hblocks : ∀ block ∈ blocks, ∀ m ∈ block,
      ∀ c ∈ m.cells.keys, Named c) (j : ℕ) :
    AllNamed (HBase.writeBlocks attempts clock blocks j t).2 := by
  induction blocks generalizing j t with
  | nil => exact h
  | cons block blocks ih =>
    have hbody : ∀ c ∈ HBase.buildCellsetJson block, Named c.column := by
      intro c hc
      obtain ⟨m,hm,hc⟩ := List.mem_flatMap.mp hc
      obtain ⟨e,he,rfl⟩ := List.mem_map.mp hc
      exact hblocks block List.mem_cons_self m hm e.1 (List.mem_map_of_mem he)
    have hput := h.putRowsWithRetry hbody (attempts j) (clock j) 5 0
    rw [HBase.writeBlocks]
    revert hput
    rcases HBase.putRowsWithRetry (attempts j) (clock j) (HBase.buildCellsetJson block) 5 0 t
      with ⟨_ | _,t'⟩
    · exact id
    · exact fun hput => ih hput (fun b hb => hblocks b (List.mem_cons_of_mem _ hb)) (j+1)

theorem AllNamed.applyDelete (h : AllNamed t) (table : TableId) (r : HttpRequest) :
    AllNamed (applyDelete table t r) := by
  intro v b hv
  rw [HBase.applyDelete] at hv
  split at hv
  · cases hv
  · exact h v b hv

end Stored

section Runs

variable {V : Type} {constructed : List RegisteredAttribute} {decode : RegisteredAttribute → Bytes → V}

def Since1970 {reg : Registry (Option V)} (c : StoreCall reg × Delivery) : Prop :=
  match c.1 with
  | .write rows _ _ => ∀ m ∈ rows, ∀ t ∈ m.timeStamp, 0 ≤ t
  | .deleteCells _ | .deleteRow _ => True

variable (hnamed : ∀ a ∈ constructed, Named a.toColumn)
include hnamed

theorem named_of_keys (m : Vast.Mutation ((Attributes.ofProcess constructed).registry decode)) :
    ∀ c ∈ m.values.keys, Named c := fun c hc => by
  obtain ⟨⟨a,ha⟩,-⟩ := Attributes.registered_registry_iff.mp (m.registered c hc)
  exact named_of_fromKey hnamed ha

/-- One call leaves the same table with and without JSON. -/
theorem storeStep_eq (table : TableId) (t : Versioned)
    {c : StoreCall ((Attributes.ofProcess constructed).registry decode) × Delivery} (hc : Since1970 c) :
    storeStep table t c = HBase.storeStep table t c ∧
      (AllNamed t → AllNamed (HBase.storeStep table t c)) := by
  obtain ⟨call,delivery⟩ := c
  cases call with
  | write rows blockSize hpos =>
    have hsend : Sendable rows := fun m hm => ⟨named_of_keys hnamed m,hc m hm⟩
    constructor
    · simp only [storeStep,HBase.storeStep,
        ExceptLists.mapM_ok fun m hm => mutateRow_ok (hsend m hm).1]
      exact congrArg Prod.snd (writeRows_eq delivery.attempts delivery.clock hsend hpos t)
    · intro h
      refine h.writeBlocks delivery.attempts delivery.clock _ (fun block hblock m hm c hcol => ?_) 0
      have hrow := List.mem_flatten.mpr ⟨block,hblock,hm⟩
      rw [flatten_chunked hpos] at hrow
      obtain ⟨r,-,rfl⟩ := List.mem_map.mp hrow
      exact named_of_keys hnamed r c (Dict.mem_keys_mapValues.mp hcol)
  | deleteCells d =>
    refine ⟨rfl,fun h => ?_⟩
    simp only [HBase.storeStep]
    generalize deleteRequests table d = requests
    induction requests generalizing t with
    | nil => exact h
    | cons r requests ih => exact ih _ (h.applyDelete table r)
  | deleteRow k => exact ⟨rfl,fun h => h.applyDelete table _⟩

theorem storeRun_eq (table : TableId)
    {calls : List (StoreCall ((Attributes.ofProcess constructed).registry decode) × Delivery)}
    (hcalls : ∀ c ∈ calls, Since1970 c) :
    storeRun table calls = HBase.storeRun table calls ∧ AllNamed (HBase.storeRun table calls) := by
  induction calls using List.reverseRecOn with
  | nil => exact ⟨rfl,fun v b hv => by cases hv⟩
  | append_singleton calls c ih =>
    obtain ⟨heq,hall⟩ := ih fun x hx => hcalls x (List.mem_append_left _ hx)
    obtain ⟨hstep,hkeep⟩ := storeStep_eq hnamed table (HBase.storeRun table calls)
      (hcalls c (List.mem_append_right _ List.mem_cons_self))
    rw [storeRun,HBase.storeRun,List.foldl_append,List.foldl_append,← storeRun,← HBase.storeRun,heq]
    exact ⟨hstep,hkeep hall⟩

/-- The client with its JSON refines the client without. After every run of writes and deletes, with
requests and responses lost anywhere, the tables are the same; and of what the server delivers of the
table, however it divides it into responses, all reads return the same rows. -/
theorem rest_refines (table : TableId)
    {calls : List (StoreCall ((Attributes.ofProcess constructed).registry decode) × Delivery)}
    (hcalls : ∀ c ∈ calls, Since1970 c) :
    storeRun table calls = HBase.storeRun table calls ∧
    ∀ store, HBase.Delivers (HBase.storeRun table calls) store → ∀ p : Paging,
      (∀ columns : Attrs, (∀ a ∈ columns.listed, Registered (.ofProcess constructed) a) →
        ∀ w maxRowKeyCount rows userId,
          SameReads (readByteRows (.ofProcess constructed) p store decode columns w maxRowKeyCount rows
              userId)
            (HBase.readByteRows ((Attributes.ofProcess constructed).registry decode) p store
              columns.toColumns w maxRowKeyCount rows userId)) ∧
      ∃ d d', readAllRows p store = .ok d ∧ HBase.readAllRows p store = .ok d' ∧
        Related Eq SameFamilies d d' := by
  obtain ⟨heq,hall⟩ := storeRun_eq hnamed table hcalls
  refine ⟨heq,fun store hstore p => ?_⟩
  have hcolumns : ∀ c ∈ store, Named c.column := fun c hc => hall _ _ ((hstore.2 c).mp hc)
  refine ⟨fun columns hcols w maxRowKeyCount rows userId => ?_,readAllRows_rel p hcolumns⟩
  exact readByteRows_rel (consistent_ofProcess constructed) hcolumns
    (fun a ha => ⟨hcols a ha,named_of_fromKey hnamed (hcols a ha)⟩) p w maxRowKeyCount rows userId

omit hnamed

def lockValues : Dict Column Bytes := Dict.empty.set lockAttribute.toColumn [1]

theorem lockValues_registered : ∀ c ∈ lockValues.keys,
    ((Attributes.ofProcess []).registry fun _ b => b).registered c = true := by
  intro c hc
  obtain rfl := List.mem_singleton.mp hc
  exact Attributes.registered_registry_iff.mpr
    ⟨⟨lockAttribute,registered_of_imported (by decide)⟩,by decide +kernel⟩

/-- A lock is written in one request, whose response is lost the first time. -/
def lockStored : List (StoreCall ((Attributes.ofProcess []).registry fun _ b => b) × Delivery) :=
  [(.write [⟨[107],lockValues,some 5500,0,lockValues_registered⟩] 1 Nat.one_pos,lostOnce)]

theorem lockStored_since1970 : ∀ c ∈ lockStored, Since1970 c := by
  intro c hc
  obtain rfl := List.mem_singleton.mp hc
  intro m hm t ht
  obtain rfl := List.mem_singleton.mp hm
  obtain rfl := Option.some.inj ht
  decide

/-- The server takes the cell twice, as one version. -/
theorem storeRun_lockStored : HBase.storeRun sampleTable lockStored = fun v =>
    if v = ⟨[107],lockAttribute.toColumn,5⟩ then some [1] else none := by
  have htwice : HBase.storeRun sampleTable lockStored = Function.update (Function.update
    (fun _ => none : Versioned) ⟨[107],lockAttribute.toColumn,5⟩ (some [1]))
      ⟨[107],lockAttribute.toColumn,5⟩ (some [1]) := rfl
  rw [htwice,Function.update_idem]
  funext v
  rw [Function.update_apply]

theorem delivers_lockStored : HBase.Delivers (HBase.storeRun sampleTable lockStored)
    [⟨[107],lockAttribute.toColumn,5,[1]⟩] := by
  refine ⟨List.pairwise_singleton _ _,fun x => ?_⟩
  obtain ⟨k,c,ts,b⟩ := x
  rw [storeRun_lockStored]
  simp [eq_comm]
  tauto

theorem rest_refines_lock : storeRun sampleTable lockStored = HBase.storeRun sampleTable lockStored ∧
    ∃ store, store ≠ [] ∧ HBase.Delivers (HBase.storeRun sampleTable lockStored) store ∧
      SameReads (readByteRows (.ofProcess []) .whole store (fun _ b => b) (.one lockAttribute) .unbounded 1
          (.ofKeys [[107]]) none)
        (HBase.readByteRows ((Attributes.ofProcess []).registry fun _ b => b) .whole store
          (.one lockAttribute.toColumn) .unbounded 1 (.ofKeys [[107]]) none) ∧
      ∃ d d', readAllRows .whole store = .ok d ∧ HBase.readAllRows .whole store = .ok d' ∧
        Related Eq SameFamilies d d' := by
  obtain ⟨hrun,hreads⟩ := rest_refines (fun a ha => by cases ha) sampleTable lockStored_since1970
  have hread := hreads _ delivers_lockStored .whole
  refine ⟨hrun,_,by simp,delivers_lockStored,hread.1 (.one lockAttribute) (fun a ha => ?_) _ _ _ _,
    hread.2⟩
  obtain rfl := List.mem_singleton.mp ha
  exact registered_of_imported (by decide)

end Runs

end HBase.Rest
end KvdbClient
