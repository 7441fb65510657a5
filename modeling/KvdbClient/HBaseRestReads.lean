import KvdbClient.HBaseRest

/-! Reads through JSON return what the reads of the cells themselves do: the scanner delivers the same
cells, and its responses are parsed to the same rows. -/
namespace KvdbClient
namespace HBase.Rest

open Wire RelatedDicts
open Relator (BiUnique)

/-- A column of a family without a colon, with a key of text. -/
def Named (c : Column) : Prop := ':' ∉ c.familyId ∧ ∃ key, c.key = encodeUtf8 key

theorem columnBytes_eq {c : Column} {key : Text} (hkey : c.key = encodeUtf8 key) :
    columnBytes c = encodeUtf8 (colSpec c key) := by
  simp [columnBytes,hkey,colSpec,encodeUtf8]

theorem Named.split {c : Column} (h : Named c) : ∃ key,
    decodeText (columnBytes c) = .ok (colSpec c key) ∧
    splitSpec (colSpec c key) = .ok (c.familyId,key) ∧ (⟨c.familyId,encodeUtf8 key⟩ : Column) = c := by
  obtain ⟨hfamily,key,hkey⟩ := h
  refine ⟨key,?_,splitSpec_colSpec hfamily key,congrArg (Column.mk _) hkey.symm⟩
  rw [columnBytes_eq hkey,decodeText_encodeUtf8]

theorem Named.decodable {c : Column} (h : Named c) : c.Decodable :=
  let ⟨_,hkey⟩ := h.2
  Column.decodable_of_key hkey

theorem Named.columnBytes_injective {c c' : Column} (h : Named c) (h' : Named c')
    (heq : columnBytes c = columnBytes c') : c = c' := by
  obtain ⟨key,htext,hsplit,hc⟩ := h.split
  obtain ⟨key',htext',hsplit',hc'⟩ := h'.split
  rw [heq,htext'] at htext
  rw [← Except.ok.inj htext,hsplit'] at hsplit
  obtain ⟨hfamily,rfl⟩ := Prod.mk.inj (Except.ok.inj hsplit)
  rw [← hc,← hc',hfamily]

section Parsing

variable {V : Type} {attributes : Attributes} {decode : RegisteredAttribute → Bytes → V}

def Found (attributes : Attributes) (a : RegisteredAttribute) (c : Column) : Prop :=
  attributes.fromKey c = .ok a ∧ a.toColumn = c

theorem found_biUnique : BiUnique (Found attributes) :=
  ⟨fun _ _ _ h₁ h₂ => Except.ok.inj (h₁.1.symm.trans h₂.1),fun _ _ _ h₁ h₂ => h₁.2.symm.trans h₂.2⟩

def Consistent (attributes : Attributes) : Prop :=
  ∀ c a, attributes.fromKey c = .ok a → a.toColumn = c

theorem consistent_ofProcess (constructed : List RegisteredAttribute) :
    Consistent (.ofProcess constructed) := fun _ _ h => (Attributes.of_fromKey h).2

def wireCell (x : Cell Bytes) : WireCell := ⟨x.value,some x.timestamp⟩

def SameColumns (attributes : Attributes) :
    Dict RegisteredAttribute (List WireCell) → Dict Column (List (Cell Bytes)) → Prop :=
  Related (Found attributes) (List.Forall₂ fun x y => x = wireCell y)

def SameRow (attributes : Attributes) : RowCells → RowData Bytes → Prop
  | .columns d, .columns d' => SameColumns attributes d d'
  | .single l, .cells l' => List.Forall₂ (fun x y => x = wireCell y) l l'
  | _, _ => False

def addCell (reg : Registry (Option V)) (d : Dict Column (List (Cell Bytes))) (c : StoredCell) :
    Dict Column (List (Cell Bytes)) :=
  if reg.registered c.column then d.push c.column ⟨c.value,hbaseTsToDatetime c.timestamp⟩ else d

theorem parseRow_eq (reg : Registry (Option V)) (single : Bool) (cells : List StoredCell) :
    HBase.parseRow reg single cells =
      match single, (cells.foldl (addCell reg) .empty).entries with
      | true, e :: _ => .cells e.2
      | _, _ => .columns (cells.foldl (addCell reg) .empty) := by
  have hgroup : cells.foldl (addCell reg) .empty = _ := Dict.foldl_push StoredCell.column
    (fun c => (⟨c.value,hbaseTsToDatetime c.timestamp⟩ : Cell Bytes)) (fun c => reg.registered c.column)
    cells
  rw [hgroup]
  rfl

theorem parseCell_rel (hcons : Consistent attributes) {c : StoredCell} (hc : Named c.column)
    {d : Dict RegisteredAttribute (List WireCell)} {d' : Dict Column (List (Cell Bytes))}
    (h : SameColumns attributes d d') :
    ∃ r, Wire.parseCell attributes d (jsonOf c) = .ok r ∧
      SameColumns attributes r (addCell (attributes.registry decode) d' c) := by
  obtain ⟨key,htext,hsplit,hcolumn⟩ := hc.split
  simp only [Wire.parseCell,jsonOf,decodeValue_encodeValue,ok_bind,htext,hsplit,hcolumn]
  cases hfind : attributes.fromKey c.column with
  | error e =>
    refine ⟨d,rfl,?_⟩
    rwa [addCell,if_neg]
    rw [Attributes.registered_registry_iff]
    rintro ⟨⟨a,ha⟩,-⟩
    cases hfind.symm.trans ha
  | ok a =>
    refine ⟨d.push a (wireCell ⟨c.value,hbaseTsToDatetime c.timestamp⟩),rfl,?_⟩
    rw [addCell,if_pos (Attributes.registered_registry_iff.mpr
      ⟨⟨a,hfind⟩,hc.decodable⟩)]
    exact h.push found_biUnique ⟨hfind,hcons _ _ hfind⟩ rfl

theorem parseRow_rel (hcons : Consistent attributes) {cells : List StoredCell}
    (hnamed : ∀ c ∈ cells, Named c.column) (single : Bool) (key : Text) :
    ∃ r, Wire.parseRow attributes single ⟨key,cells.map jsonOf⟩ = .ok r ∧
      SameRow attributes r (HBase.parseRow (attributes.registry decode) single cells) := by
  have hcells : List.Forall₂ (fun x c => x = jsonOf c ∧ Named c.column) (cells.map jsonOf) cells :=
    List.forall₂_map_left_iff.mpr (List.forall₂_same.mpr fun c hc => ⟨rfl,hnamed c hc⟩)
  obtain ⟨d,hd,hrel⟩ := foldlM_rel (P := SameColumns attributes)
    (g := addCell (attributes.registry decode)) (fun s t x c hs hx => hx.1 ▸ parseCell_rel hcons hx.2 hs)
    hcells related_empty
  rw [Wire.parseRow,hd,ok_bind,parseRow_eq]
  revert hrel
  generalize cells.foldl (addCell (attributes.registry decode)) .empty = d'
  intro hrel
  obtain ⟨es,hes⟩ := d
  obtain ⟨es',hes'⟩ := d'
  cases hrel with
  | nil => cases single <;> exact ⟨_,rfl,List.Forall₂.nil⟩
  | cons he hrest =>
    cases single with
    | false => exact ⟨_,rfl,List.Forall₂.cons he hrest⟩
    | true => exact ⟨_,rfl,he.2⟩

/-- A row of a response, beside the entry that the abstract client has of it. -/
def ParsesTo (attributes : Attributes) (single : Bool) (row : JsonRow) (e : Bytes × RowData Bytes) :
    Prop :=
  decodeValue row.key = .ok e.1 ∧
    ∃ r, Wire.parseRow attributes single row = .ok r ∧ SameRow attributes r e.2

theorem mem_of_mem_group {page : List StoredCell} {e : Bytes × List StoredCell}
    (he : e ∈ (Dict.group StoredCell.rowKey page).entries) {c : StoredCell} (hc : c ∈ e.2) : c ∈ page := by
  have hget := Dict.get?_eq_some.mpr he
  rw [Dict.get?_group] at hget
  split at hget
  · cases hget
  · rw [← Option.some.inj hget] at hc
    exact List.mem_of_mem_filter hc

variable (decode) in
theorem parseCellResponse_rel (hcons : Consistent attributes) {page : List StoredCell}
    (hnamed : ∀ c ∈ page, Named c.column) (single : Bool) :
    ∃ d, Wire.parseCellResponse attributes single (rowsToCellset page) = .ok d ∧
      Related Eq (SameRow attributes) d (PageMerge.single StoredCell.rowKey
        (HBase.parseRow (attributes.registry decode) single) page) := by
  have hrows : List.Forall₂ (ParsesTo attributes single) (rowsToCellset page)
      (PageMerge.single StoredCell.rowKey
        (HBase.parseRow (attributes.registry decode) single) page).entries := by
    refine List.forall₂_map_left_iff.mpr (List.forall₂_map_right_iff.mpr ?_)
    refine List.forall₂_same.mpr fun e he => ⟨decodeValue_encodeValue e.1,?_⟩
    exact parseRow_rel hcons (fun c hc => hnamed c (mem_of_mem_group he hc)) single _
  obtain ⟨d,hd,hrel⟩ := foldlM_rel (P := Related Eq (SameRow attributes))
    (g := fun d e => d.set e.1 e.2) (f := fun result row => do
      let rowKey ← decodeValue row.key
      let cells ← Wire.parseRow attributes single row
      return result.set rowKey cells) (fun s t row e hs hrow => by
        obtain ⟨hkey,r,hr,hsame⟩ := hrow
        exact ⟨s.set e.1 r,by rw [hkey,ok_bind,hr]; rfl,hs.set biUnique_eq rfl hsame⟩)
    hrows related_empty
  refine ⟨d,hd,?_⟩
  rwa [Dict.ext_entries (Dict.entries_foldl_set (Dict.nodup _))] at hrel

end Parsing

section Fetching

variable {store : List StoredCell} {colSpecs : List Text} {cols : List Column}

def NamesColumns (colSpecs : List Text) (cols : List Column) : Prop :=
  colSpecs.map encodeUtf8 = cols.map columnBytes ∧ ∀ c ∈ cols, Named c

theorem NamesColumns.admits_iff (h : NamesColumns colSpecs cols) {c : Column} (hc : Named c) :
    (colSpecs = [] ∨ columnBytes c ∈ colSpecs.map encodeUtf8) ↔ cols = [] ∨ c ∈ cols := by
  refine or_congr ?_ ?_
  · rw [← List.map_eq_nil_iff (f := encodeUtf8),h.1,List.map_eq_nil_iff]
  · rw [h.1]
    refine ⟨fun hmem => ?_,fun hmem => List.mem_map_of_mem hmem⟩
    obtain ⟨c',hc',heq⟩ := List.mem_map.mp hmem
    rwa [← (h.2 c' hc').columnBytes_injective hc heq]

theorem toHbaseTs_compatible (t : ℤ) (roundUp : Bool) :
    toHbaseTs (getHbaseCompatibleTimeStamp t roundUp) =
      datetimeToHbaseTs (getHbaseCompatibleTimeStamp t roundUp) := by
  have hdvd : (1000 : ℤ) ∣ getHbaseCompatibleTimeStamp t roundUp := by
    cases roundUp <;> simp only [getHbaseCompatibleTimeStamp] <;> split <;> simp <;> omega
  exact Int.tdiv_eq_ediv_of_dvd hdvd

/-- The scanner of the body delivers what the abstract scanner does. -/
theorem createScanner_eq {columns : Columns} (h : NamesColumns colSpecs (columns.toList.getD []))
    (hstore : ∀ c ∈ store, Named c.column) (w : Window) (maxRowKeyCount : ℕ) (s e : Bytes)
    (inclusive : Bool) :
    createScanner (scannerBody colSpecs w maxRowKeyCount s e inclusive) store =
      .ok (HBase.scan (HBase.scannerSpec s e inclusive columns w) store) := by
  simp only [createScanner,scannerBody,Option.getD_some,decodeValue_encodeValue,ok_bind,
    Option.mapM_some]
  refine congrArg Except.ok (List.filter_congr fun c hc => ?_)
  have hcolumn := h.admits_iff (hstore c hc)
  simp only [HBase.scannerSpec,HBase.ScannerSpec.Admits,InRange,toHbaseTs_compatible,hcolumn,
    Bool.false_eq_true,if_false,Option.mem_some_iff,forall_eq',and_assoc]

variable {V : Type} {attributes : Attributes} {decode : RegisteredAttribute → Bytes → V}
  (hcons : Consistent attributes) (hstore : ∀ c ∈ store, Named c.column)
  {columns : Columns} (hnames : NamesColumns colSpecs (columns.toList.getD []))
  (p : Paging) (w : Window) (maxRowKeyCount : ℕ)
include hcons hstore hnames

variable (decode) in
theorem fetchRowsByRange_rel (s e : Bytes) (inclusive : Bool) :
    ∃ d, fetchRowsByRange attributes p store colSpecs (HBase.singleColumn columns) w maxRowKeyCount s e
        inclusive = .ok d ∧
      Related Eq (SameRow attributes) d
        (HBase.scannedRows (attributes.registry decode) p store columns w s e inclusive) := by
  rw [fetchRowsByRange,createScanner_eq hnames hstore,ok_bind]
  have hpages : List.Forall₂ (fun page page' => page = page' ∧ ∀ c ∈ page, Named c.column)
      (p.pages (HBase.scan (HBase.scannerSpec s e inclusive columns w) store))
      (p.pages (HBase.scan (HBase.scannerSpec s e inclusive columns w) store)) := by
    refine List.forall₂_same.mpr fun page hpage => ⟨rfl,fun c hc => hstore c ?_⟩
    have hflat := List.mem_flatten.mpr ⟨page,hpage,hc⟩
    rw [p.flatten_pages] at hflat
    exact List.mem_of_mem_filter hflat
  refine foldlM_rel (P := Related Eq (SameRow attributes)) (fun d d' page page' hd hpage => ?_) hpages
    related_empty
  obtain ⟨rfl,hnamed⟩ := hpage
  obtain ⟨parsed,hparsed,hrel⟩ := parseCellResponse_rel decode hcons hnamed
    (HBase.singleColumn columns)
  exact ⟨d.update parsed,by rw [hparsed]; rfl,hd.update biUnique_eq hrel⟩

variable (decode) in
theorem fetchRowsByKeys_rel (rowKeys : List Bytes) :
    ∃ d, fetchRowsByKeys attributes p store colSpecs (HBase.singleColumn columns) w maxRowKeyCount
        rowKeys = .ok d ∧
      Related Eq (SameRow attributes) d
        (HBase.keyedRows (attributes.registry decode) p store columns w rowKeys) := by
  simp only [fetchRowsByKeys,HBase.keyedRows]
  cases (rowKeys.insertionSort (· ≤ ·)).head? with
  | none => exact ⟨_,rfl,related_empty⟩
  | some least =>
    cases (rowKeys.insertionSort (· ≤ ·)).getLast? with
    | none => exact ⟨_,rfl,related_empty⟩
    | some greatest =>
      obtain ⟨d,hd,hrel⟩ := fetchRowsByRange_rel decode hcons hstore hnames p w
        maxRowKeyCount least greatest true
      simp only [hd,ok_bind]
      refine ⟨_,rfl,hrel.filter fun k k' _ _ hk _ => ?_⟩
      rw [show k = k' from hk]

end Fetching

section Rows

variable {V : Type} {attributes : Attributes} {decode : RegisteredAttribute → Bytes → V}

def SameCell (x : ReadCell V) (y : Cell (Option V)) : Prop :=
  y.value = some x.value ∧ x.timestamp = some y.timestamp

def ReadsRow : ReadRow V → RowData (Option V) → Prop
  | .columns d, .columns d' => Related (fun a c => a.toColumn = c) (List.Forall₂ SameCell) d d'
  | .single l, .cells l' => List.Forall₂ SameCell l l'
  | _, _ => False

/-- Reads that return the same rows in the same order, or both lack row arguments. -/
def SameReads : Except RestError (Dict Bytes (ReadRow V)) →
    Except ReadError (Dict Bytes (RowData (Option V))) → Prop
  | .ok d, .ok d' => Related Eq ReadsRow d d'
  | .error .precondition, .error .precondition => True
  | _, _ => False

def Attrs.listed : Attrs → List RegisteredAttribute
  | all => []
  | one a => [a]
  | many as => as

theorem buildColumnSpec_ok {a : RegisteredAttribute} (ha : Named a.toColumn) :
    buildColumnSpec a = .ok (specOf a) ∧ encodeUtf8 (specOf a) = columnBytes a.toColumn := by
  obtain ⟨key,hkey⟩ := ha.2
  have hdecode : decodeUtf8 a.key = some key := by rw [hkey,decodeUtf8_encodeUtf8]
  refine ⟨?_,?_⟩
  · rw [buildColumnSpec,decodeText,hdecode,specOf,hdecode]
    rfl
  · rw [specOf,hdecode,columnBytes_eq hkey]
    rfl

theorem buildColumnSpecs_ok {columns : Attrs} (h : ∀ a ∈ columns.listed, Named a.toColumn) :
    ∃ colSpecs, buildColumnSpecs columns = .ok colSpecs ∧
      NamesColumns colSpecs (columns.toColumns.toList.getD []) := by
  have hlist : columns.toColumns.toList.getD [] = columns.listed.map RegisteredAttribute.toColumn := by
    cases columns <;> rfl
  have hspecs : buildColumnSpecs columns = columns.listed.mapM buildColumnSpec := by
    cases columns <;> rfl
  refine ⟨columns.listed.map specOf,?_,?_,fun c hc => ?_⟩
  · rw [hspecs,ExceptLists.mapM_ok fun a ha => (buildColumnSpec_ok (h a ha)).1]
  · rw [hlist,List.map_map,List.map_map]
    exact List.map_congr_left fun a ha => (buildColumnSpec_ok (h a ha)).2
  · rw [hlist] at hc
    obtain ⟨a,ha,rfl⟩ := List.mem_map.mp hc
    exact h a ha

theorem deserializeCell_rel {a : RegisteredAttribute} (ha : Registered attributes a) {x : WireCell}
    {y : Cell Bytes} (h : x = wireCell y) : SameCell (deserializeCell decode a x)
      (HBase.deserializeCell (attributes.registry decode) a.toColumn y) := by
  subst h
  refine ⟨?_,rfl⟩
  have hfind : attributes.fromKey a.toColumn = .ok a := ha
  simp only [HBase.deserializeCell,Attributes.registry,hfind]
  rfl

theorem deserializeCells_rel {a : RegisteredAttribute} (ha : Registered attributes a)
    {l : List WireCell} {l' : List (Cell Bytes)} (h : List.Forall₂ (fun x y => x = wireCell y) l l') :
    List.Forall₂ SameCell (l.map (deserializeCell decode a))
      (l'.map (HBase.deserializeCell (attributes.registry decode) a.toColumn)) :=
  List.forall₂_map_left_iff.mpr (List.forall₂_map_right_iff.mpr (h.imp fun _ _ hxy =>
    deserializeCell_rel ha hxy))

theorem deserializeRow_rel {columns : Attrs} (hcols : ∀ a ∈ columns.listed, Registered attributes a)
    {x : RowCells} {y : RowData Bytes} (h : SameRow attributes x y) :
    ReadsRow (deserializeRow decode columns x)
      (HBase.deserializeRow (attributes.registry decode) columns.toColumns y) := by
  match x, y, h with
  | .columns d, .columns d', h =>
    have hrel : Related (fun a c => a.toColumn = c) (List.Forall₂ SameCell)
        (d.mapValues fun a l => l.map (deserializeCell decode a))
        (d'.mapValues fun c l => l.map (HBase.deserializeCell (attributes.registry decode) c)) := by
      refine (Related.mapValues (S := List.Forall₂ SameCell) h fun a c l l' hfound hl => ?_).imp_keys
        fun a c hfound => hfound.2
      obtain ⟨hfind,rfl⟩ := hfound
      exact deserializeCells_rel hfind hl
    exact hrel
  | .single l, .cells l', h =>
    cases columns with
    | all => exact .nil
    | many as => exact .nil
    | one a => exact deserializeCells_rel (hcols a List.mem_cons_self) h

/-- A read through JSON returns the rows that the read of the cells does. -/
theorem readByteRows_rel {store : List StoredCell} (hcons : Consistent attributes)
    (hstore : ∀ c ∈ store, Named c.column) {columns : Attrs}
    (hcols : ∀ a ∈ columns.listed, Registered attributes a ∧ Named a.toColumn) (p : Paging) (w : Window)
    (maxRowKeyCount : ℕ) (rows : RowSelection) (userId : Option Text) :
    SameReads (readByteRows attributes p store decode columns w maxRowKeyCount rows userId)
      (HBase.readByteRows (attributes.registry decode) p store columns.toColumns w maxRowKeyCount rows
        userId) := by
  obtain ⟨colSpecs,hspecs,hnames⟩ := buildColumnSpecs_ok fun a ha => (hcols a ha).2
  have hsingle : singleColumn columns = HBase.singleColumn columns.toColumns := by cases columns <;> rfl
  have hdeserialize : ∀ {d : Dict Bytes RowCells} {d' : Dict Bytes (RowData Bytes)},
      Related Eq (SameRow attributes) d d' → Related Eq ReadsRow
        (d.mapValues fun _ => deserializeRow decode columns)
        (d'.mapValues fun _ => HBase.deserializeRow (attributes.registry decode) columns.toColumns) :=
    fun h => h.mapValues fun _ _ _ _ _ hrow => deserializeRow_rel (fun a ha => (hcols a ha).1) hrow
  have hdecode : ∀ {cells : List StoredCell}, cells ⊆ store → decodeNames cells = .ok () :=
    fun hsub => decodeNames_of_decodable fun c hc => (hstore c (hsub hc)).decodable
  obtain ⟨rowKeys,startKey,endKey,inclusive⟩ := rows
  simp only [readByteRows,HBase.readByteRows,hspecs,hsingle,liftWire,ok_bind]
  cases rowKeys with
  | some ks =>
    have hbatches := foldlM_decodeNames (HBase.fetchRowsByKeys_eq (attributes.registry decode) p store
      columns.toColumns w) (chunked maxRowKeyCount ks) .empty
    rw [hdecode fun c hc => by
      obtain ⟨batch,-,hc⟩ := List.mem_flatMap.mp hc
      exact List.mem_of_mem_filter hc] at hbatches
    obtain ⟨d,hd,hrel⟩ := foldlM_rel (P := Related Eq (SameRow attributes)) (S := Eq)
      (g := fun rows batch => rows.update (HBase.keyedRows (attributes.registry decode) p store
        columns.toColumns w batch))
      (f := fun rows batch => do
        let fetched ← fetchRowsByKeys attributes p store colSpecs
          (HBase.singleColumn columns.toColumns) w maxRowKeyCount batch
        return rows.update fetched) (fun s t batch batch' hs hbatch => by
          obtain ⟨d,hd,hrel⟩ := fetchRowsByKeys_rel decode hcons hstore hnames p w
            maxRowKeyCount batch
          exact hbatch ▸ ⟨s.update d,by rw [hd]; rfl,hs.update biUnique_eq hrel⟩)
      (List.forall₂_same.mpr fun _ _ => rfl) related_empty (l := chunked maxRowKeyCount ks)
    simp only [hd,hbatches]
    exact hdeserialize hrel
  | none =>
    cases startKey with
    | none => cases endKey <;> trivial
    | some s =>
      cases endKey with
      | none => trivial
      | some e =>
        obtain ⟨d,hd,hrel⟩ := fetchRowsByRange_rel decode hcons hstore hnames p w
          maxRowKeyCount s e inclusive
        simp only [hd,HBase.fetchRowsByRange_eq]
        rw [HBase.scan,hdecode fun c hc => List.mem_of_mem_filter hc]
        exact hdeserialize hrel

end Rows

section FullTable

variable {store : List StoredCell}

def SameFamilies : Families WireCell → Families (Cell Bytes) → Prop :=
  Related Eq (Related Eq (List.Forall₂ fun x y => x = wireCell y))

theorem append_rel {d : Families WireCell} {d' : Families (Cell Bytes)} (h : SameFamilies d d')
    (c : Column) (x : Cell Bytes) : SameFamilies (append d c (wireCell x)) (append d' c x) := by
  refine h.set biUnique_eq rfl (Related.push biUnique_eq ?_ rfl rfl)
  have hget := h.get? biUnique_eq (rfl : c.familyId = c.familyId)
  revert hget
  generalize d.get? c.familyId = r
  generalize d'.get? c.familyId = r'
  rintro (⟨hr⟩ | _)
  · exact hr
  · exact related_empty

theorem byFamily_eq {α β : Type} (column : α → Column) (cell : α → β) (l : List α) :
    byFamily column cell l = l.foldl (fun d x => append d (column x) (cell x)) .empty := by
  induction l using List.reverseRecOn with
  | nil => rfl
  | append_singleton l x ih =>
    rw [List.foldl_append,List.foldl_cons,List.foldl_nil,← ih,append,byFamily,Dict.group_append,
      Dict.push,Dict.mapValues_set (fun m => (Dict.group (fun x => (column x).key) m).mapValues
        fun _ n => n.map cell),Dict.mapValues_group_append,byFamily,Dict.get?_mapValues]
    cases (Dict.group (fun x => (column x).familyId) l).get? (column x).familyId <;> rfl

theorem partialRowAdapter_rel {cells : List StoredCell} (hnamed : ∀ c ∈ cells, Named c.column)
    (key : Text) : ∃ r, partialRowAdapter ⟨key,cells.map jsonOf⟩ = .ok r ∧
      SameFamilies r (HBase.partialRowAdapter cells) := by
  have hcells : List.Forall₂ (fun x c => x = jsonOf c ∧ Named c.column) (cells.map jsonOf) cells :=
    List.forall₂_map_left_iff.mpr (List.forall₂_same.mpr fun c hc => ⟨rfl,hnamed c hc⟩)
  rw [HBase.partialRowAdapter,byFamily_eq]
  refine foldlM_rel (fun s t x c hs hx => ?_) hcells related_empty
  obtain ⟨rfl,hc⟩ := hx
  obtain ⟨key,htext,hsplit,hcolumn⟩ := hc.split
  simp only [jsonOf,decodeValue_encodeValue,ok_bind,htext,hsplit,hcolumn]
  exact ⟨_,rfl,append_rel hs c.column ⟨c.value,hbaseTsToDatetime c.timestamp⟩⟩

theorem readAllRows_rel (p : Paging) (hstore : ∀ c ∈ store, Named c.column) :
    ∃ d d', readAllRows p store = .ok d ∧ HBase.readAllRows p store = .ok d' ∧
      Related Eq SameFamilies d d' := by
  have hscan : createScanner ⟨none,none,1000,[],none,none⟩ store = .ok store := by
    refine congrArg Except.ok (List.filter_eq_self.mpr fun c _ => ?_)
    simp
  have hrows : List.Forall₂ (fun row e => decodeValue row.key = .ok e.1 ∧
      ∃ r, partialRowAdapter row = .ok r ∧ SameFamilies r e.2) ((p.pages store).flatMap rowsToCellset)
      ((p.pages store).flatMap fun page =>
        (PageMerge.single StoredCell.rowKey HBase.partialRowAdapter page).entries) := by
    refine List.rel_flatMap (R := fun page page' => page = page' ∧ page ∈ p.pages store)
      (List.forall₂_same.mpr fun page hpage => ⟨rfl,hpage⟩) fun page page' hpage => ?_
    obtain ⟨rfl,hpage⟩ := hpage
    refine List.forall₂_map_left_iff.mpr (List.forall₂_map_right_iff.mpr ?_)
    refine List.forall₂_same.mpr fun e he => ⟨decodeValue_encodeValue e.1,?_⟩
    refine partialRowAdapter_rel (fun c hc => hstore c ?_) _
    rw [← p.flatten_pages store]
    exact List.mem_flatten.mpr ⟨page,hpage,mem_of_mem_group he hc⟩
  have hmerge : PageMerge.merge StoredCell.rowKey HBase.partialRowAdapter (p.pages store) =
      ((p.pages store).flatMap fun page =>
      (PageMerge.single StoredCell.rowKey HBase.partialRowAdapter page).entries).foldl
        (fun d e => d.set e.1 e.2) .empty := by
    rw [List.foldl_flatMap]
    rfl
  rw [readAllRows,hscan,ok_bind,consumableRows,HBase.readAllRows_eq,
    decodeNames_of_decodable fun c hc => (hstore c hc).decodable,hmerge]
  obtain ⟨d,hd,hrel⟩ := foldlM_rel (P := Related Eq SameFamilies) (f := fun rows row => do
      let rowKey ← decodeValue row.key
      let cells ← partialRowAdapter row
      return rows.set rowKey cells) (g := fun d e => d.set e.1 e.2) (fun s t row e hs hrow => by
        obtain ⟨hkey,r,hr,hsame⟩ := hrow
        exact ⟨s.set e.1 r,by rw [hkey,ok_bind,hr]; rfl,hs.set biUnique_eq rfl hsame⟩)
    hrows related_empty
  exact ⟨d,_,hd,rfl,hrel⟩

end FullTable

end HBase.Rest
end KvdbClient
