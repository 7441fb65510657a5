import KvdbClient.AttributeRegistry
import KvdbClient.HBaseAddress
import KvdbClient.HBaseServer
import KvdbClient.TimeWindows

/-! The HBase wire format: what `mutate_row` and `build_cellset_json` write, and what
`parse_cell_response` reads, which looks the columns up in the registry of the process. -/
namespace KvdbClient
namespace HBase.Wire

open Base64

inductive WireError
  | unserializable
  | undecodable (bytes : Bytes)
  | notBase64 (text : Text)
  | noSeparator (text : Text)
  deriving DecidableEq

/-- `HBaseMutation`, by column specifier. -/
structure Mutation where
  rowKey : Bytes
  cells : Dict Text (Bytes × Option ℤ)

def Mutation.setCell (m : Mutation) (familyId : Text) (column value : Bytes)
    (timestamp : Option ℤ) : Except WireError Mutation :=
  match decodeUtf8 column with
  | some key => .ok {m with cells := m.cells.set (familyId ++ ':'::key) (value,timestamp)}
  | none => .error (.undecodable column)

section Writing

variable {V : Type} (serialize : RegisteredAttribute → V → Except WireError Bytes)

def mutateRow (rowKey : Bytes) (valDict : Dict RegisteredAttribute V) (timeStamp : Option ℤ) :
    Except WireError Mutation :=
  valDict.entries.foldlM (fun m e => do
    let value ← serialize e.1 e.2
    m.setCell e.1.familyId e.1.key value timeStamp) ⟨rowKey,.empty⟩

end Writing

/-- `datetime_to_hbase_ts`: `int` truncates. -/
def toHbaseTs (dt : ℤ) : ℤ := dt.tdiv 1000

def jsonCell (colSpec : Text) (value : Bytes) (timestamp : Option ℤ) : JsonCell where
  column := encodeValue (encodeUtf8 colSpec)
  value := encodeValue value
  timestamp := timestamp.map toHbaseTs

def buildCellsetJson (mutations : List Mutation) : List JsonRow :=
  mutations.map fun m =>
    ⟨encodeValue m.rowKey,m.cells.entries.map fun e => jsonCell e.1 e.2.1 e.2.2⟩

/-- `base.Cell`, where the server need not send a timestamp. -/
structure WireCell where
  value : Bytes
  timestamp : Option ℤ
  deriving DecidableEq

def decodeValue (text : Text) : Except WireError Bytes :=
  match b64decode text with
  | some bytes => .ok bytes
  | none => .error (.notBase64 text)

def decodeText (bytes : Bytes) : Except WireError Text :=
  match decodeUtf8 bytes with
  | some text => .ok text
  | none => .error (.undecodable bytes)

/-- `family_id, col_key = col_decoded.split(":", 1)`. -/
def splitSpec (colSpec : Text) : Except WireError (Text × Text) :=
  match colSpec.dropWhile (· != ':') with
  | [] => .error (.noSeparator colSpec)
  | _::colKey => .ok (colSpec.takeWhile (· != ':'),colKey)

section Reading

variable (attributes : Attributes)

def parseCell (columnDict : Dict RegisteredAttribute (List WireCell)) (cell : JsonCell) :
    Except WireError (Dict RegisteredAttribute (List WireCell)) := do
  let bytes ← decodeValue cell.column
  let colSpec ← decodeText bytes
  let parts ← splitSpec colSpec
  match attributes.fromKey ⟨parts.1,encodeUtf8 parts.2⟩ with
  | .error _ => return columnDict
  | .ok attr => do
    let value ← decodeValue cell.value
    return columnDict.push attr ⟨value,cell.timestamp.map hbaseTsToDatetime⟩

/-- A row as it is returned: its columns, or the cells of the first one. -/
inductive RowCells
  | columns (d : Dict RegisteredAttribute (List WireCell))
  | single (cells : List WireCell)

def parseRow (singleColumn : Bool) (row : JsonRow) : Except WireError RowCells := do
  let columnDict ← row.cells.foldlM (parseCell attributes) .empty
  match columnDict.entries.head? with
  | some first => return if singleColumn then .single first.2 else .columns columnDict
  | none => return .columns columnDict

def parseCellResponse (singleColumn : Bool) (rows : List JsonRow) :
    Except WireError (Dict Bytes RowCells) :=
  rows.foldlM (fun result row => do
    let rowKey ← decodeValue row.key
    let cells ← parseRow attributes singleColumn row
    return result.set rowKey cells) .empty

end Reading

def Registered (attributes : Attributes) (a : RegisteredAttribute) : Prop :=
  attributes.fromKey a.toColumn = .ok a

def colSpec (c : Column) (key : Text) : Text := c.familyId ++ ':'::key

theorem bind_eq_ok {ε α β : Type} {x : Except ε α} {f : α → Except ε β} {b : β}
    (h : (x >>= f) = .ok b) : ∃ a, x = .ok a ∧ f a = .ok b := by
  cases x with
  | error e => cases h
  | ok a => exact ⟨a,rfl,h⟩

theorem ok_bind {ε α β : Type} (a : α) (f : α → Except ε β) : (Except.ok a >>= f) = f a := rfl

theorem setCell_ok {m m' : Mutation} {familyId : Text} {column value : Bytes}
    {timestamp : Option ℤ} (h : m.setCell familyId column value timestamp = .ok m') :
    ∃ key, decodeUtf8 column = some key ∧
      m' = {m with cells := m.cells.set (familyId ++ ':'::key) (value,timestamp)} := by
  rw [Mutation.setCell] at h
  cases hkey : decodeUtf8 column with
  | none =>
    rw [hkey] at h
    cases h
  | some key =>
    rw [hkey] at h
    exact ⟨key,rfl,(Except.ok.inj h).symm⟩

@[simp] theorem decodeValue_encodeValue (data : Bytes) : decodeValue (encodeValue data) = .ok data := by
  rw [decodeValue,b64decode_encodeValue]

@[simp] theorem decodeText_encodeUtf8 (t : Text) : decodeText (encodeUtf8 t) = .ok t := by
  rw [decodeText,decodeUtf8_encodeUtf8]

/-- The first colon is the one that was written. -/
theorem splitSpec_colSpec {c : Column} (h : ':' ∉ c.familyId) (key : Text) :
    splitSpec (colSpec c key) = .ok (c.familyId,key) := by
  have hp : ∀ x ∈ c.familyId, (x != ':') = true := fun x hx =>
    bne_iff_ne.mpr fun he => h (he ▸ hx)
  have htake : (colSpec c key).takeWhile (· != ':') = c.familyId := by
    rw [colSpec,List.takeWhile_append_of_pos hp]
    simp
  have hdrop : (colSpec c key).dropWhile (· != ':') = ':'::key := by
    rw [colSpec,List.dropWhile_append_of_pos hp]
    simp
  rw [splitSpec,hdrop,htake]

section Written

variable {V : Type} (serialize : RegisteredAttribute → V → Except WireError Bytes)
  (timeStamp : Option ℤ)

def CellOf (e : RegisteredAttribute × V) (c : Text × Bytes × Option ℤ) : Prop :=
  ∃ key, decodeUtf8 e.1.key = some key ∧ c.1 = colSpec e.1.toColumn key ∧
    serialize e.1 e.2 = .ok c.2.1 ∧ c.2.2 = timeStamp

/-- What is to be read back: the attribute with one cell, of the serialized value and the time
floored to the millisecond. -/
def Written (e : RegisteredAttribute × V) (x : RegisteredAttribute × List WireCell) : Prop :=
  x.1 = e.1 ∧ ∃ b, serialize e.1 e.2 = .ok b ∧ x.2 = [⟨b,timeStamp.map floorMs⟩]

variable {serialize timeStamp}

theorem foldlM_setCell {es : List (RegisteredAttribute × V)} {m m' : Mutation}
    (h : es.foldlM (fun m e => do
      let value ← serialize e.1 e.2
      m.setCell e.1.familyId e.1.key value timeStamp) m = .ok m') :
    m'.rowKey = m.rowKey ∧ ∃ cs, List.Forall₂ (CellOf serialize timeStamp) es cs ∧
      m'.cells = cs.foldl (fun d c => d.set c.1 c.2) m.cells := by
  induction es generalizing m with
  | nil =>
    obtain rfl := Except.ok.inj h
    exact ⟨rfl,[],.nil,rfl⟩
  | cons e es ih =>
    rw [List.foldlM_cons] at h
    obtain ⟨m₁,hstep,hrest⟩ := bind_eq_ok h
    obtain ⟨value,hvalue,hset⟩ := bind_eq_ok hstep
    obtain ⟨key,hkey,rfl⟩ := setCell_ok hset
    obtain ⟨hrow,cs,hcs,hcells⟩ := ih hrest
    exact ⟨hrow,(colSpec e.1.toColumn key,value,timeStamp)::cs,
      .cons ⟨key,hkey,rfl,hvalue,rfl⟩ hcs,hcells⟩

/-- The specifier of an attribute, whose key is text if a mutation could be built. -/
def specOf (a : RegisteredAttribute) : Text := colSpec a.toColumn ((decodeUtf8 a.key).getD [])

theorem specs_of_forall₂ {es : List (RegisteredAttribute × V)} {cs : List (Text × Bytes × Option ℤ)}
    (h : List.Forall₂ (CellOf serialize timeStamp) es cs) :
    cs.map Prod.fst = (es.map Prod.fst).map specOf ∧
      ∀ a ∈ es.map Prod.fst, ∃ key, decodeUtf8 a.key = some key := by
  induction h with
  | nil => exact ⟨rfl,fun a ha => by cases ha⟩
  | @cons e c es cs hc _ ih =>
    obtain ⟨key,hkey,hspec,-,-⟩ := hc
    refine ⟨?_,fun a ha => ?_⟩
    · rw [List.map_cons,List.map_cons,List.map_cons,ih.1,specOf,hkey,hspec]
      rfl
    · rcases List.mem_cons.mp ha with rfl | ha
      · exact ⟨key,hkey⟩
      · exact ih.2 a ha

variable {attributes : Attributes}

theorem specOf_injective {a a' : RegisteredAttribute} (ha : Registered attributes a)
    (ha' : Registered attributes a') (hfamily : ':' ∉ a.familyId) (hfamily' : ':' ∉ a'.familyId)
    {key key' : Text} (hkey : decodeUtf8 a.key = some key) (hkey' : decodeUtf8 a'.key = some key')
    (h : specOf a = specOf a') : a = a' := by
  have hsplit := congrArg splitSpec h
  rw [specOf,specOf,splitSpec_colSpec hfamily,splitSpec_colSpec hfamily',hkey,hkey'] at hsplit
  obtain ⟨hfam,rfl⟩ := Prod.mk.inj (Except.ok.inj hsplit)
  have hcolumn : a.toColumn = a'.toColumn := by
    have hbytes := (encodeUtf8_of_decodeUtf8 hkey).symm.trans (encodeUtf8_of_decodeUtf8 hkey')
    exact congrArg₂ Column.mk hfam hbytes
  rw [Registered,hcolumn] at ha
  exact Except.ok.inj (ha.symm.trans ha')

theorem nodup_specs {es : List (RegisteredAttribute × V)} {cs : List (Text × Bytes × Option ℤ)}
    (h : List.Forall₂ (CellOf serialize timeStamp) es cs) (hnodup : (es.map Prod.fst).Nodup)
    (hreg : ∀ a ∈ es.map Prod.fst, Registered attributes a ∧ ':' ∉ a.familyId) :
    (cs.map Prod.fst).Nodup := by
  obtain ⟨hspecs,hkeys⟩ := specs_of_forall₂ h
  rw [hspecs]
  refine List.Nodup.map_on (fun a ha a' ha' heq => ?_) hnodup
  obtain ⟨key,hkey⟩ := hkeys a ha
  obtain ⟨key',hkey'⟩ := hkeys a' ha'
  exact specOf_injective (hreg a ha).1 (hreg a' ha').1 (hreg a ha).2 (hreg a' ha').2 hkey hkey' heq

/-- The two unit conversions floor a time to the millisecond. -/
theorem map_hbaseTs (htime : ∀ t ∈ timeStamp, 0 ≤ t) :
    (timeStamp.map toHbaseTs).map hbaseTsToDatetime = timeStamp.map floorMs := by
  cases timeStamp with
  | none => rfl
  | some t =>
    have ht : 0 ≤ t := htime t rfl
    rw [Option.map_some,Option.map_some,Option.map_some,toHbaseTs,Int.tdiv_eq_ediv_of_nonneg ht]
    rfl

theorem parseCell_jsonCell (htime : ∀ t ∈ timeStamp, 0 ≤ t) {e : RegisteredAttribute × V}
    {c : Text × Bytes × Option ℤ} (hc : CellOf serialize timeStamp e c)
    (hreg : Registered attributes e.1) (hfamily : ':' ∉ e.1.familyId)
    {d : Dict RegisteredAttribute (List WireCell)} (hd : e.1 ∉ d.keys) :
    parseCell attributes d (jsonCell c.1 c.2.1 c.2.2) =
      .ok (d.set e.1 [⟨c.2.1,timeStamp.map floorMs⟩]) := by
  obtain ⟨key,hkey,hspec,-,hts⟩ := hc
  have hnew : d.get? e.1 = none := Dict.lookup_eq_none.mpr hd
  have hattr : attributes.fromKey ⟨e.1.familyId,encodeUtf8 key⟩ = .ok e.1 := by
    rw [encodeUtf8_of_decodeUtf8 hkey]
    exact hreg
  simp only [parseCell,jsonCell,decodeValue_encodeValue,decodeText_encodeUtf8,hspec,ok_bind,
    splitSpec_colSpec hfamily,hattr,hts,map_hbaseTs htime,Dict.push,hnew,Option.getD_none,
    List.nil_append]
  rfl

theorem exists_written (htime : ∀ t ∈ timeStamp, 0 ≤ t) {es : List (RegisteredAttribute × V)}
    {cs : List (Text × Bytes × Option ℤ)} (h : List.Forall₂ (CellOf serialize timeStamp) es cs)
    (hreg : ∀ a ∈ es.map Prod.fst, Registered attributes a ∧ ':' ∉ a.familyId) :
    ∃ xs, List.Forall₂ (Written serialize timeStamp) es xs ∧ xs.map Prod.fst = es.map Prod.fst ∧
      List.Forall₂ (fun cell x => ∀ d, x.1 ∉ d.keys →
        parseCell attributes d cell = .ok (d.set x.1 x.2))
        (cs.map fun c => jsonCell c.1 c.2.1 c.2.2) xs := by
  induction h with
  | nil => exact ⟨[],.nil,rfl,.nil⟩
  | @cons e c es cs hc _ ih =>
    obtain ⟨xs,hwritten,hkeys,hparse⟩ := ih fun a ha => hreg a (List.mem_cons_of_mem _ ha)
    obtain ⟨hattr,hfamily⟩ := hreg e.1 List.mem_cons_self
    refine ⟨(e.1,[⟨c.2.1,timeStamp.map floorMs⟩])::xs,.cons ⟨rfl,c.2.1,?_,rfl⟩ hwritten,?_,
      .cons (fun d hd => parseCell_jsonCell htime hc hattr hfamily hd) hparse⟩
    · obtain ⟨_,-,-,hvalue,-⟩ := hc
      exact hvalue
    · rw [List.map_cons,List.map_cons,hkeys]

end Written

/-- A call of `mutate_row`; its time, if it has one, is not before 1970. -/
structure Write (V : Type) where
  rowKey : Bytes
  valDict : Dict RegisteredAttribute V
  timeStamp : Option ℤ
  notBefore1970 : ∀ t ∈ timeStamp, 0 ≤ t

section RoundTrip

variable {V : Type} {serialize : RegisteredAttribute → V → Except WireError Bytes}
  {attributes : Attributes}

def Write.mutation (serialize : RegisteredAttribute → V → Except WireError Bytes) (w : Write V) :
    Except WireError Mutation :=
  mutateRow serialize w.rowKey w.valDict w.timeStamp

def Write.ReadsColumns (serialize : RegisteredAttribute → V → Except WireError Bytes) (w : Write V)
    (cells : RowCells) : Prop :=
  ∃ columns, cells = .columns columns ∧
    List.Forall₂ (Written serialize w.timeStamp) w.valDict.entries columns.entries

def Write.ReadsCells (serialize : RegisteredAttribute → V → Except WireError Bytes)
    (a : RegisteredAttribute) (w : Write V) (cells : RowCells) : Prop :=
  ∃ v b, w.valDict.get? a = some v ∧ serialize a v = .ok b ∧
    cells = .single [⟨b,w.timeStamp.map floorMs⟩]

theorem foldlM_parseCell {w : Write V} {m : Mutation} (h : w.mutation serialize = .ok m)
    (hreg : ∀ a ∈ w.valDict.keys, Registered attributes a ∧ ':' ∉ a.familyId) :
    m.rowKey = w.rowKey ∧
      ∃ columns, (m.cells.entries.map fun c => jsonCell c.1 c.2.1 c.2.2).foldlM
        (parseCell attributes) .empty = .ok columns ∧
        List.Forall₂ (Written serialize w.timeStamp) w.valDict.entries columns.entries := by
  obtain ⟨hrow,cs,hcs,hcells⟩ := foldlM_setCell h
  obtain ⟨xs,hwritten,hkeys,hparse⟩ := exists_written w.notBefore1970 hcs hreg
  have hnodup : (xs.map Prod.fst).Nodup := hkeys ▸ w.valDict.nodup
  obtain ⟨columns,hfold,hentries⟩ := Dict.foldlM_fresh hparse hnodup (d := .empty)
    fun x _ hmem => by cases hmem
  refine ⟨hrow,columns,?_,?_⟩
  · rw [hcells]
    exact (congrArg (fun l => List.foldlM (parseCell attributes) .empty
      (l.map fun c => jsonCell c.1 c.2.1 c.2.2))
      (Dict.entries_foldl_set (nodup_specs hcs w.valDict.nodup hreg))).trans hfold
  · rw [hentries]
    exact hwritten

/-- Rows with keys of their own are read back one by one. -/
theorem parseCellResponse_rows {singleColumn : Bool} {Q : Write V → RowCells → Prop}
    {writes : List (Write V)} {mutations : List Mutation}
    (hbuilt : List.Forall₂ (fun w m => w.mutation serialize = .ok m) writes mutations)
    (hkeys : (writes.map Write.rowKey).Nodup)
    (hrow : ∀ w ∈ writes, ∀ m, w.mutation serialize = .ok m → m.rowKey = w.rowKey ∧
      ∃ cells, parseRow attributes singleColumn
        ⟨encodeValue m.rowKey,m.cells.entries.map fun c => jsonCell c.1 c.2.1 c.2.2⟩ = .ok cells ∧
        Q w cells) :
    ∃ d, parseCellResponse attributes singleColumn (buildCellsetJson mutations) = .ok d ∧
      List.Forall₂ (fun w x => x.1 = w.rowKey ∧ Q w x.2) writes d.entries := by
  have hrows : ∃ xs, List.Forall₂ (fun w x => x.1 = w.rowKey ∧ Q w x.2) writes xs ∧
      xs.map Prod.fst = writes.map Write.rowKey ∧
      List.Forall₂ (fun row x => ∀ d : Dict Bytes RowCells, x.1 ∉ d.keys → (do
        let rowKey ← decodeValue row.key
        let cells ← parseRow attributes singleColumn row
        return d.set rowKey cells) = .ok (d.set x.1 x.2)) (buildCellsetJson mutations) xs := by
    clear hkeys
    induction hbuilt with
    | nil => exact ⟨[],.nil,rfl,.nil⟩
    | @cons w m writes mutations hw _ ih =>
      obtain ⟨xs,hQ,hfst,hstep⟩ := ih fun w hw => hrow w (List.mem_cons_of_mem _ hw)
      obtain ⟨hkey,cells,hparse,hcells⟩ := hrow w List.mem_cons_self m hw
      refine ⟨(w.rowKey,cells)::xs,.cons ⟨rfl,hcells⟩ hQ,?_,.cons (fun d _ => ?_) hstep⟩
      · rw [List.map_cons,List.map_cons,hfst]
      · rw [decodeValue_encodeValue,ok_bind,hparse,ok_bind,hkey]
        rfl
  obtain ⟨xs,hQ,hfst,hstep⟩ := hrows
  obtain ⟨d,hd,hentries⟩ := Dict.foldlM_fresh hstep (hfst ▸ hkeys) (d := .empty)
    fun x _ hmem => by cases hmem
  exact ⟨d,hd,hentries ▸ hQ⟩

theorem registered_of_imported {r : RegisteredAttribute} (hr : r ∈ importedAttributes) :
    Registered (.ofProcess []) r := by
  rcases List.mem_append.mp hr with hs | harray
  · have hsingle : ∀ s ∈ singleAttributes, ∀ s' ∈ singleAttributes,
        s'.toColumn = s.toColumn → s' = s := by decide +kernel
    have hget : (Attributes.ofProcess []).get? r.toColumn = some r := by
      refine Attributes.get?_foldl_construct (List.mem_append_left _ hr) (fun r' hr' h => ?_) .empty
      rw [List.append_nil] at hr'
      rcases List.mem_append.mp hr' with hs' | ha'
      · exact hsingle r hs r' hs' h
      · obtain ⟨a,ha,hmem⟩ := List.mem_flatMap.mp ha'
        obtain ⟨i,-,rfl⟩ := List.mem_map.mp hmem
        exact absurd (congrArg Column.key h).symm (AttributeArray.single_key_ne_getItem ha i hs)
    rw [Registered,Attributes.fromKey,hget]
  · obtain ⟨a,ha,hmem⟩ := List.mem_flatMap.mp harray
    obtain ⟨i,hi,rfl⟩ := List.mem_map.mp hmem
    refine (AttributeArray.fromKey_getItem ha i fun r hr => by cases hr).trans ?_
    rw [if_pos (List.mem_range.mp hi)]

/-- With registered attributes, of families without a colon, every response is what was written. -/
theorem parseCellResponse_buildCellsetJson {constructed : List RegisteredAttribute}
    (hfamilies : ∀ a ∈ constructed, ':' ∉ a.familyId) {writes : List (Write V)}
    {mutations : List Mutation}
    (hbuilt : List.Forall₂ (fun w m => w.mutation serialize = .ok m) writes mutations)
    (hkeys : (writes.map Write.rowKey).Nodup)
    (hreg : ∀ w ∈ writes, ∀ a ∈ w.valDict.keys, Registered (.ofProcess constructed) a) :
    (∃ d, parseCellResponse (.ofProcess constructed) false (buildCellsetJson mutations) = .ok d ∧
      List.Forall₂ (fun w x => x.1 = w.rowKey ∧ w.ReadsColumns serialize x.2) writes d.entries) ∧
    ∀ a, (∀ w ∈ writes, w.valDict.keys = [a]) →
      ∃ d, parseCellResponse (.ofProcess constructed) true (buildCellsetJson mutations) = .ok d ∧
        List.Forall₂ (fun w x => x.1 = w.rowKey ∧ w.ReadsCells serialize a x.2) writes d.entries := by
  have hcolon : ∀ a, Registered (.ofProcess constructed) a → ':' ∉ a.familyId := fun a ha =>
    (Attributes.of_fromKey ha).1.elim AttributeArray.colon_notMem_of_imported (hfamilies a)
  have hread := fun w hw m (hm : w.mutation serialize = .ok m) => foldlM_parseCell hm
    fun a ha => ⟨hreg w hw a ha,hcolon a (hreg w hw a ha)⟩
  refine ⟨?_,fun a hone => ?_⟩
  · refine parseCellResponse_rows hbuilt hkeys fun w hw m hm => ?_
    obtain ⟨hrow,columns,hfold,hwritten⟩ := hread w hw m hm
    refine ⟨hrow,.columns columns,?_,columns,rfl,hwritten⟩
    rw [parseRow,hfold,ok_bind]
    cases columns.entries.head? <;> rfl
  · refine parseCellResponse_rows hbuilt hkeys fun w hw m hm => ?_
    obtain ⟨hrow,columns,hfold,hwritten⟩ := hread w hw m hm
    obtain ⟨e,he⟩ : ∃ e, w.valDict.entries = [e] := List.length_eq_one_iff.mp (by
      rw [← List.length_map Prod.fst]
      exact congrArg List.length (hone w hw))
    obtain rfl : e.1 = a := by
      have hsingle := hone w hw
      rw [Dict.keys,he] at hsingle
      exact List.singleton_inj.mp hsingle
    rw [he] at hwritten
    obtain ⟨x,xs,⟨-,b,hb,hx⟩,hnil,hcolumns⟩ := List.forall₂_cons_left_iff.mp hwritten
    refine ⟨hrow,.single x.2,?_,e.2,b,?_,hb,congrArg RowCells.single hx⟩
    · rw [parseRow,hfold,ok_bind,hcolumns]
      rfl
    · exact Dict.get?_eq_some.mpr (he ▸ List.mem_singleton.mpr rfl)

/-- A lock cell, written half a millisecond after a whole one. -/
def lockAttribute : RegisteredAttribute := ⟨Concurrency.lock.toColumn,.uint64String⟩

def lockWrite : Write Bytes where
  rowKey := [255]
  valDict := ⟨[(lockAttribute,[1,2])],by decide⟩
  timeStamp := some 1500
  notBefore1970 := by simp

theorem parseCellResponse_lock :
    ∃ m, lockWrite.mutation (fun _ b => .ok b) = .ok m ∧
      ∃ d, parseCellResponse (.ofProcess []) true (buildCellsetJson [m]) = .ok d ∧
        List.Forall₂ (fun w x => x.1 = w.rowKey ∧ w.ReadsCells (fun _ b => .ok b) lockAttribute x.2)
          [lockWrite] d.entries := by
  have hkey : decodeUtf8 lockAttribute.key = some "lock".toList := decodeUtf8_encodeUtf8 _
  have hbuilt : ∃ m, lockWrite.mutation (fun _ b => .ok b) = .ok m := by
    refine ⟨⟨[255],Dict.empty.set ("0:".toList ++ "lock".toList) ([1,2],some 1500)⟩,?_⟩
    simp only [Write.mutation,mutateRow,lockWrite,List.foldlM_cons,List.foldlM_nil,ok_bind,
      Mutation.setCell,hkey]
    rfl
  obtain ⟨m,hm⟩ := hbuilt
  have hlock : Registered (.ofProcess []) lockAttribute := registered_of_imported (by decide)
  refine ⟨m,hm,(parseCellResponse_buildCellsetJson (fun a ha => by cases ha) (.cons hm .nil)
    (by decide) fun w hw a ha => ?_).2 lockAttribute fun w hw => ?_⟩
  · obtain rfl := List.mem_singleton.mp hw
    obtain rfl := List.mem_singleton.mp ha
    exact hlock
  · obtain rfl := List.mem_singleton.mp hw
    rfl

end RoundTrip

end HBase.Wire
end KvdbClient
