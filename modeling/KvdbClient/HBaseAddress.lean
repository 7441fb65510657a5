import KvdbClient.Attributes
import KvdbClient.Base64
import Mathlib.Data.List.TakeWhile

/-! How single-row requests are addressed: the URLs and bodies `hbase/client.py` builds, and
what the REST server reads from a URL. -/
namespace KvdbClient
namespace HBase

open Base64

def encodeValue (data : Bytes) : Text := b64encode data

def buildColumnSpec (column : Column) : Text := column.familyId ++ ':'::decodeAscii column.key

def isNameChar (c : Char) : Bool := c.isAlphanum || c == '_' || c == '-' || c == '.' || c == ':'

/-- A table name that is a path segment of its own, with no character that is quoted. -/
structure TableId where
  name : Text
  legal : name.all isNameChar = true
  nonempty : name ≠ []
  notDotted : name.head? ≠ some '.'

inductive Method
  | put
  | post
  | delete
  deriving DecidableEq

structure JsonCell where
  column : Text
  value : Text
  timestamp : Option ℤ := none
  deriving DecidableEq

structure JsonRow where
  key : Text
  cells : List JsonCell
  deriving DecidableEq

/-- The URL is what follows the base URL. -/
structure HttpRequest where
  method : Method
  url : Text
  json : Option JsonRow
  deriving DecidableEq

def tableUrl (t : TableId) (suffix : Text) : Text := '/'::t.name ++ suffix

def checkAndPut (t : TableId) (rowKey : Bytes) (check : Column) (checkValue : Option Bytes)
    (put : Column) (putValue : Bytes) (putTimestamp : Option ℤ) : HttpRequest where
  method := .put
  url := tableUrl t ('/'::encodeValue rowKey ++ '/'::buildColumnSpec check ++
    ['?','c','h','e','c','k','=','p','u','t'])
  json := some ⟨encodeValue rowKey,
    (checkValue.map fun v => ⟨encodeValue (encodeUtf8 (buildColumnSpec check)),encodeValue v,none⟩).toList
      ++ [⟨encodeValue (encodeUtf8 (buildColumnSpec put)),encodeValue putValue,putTimestamp⟩]⟩

def checkAndDelete (t : TableId) (rowKey : Bytes) (check : Column) (checkValue : Bytes) :
    HttpRequest where
  method := .put
  url := tableUrl t ('/'::encodeValue rowKey ++ '/'::buildColumnSpec check ++
    ['?','c','h','e','c','k','=','d','e','l','e','t','e'])
  json := some ⟨encodeValue rowKey,
    [⟨encodeValue (encodeUtf8 (buildColumnSpec check)),encodeValue checkValue,none⟩]⟩

def deleteCell (t : TableId) (rowKey : Bytes) (column : Column) : HttpRequest where
  method := .delete
  url := tableUrl t ('/'::encodeValue rowKey ++ '/'::buildColumnSpec column)
  json := none

def deleteRow (t : TableId) (rowKey : Bytes) : HttpRequest where
  method := .delete
  url := tableUrl t ('/'::encodeValue rowKey)
  json := none

/-- `struct.pack(">q", size)`: eight bytes, the most significant first. -/
def packInt64 (size : ℕ) : Bytes :=
  (List.range 8).map fun i => UInt8.ofNat (size / 256 ^ (7-i))

def getIdsRangeRequest (t : TableId) (key : Bytes) (size : ℕ) : HttpRequest where
  method := .post
  url := tableUrl t ('/'::encodeValue key ++ '/'::buildColumnSpec Concurrency.counter)
  json := some ⟨encodeValue key,
    [⟨encodeValue (encodeUtf8 (buildColumnSpec Concurrency.counter)),
      encodeValue (packInt64 size),none⟩]⟩

/-- Path and query of a URL, for paths without `;` parameters. -/
def urlparse (url : Text) : Text × Text :=
  let url := url.takeWhile (· != '#')
  (url.takeWhile (· != '?'),(url.dropWhile (· != '?')).drop 1)

/-- The values of a query parameter, for queries with nothing quoted. -/
def parseQs (query name : Text) : List Text :=
  (query.splitOn '&').filterMap fun field =>
    let value := (field.dropWhile (· != '=')).drop 1
    if field.takeWhile (· != '=') = name ∧ value ≠ [] then some value else none

def pathParts (path : Text) : List Text := (path.splitOn '/').filter (· ≠ [])

/-- What a request is about: the table, the row and the column its URL names. -/
inductive Target
  | checkAndPut (table : Text) (rowKey : Bytes) (colSpec : Text)
  | checkAndDelete (table : Text) (rowKey : Bytes) (colSpec : Text)
  | increment (table : Text) (rowKey : Bytes) (colSpec : Text)
  | deleteRow (table : Text) (rowKey : Bytes)
  | deleteColumn (table : Text) (rowKey : Bytes) (colSpec : Text)
  | deleteVersion (table : Text) (rowKey : Bytes) (colSpec tsMs : Text)
  | batchWrite (table : Text)
  | schema (table : Text)
  | scanner (table : Text)
  deriving DecidableEq

def Target.cell : Target → Option (Text × Bytes × Text)
  | .checkAndPut table rowKey colSpec | .checkAndDelete table rowKey colSpec
  | .increment table rowKey colSpec | .deleteColumn table rowKey colSpec
  | .deleteVersion table rowKey colSpec _ => some (table,rowKey,colSpec)
  | .deleteRow _ _ | .batchWrite _ | .schema _ | .scanner _ => none

def schemaPart : Text := ['s','c','h','e','m','a']
def scannerPart : Text := ['s','c','a','n','n','e','r']

/-- The row and the column a check handler takes from the path. -/
def rowAndColumn (key : Text) : List Text → Option (Bytes × Text)
  | [] => none
  | colSpec::_ => (b64decode key).map (·,colSpec)

def doPut (parts query : List Text) : Option Target :=
  match parts with
  | table::key::rest =>
    if key = schemaPart then some (.schema table)
    else if key = scannerPart then some (.scanner table)
    else if query = [['p','u','t']] then
      (rowAndColumn key rest).map fun a => .checkAndPut table a.1 a.2
    else if query = [['d','e','l','e','t','e']] then
      (rowAndColumn key rest).map fun a => .checkAndDelete table a.1 a.2
    else some (.batchWrite table)
  | _ => none

def doPost (parts : List Text) : Option Target :=
  match parts with
  | table::key::colSpec::_ => (b64decode key).map (.increment table · colSpec)
  | _ => none

def doDelete (parts : List Text) : Option Target :=
  match parts with
  | table::key::rest =>
    if key = schemaPart then some (.schema table)
    else if key = scannerPart ∧ rest ≠ [] then some (.scanner table)
    else
      match b64decode key, rest with
      | none, _ => none
      | some rowKey, [] => some (.deleteRow table rowKey)
      | some rowKey, [colSpec] => some (.deleteColumn table rowKey colSpec)
      | some rowKey, colSpec::tsMs::_ => some (.deleteVersion table rowKey colSpec tsMs)
  | _ => none

/-- The server's routing; `none` is an error status or an exception. -/
def route (r : HttpRequest) : Option Target :=
  let (path,query) := urlparse r.url
  match r.method with
  | .put => doPut (pathParts path) (parseQs query ['c','h','e','c','k'])
  | .post => doPost (pathParts path)
  | .delete => doDelete (pathParts path)

theorem sublist_of_mem_splitOn {sep : Char} {text part : Text} (h : part ∈ text.splitOn sep) :
    part.Sublist text ∧ sep ∉ part := by
  induction text generalizing part with
  | nil =>
    rw [List.splitOn_nil,List.mem_singleton] at h
    simp [h]
  | cons c cs ih =>
    rw [List.splitOn_cons_eq_if_modifyHead] at h
    split at h
    next hc =>
      rcases List.mem_cons.mp h with rfl | h
      · simp
      · exact ⟨(ih h).1.cons c,(ih h).2⟩
    next hc =>
      obtain ⟨first,rest,hsplit⟩ := List.exists_cons_of_ne_nil (List.splitOn_ne_nil sep cs)
      rw [hsplit,List.modifyHead_cons] at h
      rcases List.mem_cons.mp h with rfl | h
      · have hfirst := ih (hsplit ▸ List.mem_cons_self)
        refine ⟨hfirst.1.cons_cons c,fun hmem => ?_⟩
        rcases List.mem_cons.mp hmem with rfl | hmem
        · exact hc (beq_self_eq_true _)
        · exact hfirst.2 hmem
      · have hpart := ih (hsplit ▸ List.mem_cons_of_mem first h)
        exact ⟨hpart.1.cons c,hpart.2⟩

@[simp] theorem pathParts_nil : pathParts [] = [] := rfl

theorem pathParts_append_slash (a b : Text) :
    pathParts (a ++ '/'::b) = pathParts a ++ pathParts b := by
  simp [pathParts,List.splitOn_append_cons_self]

theorem pathParts_segment {a : Text} (hne : a ≠ []) (h : '/' ∉ a) : pathParts a = [a] := by
  simp [pathParts,List.splitOn_eq_singleton h,hne]

theorem isNameChar_ne {c d : Char} (h : isNameChar c = true) (hd : isNameChar d = false) : c ≠ d := by
  rintro rfl
  simp [h] at hd

theorem TableId.not_mem (t : TableId) {c : Char} (hc : isNameChar c = false) : c ∉ t.name :=
  fun h => isNameChar_ne (List.all_eq_true.mp t.legal c h) hc rfl

theorem pathParts_tableUrl (t : TableId) (suffix : Text) :
    pathParts (tableUrl t ('/'::suffix)) = t.name::pathParts suffix := by
  have h : tableUrl t ('/'::suffix) = [] ++ '/'::(t.name ++ '/'::suffix) := rfl
  rw [h,pathParts_append_slash,pathParts_append_slash,
    pathParts_segment t.nonempty (t.not_mem (by decide)),pathParts_nil,List.nil_append,
    List.singleton_append]

theorem symbol_ne_delimiter : ∀ {n : ℕ}, n < 64 → symbol n ≠ '?' ∧ symbol n ≠ '#' := by
  decide

theorem encodeValue_no_delimiter {data : Bytes} {c : Char} (h : c ∈ encodeValue data) :
    c ≠ '?' ∧ c ≠ '#' := by
  rcases mem_b64encode h with ⟨n,hn,rfl⟩ | rfl
  · exact symbol_ne_delimiter (sextets_lt n hn)
  · decide

theorem urlparse_of_no_delimiter {path : Text} (h : ∀ c ∈ path, c ≠ '?' ∧ c ≠ '#') :
    urlparse path = (path,[]) := by
  have hh : path.takeWhile (· != '#') = path :=
    List.takeWhile_eq_self_iff.mpr fun c hc => bne_iff_ne.mpr (h c hc).2
  have hq : path.takeWhile (· != '?') = path :=
    List.takeWhile_eq_self_iff.mpr fun c hc => bne_iff_ne.mpr (h c hc).1
  have hd : path.dropWhile (· != '?') = [] :=
    List.dropWhile_eq_nil_iff.mpr fun c hc => bne_iff_ne.mpr (h c hc).1
  simp only [urlparse,hh,hq,hd,List.drop_nil]

theorem urlparse_query {path query : Text} (h : ∀ c ∈ path, c ≠ '?' ∧ c ≠ '#')
    (hquery : '#' ∉ query) : urlparse (path ++ '?'::query) = (path,query) := by
  have hh : (path ++ '?'::query).takeWhile (· != '#') = path ++ '?'::query := by
    apply List.takeWhile_eq_self_iff.mpr
    intro c hc
    apply bne_iff_ne.mpr
    rcases List.mem_append.mp hc with hc | hc
    · exact (h c hc).2
    · rintro rfl
      rcases List.mem_cons.mp hc with hc | hc
      · cases hc
      · exact hquery hc
  have hp : ∀ c ∈ path, (c != '?') = true := fun c hc => bne_iff_ne.mpr (h c hc).1
  simp [urlparse,hh,List.takeWhile_append_of_pos hp,List.dropWhile_append_of_pos hp]

/-- The row keys whose base64 is one path segment: they are not empty, and none of their six-bit
groups is all ones. -/
def Addressable (key : Bytes) : Prop := key ≠ [] ∧ 63 ∉ sextets key

instance : DecidablePred Addressable :=
  fun key => inferInstanceAs (Decidable (key ≠ [] ∧ 63 ∉ sextets key))

theorem pathParts_encodeValue {key : Bytes} (h : Addressable key) :
    pathParts (encodeValue key) = [encodeValue key] :=
  pathParts_segment (b64encode_eq_nil_iff.not.mpr h.1) (slash_mem_b64encode_iff.not.mpr h.2)

/-- Cut at its slashes, a base64 text has no part left that decodes to the whole key. -/
theorem addressable_of_part {key : Bytes} {part : Text} (hpart : part ∈ pathParts (encodeValue key))
    (hdecode : b64decode part = some key) : Addressable key := by
  obtain ⟨hsub,hno⟩ := sublist_of_mem_splitOn (List.mem_filter.mp hpart).1
  refine ⟨?_,fun hslash => ?_⟩
  · rintro rfl
    simp [encodeValue,b64encode,sextets,padding] at hpart
  · exact (length_lt_of_slash_removed hsub hno (slash_mem_b64encode_iff.mpr hslash) hdecode).false

@[simp] theorem b64decode_encodeValue (key : Bytes) : b64decode (encodeValue key) = some key :=
  b64decode_b64encode key

/-- The reserved parts have six and seven characters, a base64 text has a multiple of four. -/
theorem encodeValue_ne_reserved (key : Bytes) :
    encodeValue key ≠ schemaPart ∧ encodeValue key ≠ scannerPart := by
  have hlen := length_b64encode key
  refine ⟨fun h => ?_,fun h => ?_⟩
  all_goals
    rw [show b64encode key = encodeValue key from rfl,h] at hlen
    exact absurd hlen (by decide)

section Routing

variable {parts query : List Text} {target : Target} {table colSpec : Text} {rowKey : Bytes}

theorem rowAndColumn_cell {t key : Text} {rest : List Text} {f : Bytes × Text → Target}
    (hf : ∀ a, (f a).cell = some (t,a)) (h : (rowAndColumn key rest).map f = some target)
    (hcell : target.cell = some (table,rowKey,colSpec)) :
    ∃ part tail, t::key::rest = table::part::colSpec::tail ∧ b64decode part = some rowKey := by
  obtain ⟨a,hparts,rfl⟩ := Option.map_eq_some_iff.mp h
  obtain ⟨rfl,rfl⟩ := Prod.mk.inj (Option.some.inj ((hf a).symm.trans hcell))
  cases rest with
  | nil => cases hparts
  | cons c tail =>
    obtain ⟨row,hrow,hEq⟩ := Option.map_eq_some_iff.mp hparts
    obtain ⟨rfl,rfl⟩ := Prod.mk.inj hEq
    exact ⟨key,tail,rfl,hrow⟩

theorem doPut_cell (h : doPut parts query = some target)
    (hcell : target.cell = some (table,rowKey,colSpec)) :
    ∃ part rest, parts = table::part::colSpec::rest ∧ b64decode part = some rowKey := by
  unfold doPut at h
  split at h
  · split_ifs at h
    · cases h
      cases hcell
    · cases h
      cases hcell
    · exact rowAndColumn_cell (fun _ => rfl) h hcell
    · exact rowAndColumn_cell (fun _ => rfl) h hcell
    · cases h
      cases hcell
  · cases h

theorem doPost_cell (h : doPost parts = some target)
    (hcell : target.cell = some (table,rowKey,colSpec)) :
    ∃ part rest, parts = table::part::colSpec::rest ∧ b64decode part = some rowKey := by
  unfold doPost at h
  split at h
  · obtain ⟨row,hrow,rfl⟩ := Option.map_eq_some_iff.mp h
    cases hcell
    exact ⟨_,_,rfl,hrow⟩
  · cases h

theorem doDelete_cell (h : doDelete parts = some target)
    (hcell : target.cell = some (table,rowKey,colSpec)) :
    ∃ part rest, parts = table::part::colSpec::rest ∧ b64decode part = some rowKey := by
  unfold doDelete at h
  split at h
  · split_ifs at h
    · cases h
      cases hcell
    · cases h
      cases hcell
    · split at h
      all_goals cases h
      all_goals cases hcell
      all_goals exact ⟨_,_,rfl,by assumption⟩
  · cases h

theorem doDelete_deleteRow (h : doDelete parts = some (.deleteRow table rowKey)) :
    ∃ part, parts = [table,part] ∧ b64decode part = some rowKey := by
  unfold doDelete at h
  split at h
  · split_ifs at h
    · cases h
    · cases h
    · split at h
      all_goals cases h
      exact ⟨_,rfl,by assumption⟩
  · cases h

end Routing

theorem route_cell {r : HttpRequest} {target : Target} {table colSpec : Text} {rowKey : Bytes}
    (h : route r = some target) (hcell : target.cell = some (table,rowKey,colSpec)) :
    ∃ part rest, pathParts (urlparse r.url).1 = table::part::colSpec::rest ∧
      b64decode part = some rowKey := by
  unfold route at h
  cases hm : r.method with
  | put =>
    rw [hm] at h
    exact doPut_cell h hcell
  | post =>
    rw [hm] at h
    exact doPost_cell h hcell
  | delete =>
    rw [hm] at h
    exact doDelete_cell h hcell

def IsSegment (column : Column) : Prop :=
  ∀ c ∈ buildColumnSpec column, c ≠ '/' ∧ c ≠ '?' ∧ c ≠ '#'

instance : DecidablePred IsSegment :=
  fun column => List.decidableBAll (fun c => c ≠ '/' ∧ c ≠ '?' ∧ c ≠ '#') (buildColumnSpec column)

def cellUrl (t : TableId) (key : Bytes) (column : Column) : Text :=
  tableUrl t ('/'::encodeValue key ++ '/'::buildColumnSpec column)

section CellUrl

variable (t : TableId) (key : Bytes) {column : Column} (hcolumn : IsSegment column)
include hcolumn

theorem pathParts_cellUrl : pathParts (cellUrl t key column) =
    t.name::(pathParts (encodeValue key) ++ [buildColumnSpec column]) := by
  rw [cellUrl,List.cons_append,pathParts_tableUrl,pathParts_append_slash,
    pathParts_segment (a := buildColumnSpec column) (by simp [buildColumnSpec])
      fun h => (hcolumn _ h).1 rfl]

theorem cellUrl_no_delimiter : ∀ c ∈ cellUrl t key column, c ≠ '?' ∧ c ≠ '#' := by
  intro c hc
  simp only [cellUrl,tableUrl,List.mem_append,List.mem_cons] at hc
  rcases hc with (rfl | hc) | (rfl | hc) | rfl | hc
  · decide
  · exact ⟨fun h => t.not_mem (by decide) (h ▸ hc),fun h => t.not_mem (by decide) (h ▸ hc)⟩
  · decide
  · exact encodeValue_no_delimiter hc
  · decide
  · exact (hcolumn c hc).2

end CellUrl

/-- A request about one column that names its own row comes from an addressable key. -/
theorem addressable_of_route {t : TableId} {key : Bytes} {column : Column}
    (hcolumn : IsSegment column) {r : HttpRequest} {target : Target} {table colSpec : Text}
    (hurl : (urlparse r.url).1 = cellUrl t key column) (h : route r = some target)
    (hcell : target.cell = some (table,key,colSpec)) : Addressable key := by
  obtain ⟨part,rest,hparts,hdecode⟩ := route_cell h hcell
  rw [hurl,pathParts_cellUrl t key hcolumn] at hparts
  obtain ⟨_,hparts⟩ := List.cons.inj hparts
  apply addressable_of_part _ hdecode
  cases hpieces : pathParts (encodeValue key) with
  | nil => simp [hpieces] at hparts
  | cons piece pieces =>
    rw [hpieces,List.cons_append] at hparts
    exact (List.cons.inj hparts).1 ▸ List.mem_cons_self

section Addressed

variable (t : TableId) (key : Bytes) {column : Column} (hcolumn : IsSegment column)
include hcolumn

variable {t key} in
theorem pathParts_of_addressable (h : Addressable key) : pathParts (cellUrl t key column) =
    [t.name,encodeValue key,buildColumnSpec column] := by
  rw [pathParts_cellUrl t key hcolumn,pathParts_encodeValue h]
  rfl

theorem urlparse_checkAndPut (checkValue : Option Bytes) (put : Column) (putValue : Bytes)
    (putTimestamp : Option ℤ) :
    urlparse (checkAndPut t key column checkValue put putValue putTimestamp).url =
      (cellUrl t key column,['c','h','e','c','k','=','p','u','t']) := by
  rw [← urlparse_query (cellUrl_no_delimiter t key hcolumn) (by decide)]
  simp [checkAndPut,cellUrl,tableUrl]

theorem urlparse_checkAndDelete (checkValue : Bytes) :
    urlparse (checkAndDelete t key column checkValue).url =
      (cellUrl t key column,['c','h','e','c','k','=','d','e','l','e','t','e']) := by
  rw [← urlparse_query (cellUrl_no_delimiter t key hcolumn) (by decide)]
  simp [checkAndDelete,cellUrl,tableUrl]

variable {t key}

theorem route_checkAndPut_iff (checkValue : Option Bytes) (put : Column) (putValue : Bytes)
    (putTimestamp : Option ℤ) :
    route (checkAndPut t key column checkValue put putValue putTimestamp) =
      some (.checkAndPut t.name key (buildColumnSpec column)) ↔ Addressable key := by
  have hurl := urlparse_checkAndPut t key hcolumn checkValue put putValue putTimestamp
  constructor
  · intro h
    exact addressable_of_route hcolumn (by rw [hurl]) h rfl
  · intro h
    obtain ⟨hschema,hscanner⟩ := encodeValue_ne_reserved key
    have hquery : parseQs ['c','h','e','c','k','=','p','u','t'] ['c','h','e','c','k'] =
        [['p','u','t']] := by decide
    simp only [route,hurl,pathParts_of_addressable hcolumn h,hquery]
    simp [checkAndPut,doPut,hschema,hscanner,rowAndColumn]

theorem route_checkAndDelete_iff (checkValue : Bytes) :
    route (checkAndDelete t key column checkValue) =
      some (.checkAndDelete t.name key (buildColumnSpec column)) ↔ Addressable key := by
  have hurl := urlparse_checkAndDelete t key hcolumn checkValue
  constructor
  · intro h
    exact addressable_of_route hcolumn (by rw [hurl]) h rfl
  · intro h
    obtain ⟨hschema,hscanner⟩ := encodeValue_ne_reserved key
    have hquery : parseQs ['c','h','e','c','k','=','d','e','l','e','t','e']
        ['c','h','e','c','k'] = [['d','e','l','e','t','e']] := by decide
    simp only [route,hurl,pathParts_of_addressable hcolumn h,hquery]
    simp [checkAndDelete,doPut,hschema,hscanner,rowAndColumn]

theorem route_deleteCell_iff : route (deleteCell t key column) =
    some (.deleteColumn t.name key (buildColumnSpec column)) ↔ Addressable key := by
  have hurl : urlparse (deleteCell t key column).url = (cellUrl t key column,[]) :=
    urlparse_of_no_delimiter (cellUrl_no_delimiter t key hcolumn)
  constructor
  · intro h
    exact addressable_of_route hcolumn (by rw [hurl]) h rfl
  · intro h
    obtain ⟨hschema,hscanner⟩ := encodeValue_ne_reserved key
    simp only [route,hurl,pathParts_of_addressable hcolumn h]
    simp [deleteCell,doDelete,hschema,hscanner]

end Addressed

theorem counter_isSegment : IsSegment Concurrency.counter := by decide

theorem route_getIdsRangeRequest_iff {t : TableId} {key : Bytes} (size : ℕ) :
    route (getIdsRangeRequest t key size) =
      some (.increment t.name key (buildColumnSpec Concurrency.counter)) ↔ Addressable key := by
  have hurl : urlparse (getIdsRangeRequest t key size).url = (cellUrl t key Concurrency.counter,[]) :=
    urlparse_of_no_delimiter (cellUrl_no_delimiter t key counter_isSegment)
  constructor
  · intro h
    exact addressable_of_route counter_isSegment (by rw [hurl]) h rfl
  · intro h
    simp only [route,hurl,pathParts_of_addressable counter_isSegment h]
    simp [getIdsRangeRequest,doPost]

theorem route_deleteRow (t : TableId) (key : Bytes) :
    route (deleteRow t key) = doDelete (t.name::pathParts (encodeValue key)) := by
  have hplain : ∀ c ∈ tableUrl t ('/'::encodeValue key), c ≠ '?' ∧ c ≠ '#' := by
    intro c hc
    simp only [tableUrl,List.mem_append,List.mem_cons] at hc
    rcases hc with (rfl | hc) | rfl | hc
    · decide
    · exact ⟨fun h => t.not_mem (by decide) (h ▸ hc),fun h => t.not_mem (by decide) (h ▸ hc)⟩
    · decide
    · exact encodeValue_no_delimiter hc
  simp only [route,deleteRow,urlparse_of_no_delimiter hplain,pathParts_tableUrl]

theorem route_deleteRow_iff {t : TableId} {key : Bytes} :
    route (deleteRow t key) = some (.deleteRow t.name key) ↔ Addressable key := by
  rw [route_deleteRow]
  constructor
  · intro h
    obtain ⟨part,hparts,hdecode⟩ := doDelete_deleteRow h
    refine addressable_of_part ?_ hdecode
    rw [(List.cons.inj hparts).2]
    exact List.mem_singleton_self part
  · intro h
    obtain ⟨hschema,hscanner⟩ := encodeValue_ne_reserved key
    simp [pathParts_encodeValue h,doDelete,hschema]

/-- Printable ASCII but the question mark has no group of six ones in it. -/
theorem addressable_of_ascii {key : Bytes} (hne : key ≠ [])
    (h : ∀ a ∈ key, a.toNat < 127 ∧ a.toNat ≠ 63) : Addressable key := by
  refine ⟨hne,?_⟩
  clear hne
  induction key using sextets.induct with
  | case1 => simp [sextets]
  | case2 a =>
    have := h a (by simp)
    simp only [sextets,List.mem_cons,List.not_mem_nil,or_false]
    omega
  | case3 a b =>
    have := h a (by simp)
    have := h b (by simp)
    simp only [sextets,List.mem_cons,List.not_mem_nil,or_false]
    omega
  | case4 a b c rest ih =>
    have := h a (by simp)
    have := h b (by simp)
    have := h c (by simp)
    have hrest : 63 ∉ sextets rest := ih fun x hx => h x (by simp [hx])
    simp only [sextets,List.mem_cons,hrest,or_false]
    omega

theorem mem_encodeUtf8 {text : Text} (h : ∀ c ∈ text, c.toNat < 127 ∧ c.toNat ≠ 63) {a : UInt8}
    (ha : a ∈ encodeUtf8 text) : a.toNat < 127 ∧ a.toNat ≠ 63 := by
  obtain ⟨c,hc,ha⟩ := List.mem_flatMap.mp ha
  have hascii : c.val.toNat < 127 ∧ c.val.toNat ≠ 63 := h c hc
  rw [String.utf8EncodeChar,if_pos (by omega),List.mem_singleton] at ha
  rw [ha,UInt8.toNat_ofNat']
  omega

theorem serializeKey_addressable {text : Text} (hne : text ≠ [])
    (h : ∀ c ∈ text, c.toNat < 127 ∧ c.toNat ≠ 63) : Addressable (serializeKey text) := by
  refine addressable_of_ascii (fun hnil => hne ?_) fun a ha => mem_encodeUtf8 h ha
  exact serializeKey_injective (hnil.trans (rfl : [] = serializeKey []))

theorem padNodeId_ascii {nodeId : ℕ} {c : Char} (h : c ∈ padNodeId nodeId) :
    c.toNat < 127 ∧ c.toNat ≠ 63 := by
  have hdigit := Char.isDigit_iff_toNat.mp (isDigit_of_mem_padNodeId h)
  have : '9'.toNat = 57 := rfl
  omega

theorem serializeUint64_addressable (nodeId : ℕ) (counter fakeEdges : Bool) :
    Addressable (serializeUint64 nodeId counter fakeEdges) := by
  have hpad : padNodeId nodeId ≠ [] := by simp [padNodeId,Nat.toDigits_ne_nil]
  unfold serializeUint64
  split
  · refine serializeKey_addressable (List.cons_ne_nil _ _) fun c hc => ?_
    rcases List.mem_cons.mp hc with rfl | hc
    · decide
    · exact padNodeId_ascii hc
  · split
    · refine serializeKey_addressable (List.cons_ne_nil _ _) fun c hc => ?_
      rcases List.mem_cons.mp hc with rfl | hc
      · decide
      · exact padNodeId_ascii hc
    · exact serializeKey_addressable hpad fun c hc => padNodeId_ascii hc

/-- A request names exactly the row key and the column it was built from if and only if the row
key is addressable. -/
theorem requests_addressed (t : TableId) (key : Bytes) (column : Column)
    (hcolumn : column = Concurrency.lock.toColumn ∨ column = Concurrency.indefiniteLock.toColumn ∨
      column = Concurrency.counter) :
    (∀ checkValue put putValue putTimestamp,
      (route (checkAndPut t key column checkValue put putValue putTimestamp) =
        some (.checkAndPut t.name key (buildColumnSpec column)) ↔ Addressable key)) ∧
    (∀ checkValue, (route (checkAndDelete t key column checkValue) =
        some (.checkAndDelete t.name key (buildColumnSpec column)) ↔ Addressable key)) ∧
    (route (deleteCell t key column) =
        some (.deleteColumn t.name key (buildColumnSpec column)) ↔ Addressable key) ∧
    (route (deleteRow t key) = some (.deleteRow t.name key) ↔ Addressable key) ∧
    (∀ size, (route (getIdsRangeRequest t key size) =
        some (.increment t.name key (buildColumnSpec Concurrency.counter)) ↔ Addressable key)) := by
  have hsegment : IsSegment column := by rcases hcolumn with rfl | rfl | rfl <;> decide
  exact ⟨fun _ _ _ _ => route_checkAndPut_iff hsegment _ _ _ _,
    fun _ => route_checkAndDelete_iff hsegment _,route_deleteCell_iff hsegment,
    route_deleteRow_iff,fun _ => route_getIdsRangeRequest_iff _⟩

def sampleTable : TableId := ⟨['t'],by decide,by decide,by decide⟩

theorem requests_addressed_sampleKey :
    (∀ checkValue put putValue putTimestamp,
      (route (checkAndPut sampleTable [107] Concurrency.lock.toColumn checkValue put putValue
        putTimestamp) = some (.checkAndPut ['t'] [107] (buildColumnSpec Concurrency.lock.toColumn)) ↔
        Addressable [107])) ∧ Addressable [107] :=
  ⟨(requests_addressed sampleTable [107] Concurrency.lock.toColumn (Or.inl rfl)).1,by decide⟩

/-- The base64 of this key is `AAAA/AAA`: its lock requests are about the row key of three zero
bytes, and check a column `AAA`. -/
theorem slash_misaddresses_rowKey :
    route (checkAndPut sampleTable [0,0,0,252,0,0] Concurrency.lock.toColumn none
      Concurrency.lock.toColumn (uint64String 1) none) =
        some (.checkAndPut ['t'] [0,0,0] ['A','A','A']) ∧
    route (checkAndPut sampleTable [0,0,0] Concurrency.lock.toColumn none
      Concurrency.lock.toColumn (uint64String 1) none) =
        some (.checkAndPut ['t'] [0,0,0] (buildColumnSpec Concurrency.lock.toColumn)) ∧
    route (checkAndPut sampleTable [0,0,0,252,0,0] Concurrency.lock.toColumn none
      Concurrency.lock.toColumn (uint64String 1) none) ≠
        some (.checkAndPut ['t'] [0,0,0,252,0,0] (buildColumnSpec Concurrency.lock.toColumn)) := by
  decide +kernel

end HBase
end KvdbClient
