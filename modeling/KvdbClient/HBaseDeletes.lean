import KvdbClient.HBaseWire
import KvdbClient.StoredCells

/-! Deletes by URL: what the requests of HBase's `delete_cells` take away from a table, whichever
row their paths come to name. A table has its timestamps in milliseconds. -/
namespace KvdbClient

/-- The arguments of `delete_cells`; no time is before 1970. -/
structure Deletion where
  mutations : List (Bytes × Column × List ℤ)
  rowKeysToDelete : List Bytes
  declared : ∀ m ∈ mutations, AttributeArray.DeclaredColumn m.2.1
  notBefore1970 : ∀ m ∈ mutations, ∀ ts ∈ m.2.2, 0 ≤ ts

namespace Deletion

/-- The cells to be deleted: those of the listed times, floored to the millisecond, and those of the
listed rows. -/
def Names (d : Deletion) (x : StoredCell) : Prop :=
  (∃ m ∈ d.mutations, x.rowKey = m.1 ∧ x.column = m.2.1 ∧
    ∃ ts ∈ m.2.2, 1000*x.timestamp = floorMs ts) ∨ x.rowKey ∈ d.rowKeysToDelete

instance (d : Deletion) (x : StoredCell) : Decidable (d.Names x) :=
  inferInstanceAs (Decidable ((∃ m ∈ d.mutations, _ ∧ _ ∧ ∃ ts ∈ m.2.2, _) ∨ _))

def left (d : Deletion) (table : List StoredCell) : List StoredCell :=
  table.filter fun x => !decide (d.Names x)

def Uses (d : Deletion) (k : Bytes) : Prop :=
  (∃ m ∈ d.mutations, m.1 = k ∧ m.2.2 ≠ []) ∨ k ∈ d.rowKeysToDelete

end Deletion

theorem foldl_filter {α β : Type} (q : α → β → Bool) (l : List α) (t : List β) :
    l.foldl (fun t a => t.filter fun x => !q a x) t = t.filter fun x => !l.any fun a => q a x := by
  induction l generalizing t with
  | nil => simp
  | cons a l ih =>
    rw [List.foldl_cons,ih,List.filter_filter]
    refine List.filter_congr fun x _ => ?_
    rw [List.any_cons,Bool.not_or,Bool.and_comm]

theorem filter_not_eq_iff {α : Type} {p q : α → Bool} :
    (∀ l : List α, (l.filter fun x => !p x) = l.filter fun x => !q x) ↔ ∀ x, p x = q x := by
  constructor
  · intro h x
    have hx := h [x]
    cases hp : p x <;> cases hq : q x <;> simp [hp,hq] at hx ⊢
  · intro h l
    exact List.filter_congr fun x _ => congrArg _ (h x)

namespace HBase

open Base64 Wire

def decimal (n : ℤ) : Text :=
  if n < 0 then '-'::Nat.toDigits 10 n.natAbs else Nat.toDigits 10 n.natAbs

def deleteVersion (t : TableId) (rowKey : Bytes) (column : Column) (tsMs : ℤ) : HttpRequest where
  method := .delete
  url := tableUrl t ('/'::encodeValue rowKey ++ '/'::(buildColumnSpec column ++ '/'::decimal tsMs))
  json := none

def deleteRequests (t : TableId) (d : Deletion) : List HttpRequest :=
  (d.mutations.flatMap fun m => m.2.2.map fun ts => deleteVersion t m.1 m.2.1 (toHbaseTs ts)) ++
    d.rowKeysToDelete.map (deleteRow t)

/-- The server's `int(parts[3])`. -/
def parseTs (text : Text) : Option ℤ :=
  if text.all Char.isDigit then some (Nat.ofDigitChars 10 text 0) else none

def columnOf (colSpec : Text) : Option Column :=
  match splitSpec colSpec with
  | .ok parts => some ⟨parts.1,encodeUtf8 parts.2⟩
  | .error _ => none

/-- What the server takes away; a path that it reads as the schema drops the table. -/
def removes (t : TableId) (x : StoredCell) : Option Target → Bool
  | some (.deleteRow table rowKey) => decide (table = t.name ∧ x.rowKey = rowKey)
  | some (.deleteColumn table rowKey colSpec) =>
    decide (table = t.name ∧ x.rowKey = rowKey ∧ columnOf colSpec = some x.column)
  | some (.deleteVersion table rowKey colSpec tsMs) =>
    decide (table = t.name ∧ x.rowKey = rowKey ∧ columnOf colSpec = some x.column ∧
      parseTs tsMs = some x.timestamp)
  | some (.schema table) => decide (table = t.name)
  | _ => false

/-- `delete_cells`; what the server answers is not looked at. -/
def deleteCells (t : TableId) (table : List StoredCell) (d : Deletion) : List StoredCell :=
  (deleteRequests t d).foldl (fun table r => table.filter fun x => !removes t x (route r)) table

theorem buildColumnSpec_getItem {a : AttributeArray} (ha : a ∈ AttributeArray.all) (i : ℕ) :
    buildColumnSpec (a.getItem i).toColumn =
      colSpec (a.getItem i).toColumn (a.pattern ++ Nat.toDigits 10 i) ∧
    ∀ c ∈ a.pattern ++ Nat.toDigits 10 i, c ≠ '/' ∧ c ≠ '?' ∧ c ≠ '#' := by
  have hpatterns : ∀ a ∈ AttributeArray.all, (a.pattern.all fun c =>
      decide (c.toNat < 128 ∧ c ≠ '/' ∧ c ≠ '?' ∧ c ≠ '#')) = true := by decide
  have hpattern : ∀ c ∈ a.pattern, c.toNat < 128 ∧ c ≠ '/' ∧ c ≠ '?' ∧ c ≠ '#' := fun c hc =>
    of_decide_eq_true (List.all_eq_true.mp (hpatterns a ha) c hc)
  have hdigit : ∀ c ∈ Nat.toDigits 10 i, c.toNat < 128 ∧ c ≠ '/' ∧ c ≠ '?' ∧ c ≠ '#' := by
    intro c hc
    have hd := Nat.isDigit_of_mem_toDigits (by norm_num) (by norm_num) hc
    have hnat := Char.isDigit_iff_toNat.mp hd
    have h9 : '9'.toNat = 57 := rfl
    refine ⟨by omega,?_,?_,?_⟩ <;> (rintro rfl; exact absurd hd (by decide))
  have hchar : ∀ c ∈ a.pattern ++ Nat.toDigits 10 i, c.toNat < 128 ∧ c ≠ '/' ∧ c ≠ '?' ∧ c ≠ '#' :=
    fun c hc => (List.mem_append.mp hc).elim (hpattern c) (hdigit c)
  refine ⟨?_,fun c hc => (hchar c hc).2⟩
  rw [buildColumnSpec,colSpec,AttributeArray.getItem,
    decodeAscii_encodeUtf8 fun c hc => (hchar c hc).1]

theorem declared_spec {c : Column} (h : AttributeArray.DeclaredColumn c) :
    IsSegment c ∧ columnOf (buildColumnSpec c) = some c := by
  rcases h with ⟨s,hs,rfl⟩ | ⟨a,ha,i,rfl⟩
  · have hsingle : ∀ s ∈ singleAttributes,
        IsSegment s.toColumn ∧ columnOf (buildColumnSpec s.toColumn) = some s.toColumn := by
      decide +kernel
    exact hsingle s hs
  · obtain ⟨hspec,hchar⟩ := buildColumnSpec_getItem ha i
    have hfamily : ∀ a ∈ AttributeArray.all, ':' ∉ a.familyId ∧
        (a.familyId.all fun c => decide (c ≠ '/' ∧ c ≠ '?' ∧ c ≠ '#')) = true := by decide
    constructor
    · intro x hx
      rw [hspec,colSpec] at hx
      rcases List.mem_append.mp hx with hx | hx
      · exact of_decide_eq_true (List.all_eq_true.mp (hfamily a ha).2 x hx)
      · rcases List.mem_cons.mp hx with rfl | hx
        · decide
        · exact hchar x hx
    · rw [hspec,columnOf,splitSpec_colSpec (hfamily a ha).1]
      rfl

theorem decimal_of_nonneg {n : ℤ} (h : 0 ≤ n) : decimal n = Nat.toDigits 10 n.natAbs := by
  rw [decimal,if_neg h.not_gt]

theorem mem_decimal {n : ℤ} (h : 0 ≤ n) {c : Char} (hc : c ∈ decimal n) : c.isDigit = true := by
  rw [decimal_of_nonneg h] at hc
  exact Nat.isDigit_of_mem_toDigits (by norm_num) (by norm_num) hc

theorem parseTs_decimal {n : ℤ} (h : 0 ≤ n) : parseTs (decimal n) = some n := by
  rw [parseTs,if_pos (List.all_eq_true.mpr fun c hc => mem_decimal h hc),decimal_of_nonneg h]
  simp [Int.natAbs_of_nonneg h]

theorem columnOf_decimal {n : ℤ} (h : 0 ≤ n) : columnOf (decimal n) = none := by
  have hdrop : (decimal n).dropWhile (· != ':') = [] :=
    List.dropWhile_eq_nil_iff.mpr fun c hc => bne_iff_ne.mpr fun he =>
      absurd (he ▸ mem_decimal h hc) (by decide)
  rw [columnOf,splitSpec,hdrop]

section Paths

variable (t : TableId) (key : Bytes) {column : Column} {ts : ℤ}

theorem route_deleteVersion (hcolumn : IsSegment column) (hts : 0 ≤ ts) :
    route (deleteVersion t key column ts) =
      doDelete (t.name::(pathParts (encodeValue key) ++ [buildColumnSpec column,decimal ts])) := by
  have hdigit : ∀ c ∈ decimal ts, c ≠ '/' ∧ c ≠ '?' ∧ c ≠ '#' := fun c hc => by
    have hd := mem_decimal hts hc
    refine ⟨?_,?_,?_⟩ <;> (rintro rfl; exact absurd hd (by decide))
  have hurl : (deleteVersion t key column ts).url = cellUrl t key column ++ '/'::decimal ts := by
    simp [deleteVersion,cellUrl,tableUrl]
  have hplain : ∀ c ∈ (deleteVersion t key column ts).url, c ≠ '?' ∧ c ≠ '#' := by
    intro c hc
    rw [hurl,List.mem_append,List.mem_cons] at hc
    rcases hc with hc | rfl | hc
    · exact cellUrl_no_delimiter t key hcolumn c hc
    · decide
    · exact (hdigit c hc).2
  have hparts : pathParts (deleteVersion t key column ts).url =
      t.name::(pathParts (encodeValue key) ++ [buildColumnSpec column,decimal ts]) := by
    rw [deleteVersion,List.cons_append,pathParts_tableUrl,pathParts_append_slash,
      pathParts_append_slash,
      pathParts_segment (a := buildColumnSpec column) (by simp [buildColumnSpec])
        fun h => (hcolumn _ h).1 rfl,
      pathParts_segment (a := decimal ts) (by simp [decimal_of_nonneg hts,Nat.toDigits_ne_nil])
        fun h => (hdigit _ h).1 rfl]
    rfl
  simp only [route,urlparse_of_no_delimiter hplain,hparts]
  rfl

variable {t key}

theorem removes_deleteVersion_iff (hkey : Addressable key)
    (hcolumn : AttributeArray.DeclaredColumn column) (hts : 0 ≤ ts) {x : StoredCell} :
    removes t x (route (deleteVersion t key column ts)) = true ↔
      x.rowKey = key ∧ x.column = column ∧ x.timestamp = ts := by
  obtain ⟨hsegment,hspec⟩ := declared_spec hcolumn
  obtain ⟨hschema,hscanner⟩ := encodeValue_ne_reserved key
  have hroute : route (deleteVersion t key column ts) =
      some (.deleteVersion t.name key (buildColumnSpec column) (decimal ts)) := by
    rw [route_deleteVersion t key hsegment hts,pathParts_encodeValue hkey]
    simp [doDelete,hschema,hscanner]
  simp only [hroute,removes,hspec,parseTs_decimal hts,decide_eq_true_eq,true_and,Option.some.injEq]
  exact and_congr_right fun _ => and_congr eq_comm eq_comm

theorem removes_deleteRow_iff (hkey : Addressable key) {x : StoredCell} :
    removes t x (route (deleteRow t key)) = true ↔ x.rowKey = key := by
  simp [route_deleteRow_iff.mpr hkey,removes]

/-- Without a row part the column takes its place, and the time the column's: no such column is. -/
theorem not_removes_without_row {rest : List Text}
    (hrest : rest = [] ∨ ∃ colSpec, rest = [colSpec,decimal ts] ∧ ':' ∈ colSpec) (hts : 0 ≤ ts)
    {x : StoredCell} : ¬ removes t x (doDelete (t.name::rest)) = true := by
  intro h
  rcases hrest with rfl | ⟨colSpec,rfl,hcolon⟩
  · cases h
  · have hreserved : colSpec ≠ schemaPart ∧ colSpec ≠ scannerPart := by
      constructor <;> (rintro rfl; exact absurd hcolon (by decide))
    simp only [doDelete,hreserved,if_false,false_and] at h
    split at h
    · cases h
    · rename_i hnil
      cases hnil
    · rename_i hone
      obtain ⟨rfl,-⟩ := List.cons.inj hone
      simp [removes,columnOf_decimal hts] at h
    · rename_i htwo
      cases htwo

/-- A path whose row part does not decode to the key is the schema's, or that of a shorter key. -/
theorem removes_of_not_addressable (hkey : ¬ Addressable key) {rest : List Text}
    (hrest : rest = [] ∨ ∃ colSpec, rest = [colSpec,decimal ts] ∧ ':' ∈ colSpec) (hts : 0 ≤ ts)
    {x : StoredCell}
    (h : removes t x (doDelete (t.name::(pathParts (encodeValue key) ++ rest))) = true) :
    (∀ y, removes t y (doDelete (t.name::(pathParts (encodeValue key) ++ rest))) = true) ∨
      x.rowKey.length < key.length := by
  cases hparts : pathParts (encodeValue key) with
  | nil =>
    rw [hparts,List.nil_append] at h
    exact absurd h (not_removes_without_row hrest hts)
  | cons part parts =>
    rw [hparts,List.cons_append] at h
    have hmem : part ∈ pathParts (encodeValue key) := hparts ▸ List.mem_cons_self
    obtain ⟨hsub,hno⟩ := sublist_of_mem_splitOn (List.mem_filter.mp hmem).1
    have hslash : '/' ∈ b64encode key := by
      by_contra hnone
      refine hkey ⟨?_,fun hall => hnone (slash_mem_b64encode_iff.mpr hall)⟩
      rintro rfl
      simp [encodeValue,b64encode,sextets,padding] at hmem
    have hdecode : b64decode part = some x.rowKey → x.rowKey.length < key.length :=
      length_lt_of_slash_removed hsub hno hslash
    rw [List.cons_append]
    simp only [doDelete] at h ⊢
    split at h
    · rename_i hschema
      exact Or.inl fun y => by simp [hschema,removes]
    · refine Or.inr ?_
      split at h
      · cases h
      · split at h
        · cases h
        · rename_i hrow _
          obtain ⟨-,rfl⟩ := of_decide_eq_true h
          exact hdecode hrow
        · rename_i hrow _
          obtain ⟨-,rfl,-⟩ := of_decide_eq_true h
          exact hdecode hrow
        · rename_i hrow _
          obtain ⟨-,rfl,-⟩ := of_decide_eq_true h
          exact hdecode hrow

end Paths

theorem toHbaseTs_eq_iff {ts n : ℤ} (h : 0 ≤ ts) : n = toHbaseTs ts ↔ 1000*n = floorMs ts := by
  rw [toHbaseTs,Int.tdiv_eq_ediv_of_nonneg h,floorMs]
  omega

theorem toHbaseTs_nonneg {ts : ℤ} (h : 0 ≤ ts) : 0 ≤ toHbaseTs ts := by
  rw [toHbaseTs,Int.tdiv_eq_ediv_of_nonneg h]
  omega

section Deletes

variable (t : TableId) (d : Deletion)

theorem deleteCells_eq (table : List StoredCell) : deleteCells t table d =
    table.filter fun x => !(deleteRequests t d).any fun r => removes t x (route r) :=
  foldl_filter (fun r x => removes t x (route r)) (deleteRequests t d) table

theorem exact_iff_removes : (∀ table, deleteCells t table d = d.left table) ↔
    ∀ x, (∃ r ∈ deleteRequests t d, removes t x (route r) = true) ↔ d.Names x := by
  simp only [deleteCells_eq,Deletion.left]
  rw [filter_not_eq_iff]
  refine forall_congr' fun x => ?_
  rw [Bool.eq_iff_iff,List.any_eq_true,decide_eq_true_eq]

theorem exists_removes_iff (h : ∀ k, d.Uses k → Addressable k) (x : StoredCell) :
    (∃ r ∈ deleteRequests t d, removes t x (route r) = true) ↔ d.Names x := by
  have hversion : ∀ m ∈ d.mutations, ∀ ts ∈ m.2.2,
      (removes t x (route (deleteVersion t m.1 m.2.1 (toHbaseTs ts))) = true ↔
        x.rowKey = m.1 ∧ x.column = m.2.1 ∧ 1000*x.timestamp = floorMs ts) := fun m hm ts hts => by
    have hpos := d.notBefore1970 m hm ts hts
    have hkey := h m.1 (Or.inl ⟨m,hm,rfl,List.ne_nil_of_mem hts⟩)
    rw [removes_deleteVersion_iff hkey (d.declared m hm) (toHbaseTs_nonneg hpos),
      toHbaseTs_eq_iff hpos]
  constructor
  · rintro ⟨r,hr,hremoves⟩
    rcases List.mem_append.mp hr with hr | hr
    · obtain ⟨m,hm,hr⟩ := List.mem_flatMap.mp hr
      obtain ⟨ts,hts,rfl⟩ := List.mem_map.mp hr
      obtain ⟨hrow,hcolumn,htime⟩ := (hversion m hm ts hts).mp hremoves
      exact Or.inl ⟨m,hm,hrow,hcolumn,ts,hts,htime⟩
    · obtain ⟨k,hk,rfl⟩ := List.mem_map.mp hr
      exact Or.inr ((removes_deleteRow_iff (h k (Or.inr hk))).mp hremoves ▸ hk)
  · rintro (⟨m,hm,hrow,hcolumn,ts,hts,htime⟩ | hrow)
    · exact ⟨_,List.mem_append_left _ (List.mem_flatMap.mpr ⟨m,hm,List.mem_map.mpr ⟨ts,hts,rfl⟩⟩),
        (hversion m hm ts hts).mpr ⟨hrow,hcolumn,htime⟩⟩
    · exact ⟨_,List.mem_append_right _ (List.mem_map.mpr ⟨_,hrow,rfl⟩),
        (removes_deleteRow_iff (h _ (Or.inr hrow))).mpr rfl⟩

variable {t d}

/-- A request that takes away a cell of a row was made for that row, unless it drops the table or
was made for a longer key, which is not addressable. -/
theorem row_of_removes {r : HttpRequest} (hr : r ∈ deleteRequests t d) {x : StoredCell}
    (h : removes t x (route r) = true) :
    ∃ k, d.Uses k ∧ (Addressable k → x.rowKey = k) ∧
      (¬ Addressable k → (∀ y, removes t y (route r) = true) ∨ x.rowKey.length < k.length) := by
  rcases List.mem_append.mp hr with hr | hr
  · obtain ⟨m,hm,hr⟩ := List.mem_flatMap.mp hr
    obtain ⟨ts,hts,rfl⟩ := List.mem_map.mp hr
    have hpos := toHbaseTs_nonneg (d.notBefore1970 m hm ts hts)
    have hcolumn := d.declared m hm
    refine ⟨m.1,Or.inl ⟨m,hm,rfl,List.ne_nil_of_mem hts⟩,fun hkey => ?_,fun hkey => ?_⟩
    · exact ((removes_deleteVersion_iff hkey hcolumn hpos).mp h).1
    · rw [route_deleteVersion t m.1 (declared_spec hcolumn).1 hpos] at h ⊢
      exact removes_of_not_addressable hkey (Or.inr ⟨_,rfl,by simp [buildColumnSpec]⟩) hpos h
  · obtain ⟨k,hk,rfl⟩ := List.mem_map.mp hr
    refine ⟨k,Or.inr hk,fun hkey => (removes_deleteRow_iff hkey).mp h,fun hkey => ?_⟩
    rw [route_deleteRow,← List.append_nil (pathParts (encodeValue k))] at h ⊢
    exact removes_of_not_addressable hkey (Or.inl rfl) (le_refl (0 : ℤ)) h

variable (d) in
theorem exists_length_le : ∃ B, ∀ k, d.Uses k → k.length ≤ B := by
  obtain ⟨B,hB⟩ := Finset.exists_le
    ((d.mutations.map Prod.fst ++ d.rowKeysToDelete).map List.length).toFinset
  refine ⟨B,fun k hk => hB _ (List.mem_toFinset.mpr (List.mem_map.mpr ⟨k,?_,rfl⟩))⟩
  rcases hk with ⟨m,hm,rfl,-⟩ | hk
  · exact List.mem_append_left _ (List.mem_map.mpr ⟨m,hm,rfl⟩)
  · exact List.mem_append_right _ hk

theorem exists_named {k : Bytes} (hk : d.Uses k) : ∃ x, x.rowKey = k ∧ d.Names x := by
  rcases hk with ⟨m,hm,rfl,hne⟩ | hk
  · obtain ⟨ts,tss,hts⟩ := List.exists_cons_of_ne_nil hne
    have hmem : ts ∈ m.2.2 := hts ▸ List.mem_cons_self
    exact ⟨⟨m.1,m.2.1,toHbaseTs ts,[]⟩,rfl,Or.inl ⟨m,hm,rfl,rfl,ts,hmem,
      (toHbaseTs_eq_iff (d.notBefore1970 m hm ts hmem)).mp rfl⟩⟩
  · exact ⟨⟨k,Concurrency.lock.toColumn,0,[]⟩,rfl,Or.inr hk⟩

variable (d) in
theorem exists_not_named : ∃ y, ¬ d.Names y := by
  obtain ⟨k,hk⟩ := Infinite.exists_notMem_finset
    (d.mutations.map Prod.fst ++ d.rowKeysToDelete).toFinset
  rw [List.mem_toFinset,List.mem_append,not_or] at hk
  refine ⟨⟨k,Concurrency.lock.toColumn,0,[]⟩,?_⟩
  rintro (⟨m,hm,hrow,-⟩ | hrow)
  · exact hk.1 (List.mem_map.mpr ⟨m,hm,hrow.symm⟩)
  · exact hk.2 hrow

/-- A row key that is used but not addressable is missed: its request could only be made for a
longer one of them, and there is a longest. -/
theorem addressable_of_exact
    (h : ∀ x, (∃ r ∈ deleteRequests t d, removes t x (route r) = true) ↔ d.Names x) {k : Bytes}
    (hk : d.Uses k) : Addressable k := by
  obtain ⟨B,hB⟩ := exists_length_le d
  -- induction on how much longer a key that is used can be
  have hnone : ∀ n k, d.Uses k → ¬ Addressable k → ¬ B < k.length+n := by
    intro n
    induction n with
    | zero =>
      intro k hk _ hlong
      have := hB k hk
      omega
    | succ n ih =>
      intro k hk hnot hlong
      obtain ⟨x,rfl,hx⟩ := exists_named hk
      obtain ⟨r,hr,hremoves⟩ := (h x).mpr hx
      obtain ⟨k',hk',haddressable,hmissed⟩ := row_of_removes hr hremoves
      by_cases hkey : Addressable k'
      · exact hnot (haddressable hkey ▸ hkey)
      · rcases hmissed hkey with hall | hlt
        · obtain ⟨y,hy⟩ := exists_not_named d
          exact hy ((h y).mp ⟨r,hr,hall y⟩)
        · exact ih k' hk' hkey (by omega)
  by_contra hnot
  exact hnone (B+1) k hk hnot (by omega)

/-- HBase leaves every table without exactly the named cells if and only if all row keys that are
used are addressable. -/
theorem deletesExactly_iff :
    (∀ table, deleteCells t table d = d.left table) ↔ ∀ k, d.Uses k → Addressable k := by
  rw [exact_iff_removes]
  exact ⟨fun h k hk => addressable_of_exact h hk,exists_removes_iff t d⟩

end Deletes

end HBase
end KvdbClient
