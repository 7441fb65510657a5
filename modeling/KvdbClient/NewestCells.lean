import KvdbClient.FullTableReads
import KvdbClient.KeyReads
import KvdbClient.RangeReads
import KvdbClient.RootExtension
import KvdbClient.VastChunks

/-! Reads of a list of columns on the three services, for callers that take the first cell of every
column. -/
namespace KvdbClient

def IsNewest (cells : List StoredCell) (c : Column) (x : StoredCell) : Prop :=
  x ∈ cells ∧ x.column = c ∧ ∀ y ∈ cells, y.column = c → y.timestamp ≤ x.timestamp

/-- Of these cells a dictionary is returned, if there are any, that lists in every column a newest
cell first. -/
def StartsWithNewest {V : Type} (reg : Registry V) (cells : List StoredCell)
    (r : Option (RowData V)) : Prop :=
  if cells = [] then r = none
  else ∃ d, r = some (.columns d) ∧ ∀ c, (d.get? c).elim (∀ x ∈ cells, x.column ≠ c) fun l =>
    ∃ x, IsNewest cells c x ∧ l.head? = some (returned reg x)

theorem StartsWithNewest.ne_nil {V : Type} {reg : Registry V} {cells : List StoredCell}
    {row : RowData V} (h : StartsWithNewest reg cells (some row)) : cells ≠ [] := fun hnil => by
  simp [StartsWithNewest,hnil] at h

theorem StartsWithNewest.exists_columns {V : Type} {reg : Registry V} {cells : List StoredCell}
    {r : Option (RowData V)} (h : StartsWithNewest reg cells r) (hne : cells ≠ []) :
    ∃ d, r = some (.columns d) ∧ ∀ c, (d.get? c).elim (∀ x ∈ cells, x.column ≠ c) fun l =>
      ∃ x, IsNewest cells c x ∧ l.head? = some (returned reg x) := by
  rwa [StartsWithNewest,if_neg hne] at h

theorem StartsWithNewest.select {V : Type} {reg : Registry V} {cells : List StoredCell}
    {r : Option (RowData V)} (h : StartsWithNewest reg cells r) (selected : Bool) :
    StartsWithNewest reg (if selected then cells else []) (if selected then r else none) := by
  cases selected with
  | true => exact h
  | false => rfl

section Rows

variable {V : Type} {reg : Registry V} {content : List StoredCell} {cs : List Column} {w : Window}
  {k : Bytes}

theorem elim_of_list {cells l : List StoredCell} {c : Column}
    (hmem : ∀ x, x ∈ l ↔ x ∈ cells ∧ x.column = c)
    (hfirst : ∀ x ∈ l.head?, ∀ y ∈ l, y.timestamp ≤ x.timestamp) :
    (if l = [] then none else some (l.map (returned reg))).elim (∀ x ∈ cells, x.column ≠ c)
      fun l => ∃ x, IsNewest cells c x ∧ l.head? = some (returned reg x) := by
  cases l with
  | nil => exact fun x hx hc => absurd ((hmem x).mpr ⟨hx,hc⟩) (by simp)
  | cons x l =>
    obtain ⟨hx,hc⟩ := (hmem x).mp List.mem_cons_self
    exact ⟨x,⟨hx,hc,fun y hy hyc => hfirst x rfl y ((hmem y).mpr ⟨hy,hyc⟩)⟩,rfl⟩

theorem head_of_pairwise {l : List StoredCell} (h : l.Pairwise fun x y => y.timestamp ≤ x.timestamp) :
    ∀ x ∈ l.head?, ∀ y ∈ l, y.timestamp ≤ x.timestamp := by
  intro x hx y hy
  cases l with
  | nil => cases hy
  | cons z l =>
    obtain rfl : z = x := Option.some.inj hx
    rcases List.mem_cons.mp hy with rfl | hy
    · exact le_rfl
    · exact List.rel_of_pairwise_cons h hy

theorem NewestFirst.pairwise_matching (h : NewestFirst content) (columns : Columns) (c : Column) :
    ((matching content columns w k).filter fun x => x.column = c).Pairwise
      fun x y => y.timestamp ≤ x.timestamp := by
  have hsub : (matching content columns w k).Sublist (content.filter fun x => x.rowKey = k) :=
    List.monotone_filter_right _ fun x hx =>
      decide_eq_true (of_decide_eq_true (p := x.rowKey = k ∧ _) hx).1
  exact (h.pairwise_part hsub).imp le_of_lt

theorem NewestFirst.head_copies (h : NewestFirst content) {columns : Columns} {c : Column} :
    ∀ x ∈ (copies content columns w k c).head?, ∀ y ∈ copies content columns w k c,
      y.timestamp ≤ x.timestamp := by
  intro x hx y hy
  have hy : y ∈ (matching content columns w k).filter fun x => x.column = c :=
    List.mem_filter.mpr ((mem_copies.mp hy).imp_right decide_eq_true)
  refine head_of_pairwise (h.pairwise_matching columns c) x ?_ y hy
  rw [copies] at hx
  cases hn : columns.copies c with
  | zero => simp [hn] at hx
  | succ n =>
    rw [hn,List.replicate_succ,List.flatten_cons] at hx
    rwa [List.head?_append_of_ne_nil _ (List.ne_nil_of_mem hy)] at hx

theorem BigTable.rowResult_startsWithNewest (h : NewestFirst content) (hw : w.EndSet) {f : RowFilter}
    (hf : getTimeRangeAndColumnFilter (.many cs) w none = .ok f) :
    StartsWithNewest reg (matching content (.many cs) w k)
      (rowResult reg (inMicros content) (.many cs) f k) := by
  rw [StartsWithNewest,rowResult]
  by_cases hnil : matching content (.many cs) w k = []
  · rw [if_pos hnil,if_pos ((apply_eq_nil_iff hw hf).mpr hnil)]
  · rw [if_neg hnil,if_neg fun h => hnil ((apply_eq_nil_iff hw hf).mp h)]
    refine ⟨_,rfl,fun c => ?_⟩
    rw [get?_columnDict hw hf]
    exact elim_of_list (fun x => mem_copies) h.head_copies

theorem HBase.rowResult_startsWithNewest (h : NewestFirst content) (hcols : cs ≠ [])
    (hreg : ∀ x ∈ content, reg.registered x.column = true) :
    StartsWithNewest reg (matching content (.many cs) w k) (rowResult reg content (.many cs) w k) := by
  have hor : (Columns.many cs).orAll = .many cs := by
    cases cs with
    | nil => exact absurd rfl hcols
    | cons c cs => rfl
  have hknown : known reg (matching content (.many cs) w k) = matching content (.many cs) w k :=
    List.filter_eq_self.mpr fun x hx => hreg x (List.mem_filter.mp hx).1
  have hview : (rowResult reg content (.many cs) w k).map RowData.view =
      knownLookup reg content (Columns.many cs).orAll w k :=
    view_rowResult fun c hc => by cases hc
  rw [hor,knownLookup,hknown] at hview
  rw [StartsWithNewest]
  split at hview
  · rename_i hnil
    rw [if_pos hnil]
    simpa using hview
  · rename_i hne
    rw [if_neg hne]
    obtain ⟨row,hrow,hview⟩ := Option.map_eq_some_iff.mp hview
    cases row with
    | cells l => cases hview
    | columns d =>
      refine ⟨d,hrow,fun c => ?_⟩
      have hget : d.get? c = _ := congrFun (Sum.inl.inj hview) c
      rw [hget]
      refine elim_of_list (fun x => ?_) (head_of_pairwise (h.pairwise_matching _ c))
      rw [List.mem_filter,decide_eq_true_eq]

namespace Vast

def micros (x : StoredCell) : StoredCell := { x with timestamp := 1000*x.timestamp }

def millis (x : StoredCell) : StoredCell := { x with timestamp := x.timestamp/1000 }

theorem millis_micros (x : StoredCell) : millis (micros x) = x := by
  obtain ⟨rowKey,column,timestamp,value⟩ := x
  simp [millis,micros]

theorem mem_rowCells_inMicros (hreg : ∀ x ∈ content, reg.registered x.column = true)
    {columns : Columns} {x : StoredCell} :
    x ∈ rowCells reg (inMicros content) columns w k ↔
      ∃ y ∈ matching content columns w k, micros y = x := by
  simp only [rowCells,inMicros,matching,List.mem_filter,List.mem_map,decide_eq_true_eq]
  constructor
  · rintro ⟨⟨y,hy,rfl⟩,hk,_,hreq,ht⟩
    exact ⟨y,⟨hy,hk,hreq,(timePredicate_ms w y y.timestamp).mp ht⟩,rfl⟩
  · rintro ⟨y,⟨hy,hk,hreq,ht⟩,rfl⟩
    exact ⟨⟨y,hy,rfl⟩,hk,hreg y hy,hreq,(timePredicate_ms w y y.timestamp).mpr ht⟩

/-- What arrived, of one row and with times in microseconds. -/
def OfRow (k : Bytes) (l : List StoredCell) : Prop := ∀ x ∈ l, ∃ y, y.rowKey = k ∧ micros y = x

theorem OfRow.filter_eq {l : List StoredCell} (hl : OfRow k l) (c : Column) :
    l.filter (fun x => x.column = c) = versionsIn k c l := by
  refine List.filter_congr fun x hx => ?_
  obtain ⟨y,hk,rfl⟩ := hl x hx
  simp [micros,hk]

theorem OfRow.mem_sortByTime {l : List StoredCell} (hl : OfRow k l) {c : Column} {x : StoredCell} :
    x ∈ sortByTime (versionsIn k c l) ↔ x ∈ l ∧ x.column = c := by
  rw [sortByTime,List.mem_insertionSort,← hl.filter_eq,List.mem_filter,decide_eq_true_eq]

theorem OfRow.get?_columnDict {l : List StoredCell} (hl : OfRow k l) (c : Column) :
    (columnDict reg (sortRows l)).get? c =
      if (sortByTime (versionsIn k c l)).map millis = [] then none
      else some (((sortByTime (versionsIn k c l)).map millis).map (returned reg)) := by
  have hsort : (sortRows l).filter (fun x => x.column = c) = sortByTime (versionsIn k c l) := by
    rw [filter_sortRows,hl.filter_eq,sortRows_versionsIn]
  rw [columnDict,Dict.get?_mapValues,Dict.get?_group,hsort]
  simp only [List.map_eq_nil_iff]
  split
  · rfl
  · simp only [Option.map_some,List.map_map]
    refine congrArg some (List.map_congr_left fun x hx => ?_)
    obtain ⟨hxl,rfl⟩ := hl.mem_sortByTime.mp hx
    obtain ⟨y,_,rfl⟩ := hl x hxl
    rw [Function.comp_apply,millis_micros]
    rfl

/-- The client sorts what arrives of a row, in whatever order and however often it does. -/
theorem rowResult_startsWithNewest (hreg : ∀ x ∈ content, reg.registered x.column = true)
    {l : List StoredCell} (hl : ∀ x, x ∈ l ↔ x ∈ rowCells reg (inMicros content) (.many cs) w k) :
    StartsWithNewest reg (matching content (.many cs) w k) (rowResult reg (.many cs) l) := by
  have hcells : ∀ x, x ∈ l ↔ ∃ y ∈ matching content (.many cs) w k, micros y = x := fun x => by
    rw [hl,mem_rowCells_inMicros hreg]
  have hrow : OfRow k l := fun x hx => by
    obtain ⟨y,hy,rfl⟩ := (hcells x).mp hx
    exact ⟨y,(of_decide_eq_true (List.mem_filter.mp hy).2).1,rfl⟩
  have hnil : l = [] ↔ matching content (.many cs) w k = [] := by
    simp only [List.eq_nil_iff_forall_not_mem,hcells]
    exact ⟨fun h y hy => h _ ⟨y,hy,rfl⟩,fun h _ ⟨y,hy,_⟩ => h y hy⟩
  rw [StartsWithNewest,rowResult,if_congr hnil rfl rfl]
  split
  · rfl
  refine ⟨_,rfl,fun c => ?_⟩
  rw [hrow.get?_columnDict]
  refine elim_of_list (fun x => ?_) (head_of_pairwise ?_)
  · simp only [List.mem_map,hrow.mem_sortByTime,hcells]
    constructor
    · rintro ⟨_,⟨⟨y,hy,rfl⟩,hc⟩,rfl⟩
      rw [millis_micros]
      exact ⟨hy,hc⟩
    · rintro ⟨hx,hc⟩
      exact ⟨micros x,⟨⟨x,hx,rfl⟩,hc⟩,millis_micros x⟩
  · have : Std.Total fun x y : StoredCell => y.timestamp ≤ x.timestamp := ⟨fun _ _ => le_total _ _⟩
    have : IsTrans StoredCell fun x y => y.timestamp ≤ x.timestamp :=
      ⟨fun _ _ _ hxy hyz => le_trans hyz hxy⟩
    exact (List.pairwise_insertionSort _ _).map millis fun _ _ h =>
      Int.ediv_le_ediv (by norm_num) h

end Vast

end Rows

/-- The content behind a service; only HBase counts milliseconds. -/
def Service.table (content : List StoredCell) : Service → List StoredCell
  | .hbase _ => content
  | .bigTable | .vast _ => inMicros content

/-- The first two services deliver the newest version first, and HBase keeps rows whole. -/
def Service.DeliversNewest (content : List StoredCell) : Service → Prop
  | .bigTable => NewestFirst content
  | .hbase p => NewestFirst content ∧ p.KeepsRows content
  | .vast _ => True

section Clients

variable {V : Type} (reg : Registry V) (maxRowKeyCount : ℕ) (store : List StoredCell)
  (columns : Columns) (w : Window) (userId : Option Text) (b : Service)

def Service.readByteRows (rows : RowSelection) : Except ReadError (Dict Bytes (RowData V)) :=
  match b with
  | .bigTable => BigTable.readByteRows reg maxRowKeyCount store rows columns w userId
  | .hbase p => HBase.readByteRows reg p store columns w maxRowKeyCount rows userId
  | .vast a => Vast.readByteRows reg a store maxRowKeyCount rows columns w userId

def Service.readNodes (s : NodeSelection) : Except ReadError (Dict ℕ (RowData V)) :=
  KvdbClient.readNodes (b.readByteRows reg maxRowKeyCount store columns w userId) maxRowKeyCount s
    false

variable {reg maxRowKeyCount b} {content : List StoredCell} {cs : List Column} {rows : RowSelection}

theorem BigTable.readByteRows_newest (h : NewestFirst content) (hw : w.EndSet) (hmax : 0 < maxRowKeyCount)
    (hreg : ∀ x ∈ content, reg.registered x.column = true) (hne : Columns.many cs ≠ .many [])
    (hvalid : rows.Valid) :
    ∃ d, readByteRows reg maxRowKeyCount (inMicros content) rows (.many cs) w none = .ok d ∧
      ∀ k, StartsWithNewest reg (if rows.selects k then matching content (.many cs) w k else [])
        (d.get? k) := by
  obtain ⟨f,hf⟩ := exists_filter hne w none
  obtain ⟨d,hd,hget⟩ := readByteRows_spec maxRowKeyCount rows hvalid (fun _ => hmax) hf
    fun k _ => registered_of_store (registered_inMicros hreg) k
  refine ⟨d,hd,fun k => ?_⟩
  rw [hget]
  exact (rowResult_startsWithNewest h hw hf).select _

theorem HBase.readByteRows_newest {p : Paging} (h : NewestFirst content) (hp : p.KeepsRows content)
    (hmax : 0 < maxRowKeyCount) (hreg : ∀ x ∈ content, reg.registered x.column = true)
    (hcols : cs ≠ []) (hvalid : rows.Valid) :
    ∃ d, readByteRows reg p content (.many cs) w maxRowKeyCount rows none = .ok d ∧
      ∀ k, StartsWithNewest reg (if rows.selects k then matching content (.many cs) w k else [])
        (d.get? k) := by
  obtain ⟨d,hd,hget⟩ := readByteRows_spec reg (.many cs) w hp
    (namesDecodable_of_registered _ w hreg) maxRowKeyCount rows hvalid (fun _ => hmax) none
  refine ⟨d,hd,fun k => ?_⟩
  rw [hget]
  exact (rowResult_startsWithNewest h hcols hreg).select _

theorem Vast.readByteRows_cells (reg : Registry V) (a : Arrangement) (table : List StoredCell)
    {columns : Columns} (hne : columns ≠ .many []) {w : Window}
    (hnames : NamesDecodable table columns w) (hmax : 0 < maxRowKeyCount)
    (hvalid : rows.Valid) (henc : Encodable rows) :
    ∃ d, readByteRows reg a table maxRowKeyCount rows columns w none = .ok d ∧
      ∀ k, ∃ l, d.get? k = rowResult reg columns l ∧ ∀ x, x ∈ l ↔
        rows.selects k = true ∧ x ∈ rowCells reg table columns w k := by
  cases hkeys : rows.rowKeys with
  | none =>
    obtain ⟨d,hd,hget⟩ := readByteRows_spec reg a table maxRowKeyCount rows hvalid (fun _ => hmax) henc
      (fun ks hks => by simp [hkeys] at hks) hne hnames
    refine ⟨d,hd,fun k => ?_⟩
    obtain ⟨l,hl,hk⟩ := hget k
    refine ⟨l,hk,fun x => hl.1.mem_iff.trans ?_⟩
    split <;> simp [*]
  | some ks =>
    have hks : ∀ k ∈ ks, k.toByteArray.IsValidUTF8 := by simpa [Encodable,hkeys] using henc
    obtain ⟨raw,d,hd,hraw,hget⟩ := readByteRows_copies reg a table hmax hks hne w
    have hok : decodeNames raw = .ok () := decodeNames_of_decodable fun x hx => by
      obtain ⟨hx,hadmits⟩ := List.mem_filter.mp ((hraw x).mp hx)
      obtain ⟨-,hq,ht⟩ := of_decide_eq_true hadmits
      exact hnames x hx hq ht
    rw [hok] at hd
    refine ⟨d,(readByteRows_of_rowKeys reg maxRowKeyCount hkeys columns w).trans hd,
      fun k => ?_⟩
    obtain ⟨l,hk,hl⟩ := hget k
    refine ⟨l,hk,fun x => hl.1.mem_iff.trans ?_⟩
    have hpos : 0 < ((chunked maxRowKeyCount ks).countP fun chunk => k ∈ chunk) ↔ k ∈ ks :=
      countP_chunked_pos_iff hmax
    simp only [RowSelection.selects,hkeys,decide_eq_true_eq,List.mem_flatten,List.mem_replicate,
      ← hpos,← Nat.pos_iff_ne_zero]
    constructor
    · rintro ⟨_,⟨hn,rfl⟩,hx⟩
      exact ⟨hn,hx⟩
    · rintro ⟨hn,hx⟩
      exact ⟨_,⟨hn,rfl⟩,hx⟩

theorem Vast.readByteRows_newest (a : Arrangement) (hmax : 0 < maxRowKeyCount)
    (hreg : ∀ x ∈ content, reg.registered x.column = true) (hne : Columns.many cs ≠ .many [])
    (hvalid : rows.Valid) (henc : Encodable rows) :
    ∃ d, readByteRows reg a (inMicros content) maxRowKeyCount rows (.many cs) w none = .ok d ∧
      ∀ k, StartsWithNewest reg (if rows.selects k then matching content (.many cs) w k else [])
        (d.get? k) := by
  obtain ⟨d,hd,hget⟩ := readByteRows_cells reg a (inMicros content) hne
    (namesDecodable_of_registered (registered_inMicros hreg) _ w) hmax hvalid henc
  refine ⟨d,hd,fun k => ?_⟩
  obtain ⟨l,hk,hl⟩ := hget k
  rw [hk]
  by_cases hsel : rows.selects k = true
  · rw [if_pos hsel]
    exact rowResult_startsWithNewest hreg fun x => (hl x).trans (and_iff_right hsel)
  · have hnil : l = [] := List.eq_nil_iff_forall_not_mem.mpr fun x hx => hsel ((hl x).mp hx).1
    rw [if_neg hsel,hnil]
    rfl

theorem Service.readByteRows_newest (hb : b.DeliversNewest content)
    (hw : b = .bigTable → w.EndSet) (hmax : 0 < maxRowKeyCount)
    (hreg : ∀ x ∈ content, reg.registered x.column = true) (hcols : cs ≠ [])
    (hvalid : rows.Valid) (henc : Vast.Encodable rows) :
    ∃ d, b.readByteRows reg maxRowKeyCount (b.table content) (.many cs) w none rows = .ok d ∧
      ∀ k, StartsWithNewest reg (if rows.selects k then matching content (.many cs) w k else [])
        (d.get? k) := by
  have hne : Columns.many cs ≠ .many [] := by simpa using hcols
  cases b with
  | bigTable => exact BigTable.readByteRows_newest w hb (hw rfl) hmax hreg hne hvalid
  | hbase p => exact HBase.readByteRows_newest w hb.1 hb.2 hmax hreg hcols hvalid
  | vast a => exact Vast.readByteRows_newest w a hmax hreg hne hvalid henc

theorem Service.readNodes_newest (hb : b.DeliversNewest content)
    (hw : b = .bigTable → w.EndSet) (hmax : 0 < maxRowKeyCount)
    (hreg : ∀ x ∈ content, reg.registered x.column = true) (hcols : cs ≠ []) {s : NodeSelection}
    (hvalid : s.Valid)
    (hkeys : ∀ x ∈ content, (s.toRows maxRowKeyCount false).selects x.rowKey = true →
      ∃ id < 2^64, x.rowKey = serializeUint64 id false false) :
    ∃ r, b.readNodes reg maxRowKeyCount (b.table content) (.many cs) w none s = .ok r ∧
      ∀ id, StartsWithNewest reg
        (if (s.toRows maxRowKeyCount false).selects (serializeUint64 id false false) then
          matching content (.many cs) w (serializeUint64 id false false) else []) (r.get? id) := by
  obtain ⟨d,hd,hget⟩ := Service.readByteRows_newest w hb hw hmax hreg hcols (hvalid.toRows _ _)
    (s.encodable_toRows _ _)
  obtain ⟨r,hr,hid⟩ := readNodes_spec (b.readByteRows reg maxRowKeyCount (b.table content) (.many cs) w
    none) hd fun k hk => by
      obtain ⟨v,hv⟩ := Dict.mem_keys_iff.mp hk
      obtain ⟨x,hx⟩ := List.exists_mem_of_ne_nil _ (StartsWithNewest.ne_nil (hv ▸ hget k))
      split at hx
      · rename_i hsel
        obtain ⟨hstored,hxk⟩ := List.mem_filter.mp hx
        obtain rfl := (of_decide_eq_true hxk).1
        exact hkeys x hstored hsel
      · cases hx
  exact ⟨r,hr,fun id => by rw [hid]; exact hget _⟩

end Clients

end KvdbClient
