import KvdbClient.NodeReads
import KvdbClient.TimeWindows

/-! The user filter of the operation logs: the rows that a read with `user_id` returns, on the three
backends with the same content. -/
namespace KvdbClient

/-- A table of log rows, with times in milliseconds: its columns have attributes, of which only the
one of the user has its qualifier, and its row keys are text. -/
structure LogTable {V : Type} (reg : Registry V) (content : List StoredCell) : Prop where
  registered : ∀ x ∈ content, reg.registered x.column = true
  user : ∀ x ∈ content, x.column.key = OperationLogs.userId.key →
    x.column = OperationLogs.userId.toColumn
  text : ∀ x ∈ content, x.rowKey.toByteArray.IsValidUTF8

def inMicros (content : List StoredCell) : List StoredCell :=
  content.map fun c => { c with timestamp := 1000*c.timestamp }

theorem registered_inMicros {V : Type} {reg : Registry V} {content : List StoredCell}
    (h : ∀ x ∈ content, reg.registered x.column = true) :
    ∀ x ∈ inMicros content, reg.registered x.column = true := fun c hc => by
  obtain ⟨x,hx,rfl⟩ := List.mem_map.mp hc
  exact h x hx

section Content

variable (content : List StoredCell) (w : Window) (k : Bytes)

def HasUser (userId : Text) : Prop :=
  ∃ x ∈ content, x.rowKey = k ∧ x.column = OperationLogs.userId.toColumn ∧
    x.value = OperationLogs.userId.serialize userId ∧ w.Contains (1000*x.timestamp)

def HasRequested (columns : Columns) : Prop :=
  ∃ x ∈ content, x.rowKey = k ∧ columns.Requests x.column ∧ w.Contains (1000*x.timestamp)

end Content

def ReturnsRows {α : Type} (r : Except ReadError (Dict Bytes α)) (P : Bytes → Prop) : Prop :=
  ∃ d, r = .ok d ∧ ∀ k, k ∈ d.keys ↔ P k

theorem returnsRows_iff {α : Type} {r : Except ReadError (Dict Bytes α)} {P Q : Bytes → Prop}
    (h : ReturnsRows r P) : ReturnsRows r Q ↔ ∀ k, P k ↔ Q k := by
  obtain ⟨d,rfl,hd⟩ := h
  constructor
  · rintro ⟨d',hd',hq⟩ k
    cases hd'
    exact (hd k).symm.trans (hq k)
  · exact fun h => ⟨d,rfl,fun k => (hd k).trans (h k)⟩

section Backends

variable {V : Type} {reg : Registry V} {content : List StoredCell} {maxRowKeyCount : ℕ}
  {rows : RowSelection} {columns : Columns} {w : Window} {userId : Text}

namespace BigTable

theorem mem_apply_getColumnFilter {cs : List Column} {cells : List Cell} {x : Cell} :
    x ∈ (getColumnFilter cs).apply cells ↔ x ∈ cells ∧ x.column ∈ cs := by
  induction cs with
  | nil => simp [getColumnFilter,unionOf,RowFilter.apply]
  | cons c cs ih =>
    cases cs with
    | nil => simp [getColumnFilter,unionOf]
    | cons c' cs =>
      simp only [getColumnFilter,List.map_cons,unionOf,RowFilter.apply,List.mem_append,
        mem_apply_exactColumnFilter] at ih ⊢
      rw [ih,List.mem_cons (b := c)]
      grind

theorem matches_getUserFilter {cells : List Cell} :
    Matches (getUserFilter userId) cells ↔
      ∃ x ∈ cells, x.column.key = OperationLogs.userId.key ∧ x.value = encodeUtf8 userId := by
  have hblock : ¬ Matches .blockAll cells := fun h => h rfl
  have hlimit : ∀ f, Matches (.chain f (.cellsRowLimit 1)) cells ↔ Matches f cells := fun f => by
    simp [Matches,RowFilter.apply]
  rw [getUserFilter,matches_conditional_passAll,or_iff_left hblock]
  refine (hlimit (.chain (.columnQualifierRegex OperationLogs.userId.key)
    (exactValueFilter (encodeUtf8 userId)))).trans (matches_iff.trans (exists_congr fun x => ?_))
  rw [apply_chain,mem_apply_exactValueFilter]
  simp [RowFilter.apply,and_assoc]

theorem mem_apply_timeRangeAndColumn {f : RowFilter}
    (hf : getTimeRangeAndColumnFilter columns w none = .ok f) {cells : List Cell} {x : Cell} :
    x ∈ f.apply cells ↔ x ∈ (getTimeRangeFilter w).apply cells ∧ columns.Requests x.column := by
  simp only [getTimeRangeAndColumnFilter] at hf
  split at hf
  · rename_i hnone
    cases hf
    simp [Columns.Requests,hnone]
  · cases hf
  · rename_i cs _ hsome
    cases hf
    rw [apply_chain,mem_apply_getTimeRangeFilter,mem_apply_getColumnFilter,
      mem_apply_getTimeRangeFilter]
    simp only [Columns.Requests,hsome,Option.mem_def,Option.some.injEq,forall_eq']
    grind

theorem mem_apply_requested (hw : w.EndSet) {f : RowFilter}
    (hf : getTimeRangeAndColumnFilter columns w none = .ok f) {k : Bytes} {x : Cell} :
    x ∈ f.apply (rowCells (inMicros content) k) ↔
      ∃ c ∈ content, c.rowKey = k ∧ columns.Requests c.column ∧ w.Contains (1000*c.timestamp) ∧
        x = ⟨c.column,1000*c.timestamp,c.value⟩ := by
  have hcells : ∀ {y : Cell}, y ∈ rowCells (inMicros content) k ↔
      ∃ c ∈ content, c.rowKey = k ∧ y = ⟨c.column,1000*c.timestamp,c.value⟩ := fun {y} => by
    simp only [rowCells,inMicros,List.mem_map,List.mem_filter,decide_eq_true_eq]
    constructor
    · rintro ⟨_,⟨⟨c,hc,rfl⟩,hk⟩,rfl⟩
      exact ⟨c,hc,hk,rfl⟩
    · rintro ⟨c,hc,hk,rfl⟩
      exact ⟨_,⟨⟨c,hc,rfl⟩,hk⟩,rfl⟩
  rw [mem_apply_timeRangeAndColumn hf,mem_apply_getTimeRangeFilter,hcells]
  constructor
  · rintro ⟨⟨⟨c,hc,hk,rfl⟩,htime⟩,hreq⟩
    exact ⟨c,hc,hk,hreq,(Window.passes_iff hw _).mp htime,rfl⟩
  · rintro ⟨c,hc,hk,hreq,htime,rfl⟩
    exact ⟨⟨⟨c,hc,hk,rfl⟩,(Window.passes_iff hw _).mpr htime⟩,hreq⟩

theorem getTimeRangeAndColumnFilter_user (userId : Text) (w : Window) (hcols : columns ≠ .many []) :
    ∃ f, getTimeRangeAndColumnFilter columns w none = .ok f ∧
      getTimeRangeAndColumnFilter columns w (some userId) = .ok (.chain f (getUserFilter userId)) := by
  cases columns with
  | all | one c => exact ⟨_,rfl,rfl⟩
  | many cs =>
    cases cs with
    | nil => exact absurd rfl hcols
    | cons c cs => exact ⟨_,rfl,rfl⟩

/-- On BigTable the rows that have the user, provided that the user's column is requested. -/
theorem readByteRows_user (h : LogTable reg content) (hw : w.EndSet) (hvalid : rows.Valid)
    (hmax : 0 < maxRowKeyCount) (hcols : columns ≠ .many []) :
    ReturnsRows (readByteRows reg maxRowKeyCount (inMicros content) rows columns w (some userId))
      fun k => rows.selects k = true ∧ columns.Requests OperationLogs.userId.toColumn ∧
        HasUser content w k userId := by
  obtain ⟨f,hf,huser⟩ := getTimeRangeAndColumnFilter_user userId w hcols
  obtain ⟨d,hd,hget⟩ := readByteRows_spec maxRowKeyCount rows hvalid
    (fun _ => hmax) huser fun k _ => registered_of_store (registered_inMicros h.registered) k
  refine ⟨d,hd,fun k => ?_⟩
  have hrow : rowResult reg (inMicros content) columns (.chain f (getUserFilter userId)) k ≠ none ↔
      columns.Requests OperationLogs.userId.toColumn ∧ HasUser content w k userId := by
    have hmatches : rowResult reg (inMicros content) columns (.chain f (getUserFilter userId)) k ≠
        none ↔ Matches (getUserFilter userId) (f.apply (rowCells (inMicros content) k)) := by
      rw [rowResult,Matches,apply_chain]
      split <;> simp [*]
    rw [hmatches,matches_getUserFilter]
    constructor
    · rintro ⟨x,hx,hkey,hvalue⟩
      obtain ⟨c,hc,hck,hreq,htime,rfl⟩ := (mem_apply_requested hw hf).mp hx
      have hcolumn := h.user c hc hkey
      exact ⟨hcolumn ▸ hreq,c,hc,hck,hcolumn,hvalue,htime⟩
    · rintro ⟨hreq,c,hc,hck,hcolumn,hvalue,htime⟩
      exact ⟨_,(mem_apply_requested hw hf).mpr ⟨c,hc,hck,hcolumn ▸ hreq,htime,rfl⟩,
        congrArg Column.key hcolumn,hvalue⟩
  rw [Dict.mem_keys_iff,← Option.ne_none_iff_exists',hget]
  by_cases hs : rows.selects k = true <;> simp [hs,← hrow]

end BigTable

/-- Without the user filter, the rows that have something that is requested. -/
theorem HBase.readByteRows_user {p : Paging} (h : LogTable reg content) (hvalid : rows.Valid)
    (hmax : 0 < maxRowKeyCount) (hcols : columns ≠ .many []) :
    ReturnsRows (readByteRows reg p content columns w maxRowKeyCount rows (some userId))
      fun k => rows.selects k = true ∧ HasRequested content w k columns := by
  obtain ⟨d,hd,hkeys⟩ := mem_keys_readByteRows reg p columns w
    (namesDecodable_of_registered columns w h.registered) maxRowKeyCount rows hvalid (fun _ => hmax)
    (some userId)
  have hreq : ∀ c, (columns.toList.getD [] = [] ∨ c ∈ columns.toList.getD []) ↔ columns.Requests c :=
    fun c => by
      cases columns with
      | all | one c' => simp [Columns.toList,Columns.Requests]
      | many cs =>
        have hne : cs ≠ [] := fun hnil => hcols (by rw [hnil])
        simp [Columns.toList,Columns.Requests,hne]
  refine ⟨d,hd,fun k => (hkeys k).trans (and_congr_right fun _ => ?_)⟩
  rw [rowCells,ne_eq,List.filter_eq_nil_iff]
  simp only [decide_eq_true_eq,admits_iff,lt_upper_iff,hreq,not_forall,not_not,HasRequested,
    Window.Contains,exists_prop]

namespace Vast

variable {a : Arrangement}

variable (a content w userId) in
theorem matchingUserRowKeys_spec (hvalid : rows.Valid) (henc : Encodable rows) :
    ∃ ks, matchingUserRowKeys a (inMicros content) rows userId w = .ok ks ∧ ks.Nodup ∧
      ∀ k, k ∈ ks ↔ rows.selects k = true ∧ HasUser content w k userId := by
  refine ⟨_,by rw [matchingUserRowKeys,rowKeyPredicate_eq hvalid henc]; rfl,?_,fun k => ?_⟩
  · exact (List.perm_insertionSort _ _).nodup_iff.mpr (List.nodup_dedup _)
  · simp only [List.mem_insertionSort,List.mem_dedup,List.mem_map,select,(a.perm _).mem_iff,
      List.mem_filter,inMicros,Bool.and_eq_true,userPredicate,
      decide_eq_true_eq,HasUser]
    constructor
    · rintro ⟨_,⟨⟨c,hc,rfl⟩,⟨hs,ht⟩,hcolumn,hvalue⟩,rfl⟩
      exact ⟨hs,c,hc,rfl,hcolumn,hvalue,(timePredicate_ms w c c.timestamp).mp ht⟩
    · rintro ⟨hs,c,hc,rfl,hcolumn,hvalue,ht⟩
      exact ⟨_,⟨⟨c,hc,rfl⟩,⟨hs,(timePredicate_ms w c c.timestamp).mpr ht⟩,hcolumn,hvalue⟩,rfl⟩

theorem rowCells_ne_nil (h : LogTable reg content) {k : Bytes} :
    rowCells reg (inMicros content) columns w k ≠ [] ↔ HasRequested content w k columns := by
  rw [rowCells,ne_eq,List.filter_eq_nil_iff]
  simp only [decide_eq_true_eq,not_forall,not_not,HasRequested,exists_prop]
  constructor
  · rintro ⟨x,hx,hk,_,hreq,ht⟩
    obtain ⟨c,hc,rfl⟩ := List.mem_map.mp hx
    exact ⟨c,hc,hk,hreq,(timePredicate_ms w c c.timestamp).mp ht⟩
  · rintro ⟨c,hc,hk,hreq,ht⟩
    exact ⟨_,List.mem_map.mpr ⟨c,hc,rfl⟩,hk,h.registered c hc,hreq,
      (timePredicate_ms w c c.timestamp).mpr ht⟩

variable (reg content maxRowKeyCount columns w userId a) in
theorem readByteRows_some (hvalid : rows.Valid) (henc : Encodable rows) :
    ∃ ks, ks.Nodup ∧ (∀ k, k ∈ ks ↔ rows.selects k = true ∧ HasUser content w k userId) ∧
      readByteRows reg a (inMicros content) maxRowKeyCount rows columns w (some userId) =
        readByteRows reg a (inMicros content) maxRowKeyCount (.ofKeys ks) columns w none := by
  obtain ⟨ks,hks,hnodup,hmem⟩ := matchingUserRowKeys_spec content w userId a hvalid henc
  refine ⟨ks,hnodup,hmem,?_⟩
  rw [readByteRows,readByteRows,if_neg (RowSelection.valid_iff.mp hvalid),if_neg (by simp [RowSelection.ofKeys])]
  simp only [userSelection,hks,bind,Except.bind,pure,Except.pure]

/-- On VAST the rows that have the user, and something that is requested. -/
theorem readByteRows_user (h : LogTable reg content) (hvalid : rows.Valid) (henc : Encodable rows)
    (hmax : 0 < maxRowKeyCount) (hcols : columns ≠ .many []) :
    ReturnsRows (readByteRows reg a (inMicros content) maxRowKeyCount rows columns w (some userId))
      fun k => rows.selects k = true ∧ HasUser content w k userId ∧
        HasRequested content w k columns := by
  obtain ⟨ks,hnodup,hmem,hread⟩ :=
    readByteRows_some reg content maxRowKeyCount columns w userId a hvalid henc
  have htext : ∀ k ∈ ks, k.toByteArray.IsValidUTF8 := fun k hk => by
    obtain ⟨_,c,hc,rfl,_⟩ := (hmem k).mp hk
    exact h.text c hc
  obtain ⟨d,hd,hget⟩ := readByteRows_spec reg a (inMicros content) maxRowKeyCount (.ofKeys ks)
    (Or.inl (by simp [RowSelection.ofKeys])) (fun _ => hmax) (by simpa [Encodable,RowSelection.ofKeys])
    (by simpa [RowSelection.ofKeys] using hnodup) hcols
    (namesDecodable_of_registered (registered_inMicros h.registered) columns w)
  refine ⟨d,hread.trans hd,fun k => ?_⟩
  obtain ⟨l,hl,hrow⟩ := hget k
  have hsome : k ∈ d.keys ↔ l ≠ [] := by
    rw [Dict.mem_keys_iff,hrow,rowResult]
    split <;> simp [*]
  have hnil : l = [] ↔ (if (RowSelection.ofKeys ks).selects k then
      rowCells reg (inMicros content) columns w k else []) = [] :=
    ⟨fun h => (h ▸ hl.1).nil_eq.symm,fun h => (h ▸ hl.1).eq_nil⟩
  change _ ↔ _ ∧ _ ∧ _
  rw [hsome,ne_eq,hnil,← and_assoc,← hmem,← rowCells_ne_nil h]
  by_cases hk : k ∈ ks <;> simp [RowSelection.ofKeys,RowSelection.selects,hk]

end Vast

end Backends

/-- Filtering by user returns exactly the selected rows that have the user: on BigTable, whose filter
must get an end, when the user's column is requested or no selected row has the user; on HBase when
having the user is the same as having something that is requested; on VAST when it is enough for
that. -/
theorem userFilter_exact_iff {V : Type} (reg : Registry V) (content : List StoredCell)
    (h : LogTable reg content) (s : NodeSelection) (hs : s.Valid) (userId : Text) (columns : Columns)
    (hcols : columns ≠ .many []) (w : Window) (maxRowKeyCount : ℕ) (hmax : 0 < maxRowKeyCount)
    (p : HBase.Paging) (a : Vast.Arrangement) :
    let rows := s.toRows maxRowKeyCount false
    let exact := fun k => rows.selects k = true ∧ HasUser content w k userId
    (w.EndSet → (ReturnsRows (BigTable.readByteRows reg maxRowKeyCount (inMicros content) rows columns
        w (some userId)) exact ↔
      columns.Requests OperationLogs.userId.toColumn ∨
        ∀ k, rows.selects k = true → ¬ HasUser content w k userId)) ∧
    (ReturnsRows (HBase.readByteRows reg p content columns w maxRowKeyCount rows (some userId))
        exact ↔
      ∀ k, rows.selects k = true → (HasRequested content w k columns ↔ HasUser content w k userId)) ∧
    (ReturnsRows (Vast.readByteRows reg a (inMicros content) maxRowKeyCount rows columns w
        (some userId)) exact ↔
      ∀ k, rows.selects k = true → HasUser content w k userId → HasRequested content w k columns) := by
  intro rows exact
  have hvalid := hs.toRows maxRowKeyCount false
  refine ⟨fun hw => ?_,?_,?_⟩
  · rw [returnsRows_iff (BigTable.readByteRows_user h hw hvalid hmax hcols)]
    by_cases hreq : columns.Requests OperationLogs.userId.toColumn
    · simp [hreq,exact,rows]
    · simp [hreq,exact,rows]
  · rw [returnsRows_iff (HBase.readByteRows_user h hvalid hmax hcols)]
    exact forall_congr' fun k => and_congr_right_iff
  · rw [returnsRows_iff (Vast.readByteRows_user h hvalid (s.encodable_toRows _ _) hmax hcols)]
    refine forall_congr' fun k => ?_
    rw [and_congr_right_iff]
    exact forall_congr' fun _ => and_iff_left_iff_imp

instance (content : List StoredCell) (w : Window) (k : Bytes) (userId : Text) :
    Decidable (HasUser content w k userId) :=
  inferInstanceAs (Decidable (∃ x ∈ content, _))

instance (content : List StoredCell) (w : Window) (k : Bytes) (columns : Columns) :
    Decidable (HasRequested content w k columns) :=
  inferInstanceAs (Decidable (∃ x ∈ content, _))

def twoUsers : List StoredCell :=
  [⟨serializeUint64 1 false false,OperationLogs.userId.toColumn,1,encodeUtf8 ['a']⟩,
    ⟨serializeUint64 1 false false,OperationLogs.rootId,1,[1]⟩,
    ⟨serializeUint64 2 false false,OperationLogs.userId.toColumn,1,encodeUtf8 ['b']⟩,
    ⟨serializeUint64 2 false false,OperationLogs.rootId,1,[2]⟩]

def usersOnly : Registry Bytes :=
  .ofColumns [OperationLogs.userId.toColumn,OperationLogs.rootId] (by decide +kernel)

theorem logTable_twoUsers : LogTable usersOnly twoUsers where
  registered := by decide
  user x hx hkey := by
    simp only [twoUsers,List.mem_cons,List.not_mem_nil,or_false] at hx
    rcases hx with rfl | rfl | rfl | rfl
    · rfl
    · exact absurd hkey (by decide)
    · rfl
    · exact absurd hkey (by decide)
  text x hx := by
    simp only [twoUsers,List.mem_cons,List.not_mem_nil,or_false] at hx
    rcases hx with rfl | rfl | rfl | rfl
    exacts [serializeUint64_isValidUTF8 1 false,serializeUint64_isValidUTF8 1 false,
      serializeUint64_isValidUTF8 2 false,serializeUint64_isValidUTF8 2 false]

theorem userFilter_exact_iff_twoUsers :
    let rows := (NodeSelection.ofRange 0 2 true).toRows 1000 false
    let exact := fun k => rows.selects k = true ∧ HasUser twoUsers .unbounded k ['a']
    ReturnsRows (BigTable.readByteRows usersOnly 1000
      (inMicros twoUsers) rows .all .unbounded (some ['a'])) exact ∧
    ReturnsRows (Vast.readByteRows usersOnly .storage
      (inMicros twoUsers) 1000 rows .all .unbounded (some ['a'])) exact := by
  have hexact := userFilter_exact_iff _ twoUsers logTable_twoUsers (.ofRange 0 2 true)
    (Or.inr ⟨by simp [NodeSelection.ofRange],by simp [NodeSelection.ofRange]⟩) ['a'] .all (by simp)
    .unbounded 1000 (by norm_num) .whole .storage
  refine ⟨(hexact.1 Window.unbounded_endSet).mpr (Or.inl (by simp [Columns.Requests,Columns.toList])),
    hexact.2.2.mpr fun k _ huser => ?_⟩
  obtain ⟨x,hx,hk,_,_,ht⟩ := huser
  exact ⟨x,hx,hk,by simp [Columns.Requests,Columns.toList],ht⟩

/-- HBase returns the rows of both users, and BigTable none when the user's column is not among those
requested. -/
theorem twoUsers_not_exact :
    ¬ ReturnsRows (HBase.readByteRows usersOnly .whole twoUsers
        .all .unbounded 1000 ((NodeSelection.ofRange 0 2 true).toRows 1000 false) (some ['a']))
      (fun k => ((NodeSelection.ofRange 0 2 true).toRows 1000 false).selects k = true ∧
        HasUser twoUsers .unbounded k ['a']) ∧
    ¬ ReturnsRows (BigTable.readByteRows usersOnly 1000
        (inMicros twoUsers) ((NodeSelection.ofRange 0 2 true).toRows 1000 false)
        (.one OperationLogs.rootId) .unbounded (some ['a']))
      (fun k => ((NodeSelection.ofRange 0 2 true).toRows 1000 false).selects k = true ∧
        HasUser twoUsers .unbounded k ['a']) := by
  constructor
  · rintro ⟨d,hd,hkeys⟩
    have hreturned : serializeUint64 2 false false ∈ d.keys := by
      have hkeys' : (HBase.readByteRows usersOnly .whole twoUsers .all .unbounded 1000
          ((NodeSelection.ofRange 0 2 true).toRows 1000 false) (some ['a'])).toOption.map Dict.keys =
            some [serializeUint64 1 false false,serializeUint64 2 false false] := by decide +kernel
      rw [hd] at hkeys'
      exact Option.some.inj hkeys' ▸ List.mem_cons_of_mem _ (List.mem_singleton_self _)
    exact absurd ((hkeys _).mp hreturned).2 (by decide +kernel)
  · rintro ⟨d,hd,hkeys⟩
    have hreturned : serializeUint64 1 false false ∈ d.keys :=
      (hkeys _).mpr ⟨by decide +kernel,by decide +kernel⟩
    have hkeys' : (BigTable.readByteRows usersOnly 1000
        (inMicros twoUsers) ((NodeSelection.ofRange 0 2 true).toRows 1000 false)
        (.one OperationLogs.rootId) .unbounded (some ['a'])).toOption.map Dict.keys = some [] := by
      decide +kernel
    rw [hd] at hkeys'
    rw [Option.some.inj hkeys'] at hreturned
    cases hreturned

end KvdbClient
