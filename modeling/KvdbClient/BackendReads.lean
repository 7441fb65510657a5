import KvdbClient.NewestCells

/-! Reads of any rows, columns and window on the three services: what they return is a lookup of
every selected row by itself. -/
namespace KvdbClient

section Lookup

variable {V : Type} {reg : Registry V} {content content' l : List StoredCell} {columns : Columns}
  {w : Window} {k : Bytes}

theorem mem_matching {x : StoredCell} : x ∈ matching content columns w k ↔
    x ∈ content ∧ x.rowKey = k ∧ columns.Requests x.column ∧ w.Contains (1000*x.timestamp) := by
  rw [matching,List.mem_filter,decide_eq_true_eq]

theorem NewestFirst.sorted_matching (h : NewestFirst content) (c : Column) :
    ((matching content columns w k).filter fun x => x.column = c).Pairwise
      fun x y => y.timestamp < x.timestamp := by
  have hsub : (matching content columns w k).Sublist (content.filter fun x => x.rowKey = k) :=
    List.monotone_filter_right _ fun x hx =>
      decide_eq_true (of_decide_eq_true (p := x.rowKey = k ∧ _) hx).1
  exact h.pairwise_part hsub

theorem NewestFirst.eq_matching_column (h : NewestFirst content) {c : Column}
    (hl : l.Pairwise fun x y => y.timestamp < x.timestamp)
    (hmem : ∀ x, x ∈ l ↔ x ∈ matching content columns w k ∧ x.column = c) :
    l = (matching content columns w k).filter fun x => x.column = c := by
  have : Std.Irrefl fun x y : StoredCell => y.timestamp < x.timestamp :=
    ⟨fun _ => lt_irrefl _⟩
  have hsorted : ((matching content columns w k).filter fun x => x.column = c).Pairwise
      fun x y => y.timestamp < x.timestamp := h.sorted_matching c
  have hperm : l.Perm ((matching content columns w k).filter fun x => x.column = c) :=
    (List.perm_ext_iff_of_nodup hl.nodup hsorted.nodup).mpr fun x => by
      rw [hmem,List.mem_filter,decide_eq_true_eq]
  exact hperm.eq_of_pairwise (fun _ _ _ _ hab hba => absurd hba hab.not_gt) hl hsorted

theorem NewestFirst.nodup (h : NewestFirst content) : content.Nodup :=
  h.imp fun hlt hxy => (hlt (congrArg _ hxy) (congrArg _ hxy)).ne (congrArg _ hxy.symm)

theorem matching_one {c : Column} : (matching content (.one c) w k).filter (fun x => x.column = c) =
    matching content (.one c) w k :=
  List.filter_eq_self.mpr fun x hx => by
    simpa [Columns.Requests,Columns.toList] using requests_of_mem_matching hx

theorem NewestFirst.filter_matching_congr (h : NewestFirst content) (h' : NewestFirst content')
    (hmem : ∀ x, x ∈ content ↔ x ∈ content') (c : Column) :
    (matching content columns w k).filter (fun x => x.column = c) =
      (matching content' columns w k).filter fun x => x.column = c :=
  h'.eq_matching_column (h.sorted_matching c) fun x => by
    rw [List.mem_filter,decide_eq_true_eq,mem_matching,mem_matching,hmem]

theorem NewestFirst.pointLookup_congr (h : NewestFirst content) (h' : NewestFirst content')
    (hmem : ∀ x, x ∈ content ↔ x ∈ content') :
    pointLookup reg content columns w k = pointLookup reg content' columns w k := by
  have hnil : matching content columns w k = [] ↔ matching content' columns w k = [] := by
    simp only [List.eq_nil_iff_forall_not_mem,mem_matching,hmem]
  have hcolumn : ∀ c, (matching content columns w k).filter (fun x => x.column = c) =
      (matching content' columns w k).filter fun x => x.column = c := h.filter_matching_congr h' hmem
  rw [pointLookup,pointLookup,if_congr hnil rfl rfl]
  have hview : viewOf reg columns (matching content columns w k) =
      viewOf reg columns (matching content' columns w k) := by
    cases columns with
    | all | many => simp only [viewOf,hcolumn]
    | one c =>
      have hone := hcolumn c
      rw [matching_one,matching_one] at hone
      simp only [viewOf,hone]
  rw [hview]

end Lookup

section Rows

variable {V : Type} {reg : Registry V} {content : List StoredCell} {columns : Columns} {w : Window}
  {k : Bytes}

theorem HBase.view_rowResult_registered (hcols : columns ≠ .many [])
    (hreg : ∀ x ∈ content, reg.registered x.column = true) :
    (rowResult reg content columns w k).map RowData.view = pointLookup reg content columns w k := by
  have hor : columns.orAll = columns := by
    cases columns with
    | all | one => rfl
    | many cs =>
      cases cs with
      | nil => exact absurd rfl hcols
      | cons c cs => rfl
  by_cases hnil : matching content columns w k = []
  · rw [rowResult,rowCells_eq_matching,hor,if_pos hnil,pointLookup,if_pos hnil]
    rfl
  have hone : ∀ c, columns = .one c → reg.registered c = true := by
    rintro c rfl
    obtain ⟨x,hx⟩ := List.exists_mem_of_ne_nil _ hnil
    obtain ⟨hstored,-,hreq,-⟩ := mem_matching.mp hx
    have hc : x.column = c := by simpa [Columns.Requests,Columns.toList] using hreq
    exact hc ▸ hreg x hstored
  have hknown : known reg (matching content columns w k) = matching content columns w k :=
    List.filter_eq_self.mpr fun x hx => hreg x (mem_matching.mp hx).1
  rw [view_rowResult hone,hor,knownLookup,hknown,pointLookup]

namespace Vast

theorem sortByTime_matching (h : NewestFirst content) {l : List StoredCell} (hl : OfRow k l)
    (hnodup : l.Nodup) (hcells : ∀ x, x ∈ l ↔ ∃ y ∈ matching content columns w k, micros y = x)
    (c : Column) : (sortByTime (versionsIn k c l)).map millis =
      (matching content columns w k).filter fun x => x.column = c := by
  have hmem : ∀ x, x ∈ sortByTime (versionsIn k c l) ↔
      ∃ y ∈ matching content columns w k, y.column = c ∧ micros y = x := fun x => by
    rw [hl.mem_sortByTime,hcells]
    constructor
    · rintro ⟨⟨y,hy,rfl⟩,hc⟩
      exact ⟨y,hy,hc,rfl⟩
    · rintro ⟨y,hy,hc,rfl⟩
      exact ⟨⟨y,hy,rfl⟩,hc⟩
  have hsorted : (sortByTime (versionsIn k c l)).Pairwise fun x y => y.timestamp ≤ x.timestamp := by
    have : Std.Total fun x y : StoredCell => y.timestamp ≤ x.timestamp := ⟨fun _ _ => le_total _ _⟩
    have : IsTrans StoredCell fun x y => y.timestamp ≤ x.timestamp :=
      ⟨fun _ _ _ hxy hyz => le_trans hyz hxy⟩
    exact List.pairwise_insertionSort _ _
  have hdistinct : (sortByTime (versionsIn k c l)).Nodup :=
    (List.perm_insertionSort _ _).nodup_iff.mpr (hnodup.filter _)
  refine h.eq_matching_column ?_ fun x => ?_
  · rw [List.pairwise_map]
    refine (hsorted.and hdistinct).imp_of_mem fun {x y} hx hy hxy => ?_
    obtain ⟨x,hxm,hxc,rfl⟩ := (hmem x).mp hx
    obtain ⟨y,hym,hyc,rfl⟩ := (hmem y).mp hy
    rw [millis_micros,millis_micros]
    obtain ⟨hxs,hxk,-⟩ := mem_matching.mp hxm
    obtain ⟨hys,hyk,-⟩ := mem_matching.mp hym
    have hle : y.timestamp ≤ x.timestamp := by
      have := hxy.1
      simp only [micros] at this
      omega
    refine lt_of_le_of_ne hle fun ht => hxy.2 (congrArg micros ?_)
    exact h.eq_of_timestamp hxs hys (hxk.trans hyk.symm) (hxc.trans hyc.symm) ht.symm
  · simp only [List.mem_map,hmem]
    constructor
    · rintro ⟨_,⟨y,hy,hc,rfl⟩,rfl⟩
      rw [millis_micros]
      exact ⟨hy,hc⟩
    · rintro ⟨hx,hc⟩
      exact ⟨micros x,⟨x,hx,hc,rfl⟩,millis_micros x⟩

theorem view_rowResult (h : NewestFirst content)
    (hreg : ∀ x ∈ content, reg.registered x.column = true) {table l : List StoredCell}
    (htable : table.Perm (inMicros content)) (hl : l.Perm (rowCells reg table columns w k)) :
    (rowResult reg columns l).map RowData.view = pointLookup reg content columns w k := by
  have hperm : l.Perm (rowCells reg (inMicros content) columns w k) := hl.trans (htable.filter _)
  have hcells : ∀ x, x ∈ l ↔ ∃ y ∈ matching content columns w k, micros y = x := fun x => by
    rw [hperm.mem_iff,mem_rowCells_inMicros hreg]
  have hrow : OfRow k l := fun x hx => by
    obtain ⟨y,hy,rfl⟩ := (hcells x).mp hx
    exact ⟨y,(mem_matching.mp hy).2.1,rfl⟩
  have hnodup : l.Nodup := by
    have hmicros : Function.Injective micros := fun x y hxy => by
      rw [← millis_micros x,hxy,millis_micros]
    exact hperm.nodup_iff.mpr ((h.nodup.map hmicros).filter _)
  have hnil : l = [] ↔ matching content columns w k = [] := by
    simp only [List.eq_nil_iff_forall_not_mem,hcells]
    exact ⟨fun h y hy => h _ ⟨y,hy,rfl⟩,fun h _ ⟨y,hy,_⟩ => h y hy⟩
  have hdict : ∀ c, (columnDict reg (sortRows l)).get? c =
      if (matching content columns w k).filter (fun x => x.column = c) = [] then none
      else some (((matching content columns w k).filter fun x => x.column = c).map (returned reg)) :=
    fun c => by rw [hrow.get?_columnDict,sortByTime_matching h hrow hnodup hcells]
  rw [rowResult,pointLookup,if_congr hnil rfl rfl]
  split
  · rfl
  rename_i hne
  cases columns with
  | all | many => exact congrArg (fun g => some (Sum.inl g)) (funext hdict)
  | one c =>
    have hc := hdict c
    rw [matching_one,if_neg hne] at hc
    simp only [Option.map_some,rowData,RowData.view,hc,Option.getD_some,viewOf]

end Vast

end Rows

def Service.Stores (content store : List StoredCell) : Service → Prop
  | .bigTable => store = inMicros content
  | .hbase p => store = content ∧ p.KeepsRows content
  | .vast _ => store.Perm (inMicros content)

/-- Arguments of a read that all backends take: text for row keys, none of them twice, and no list
of columns that is empty or repeats one. -/
structure PortableRead (rows : RowSelection) (columns : Columns) : Prop where
  valid : rows.Valid
  text : Vast.Encodable rows
  keys : ∀ ks ∈ rows.rowKeys, ks.Nodup
  nonempty : columns ≠ .many []
  distinct : BigTable.Distinct columns

/-- The read returns what a lookup has of every selected row. -/
def ReturnsSelected {V : Type} (r : Except ReadError (Dict Bytes (RowData V))) (rows : RowSelection)
    (lookup : Bytes → Option (RowView V)) : Prop :=
  ∃ d, r = .ok d ∧ ∀ k, (d.get? k).map RowData.view = if rows.selects k then lookup k else none

/-- On every service a portable read returns of the selected rows all matching cells, each column
newest first. -/
theorem Service.readByteRows_lookup {V : Type} {reg : Registry V} {content store : List StoredCell}
    (h : NewestFirst content) (hreg : ∀ x ∈ content, reg.registered x.column = true) {b : Service}
    (hb : b.Stores content store) {maxRowKeyCount : ℕ} (hmax : 0 < maxRowKeyCount)
    {rows : RowSelection} {columns : Columns} (hread : PortableRead rows columns) {w : Window}
    (hw : b = .bigTable → w.EndSet) :
    ReturnsSelected (b.readByteRows reg maxRowKeyCount store columns w none rows) rows
      (pointLookup reg content columns w) := by
  cases b with
  | bigTable =>
    obtain rfl : store = inMicros content := hb
    obtain ⟨f,hf⟩ := BigTable.exists_filter hread.nonempty w none
    obtain ⟨d,hd,hget⟩ := BigTable.readByteRows_spec maxRowKeyCount rows hread.valid (fun _ => hmax) hf
      fun k _ => (BigTable.registered_iff (hw rfl) hf).mpr fun x hx => hreg x (mem_matching.mp hx).1
    refine ⟨d,hd,fun k => ?_⟩
    rw [hget,← BigTable.view_rowResult (hw rfl) hread.distinct hf]
    split <;> rfl
  | hbase p =>
    obtain ⟨rfl,hp⟩ := hb
    obtain ⟨d,hd,hget⟩ := HBase.readByteRows_spec reg columns w hp
      (HBase.namesDecodable_of_registered columns w hreg) maxRowKeyCount rows hread.valid
      (fun _ => hmax) none
    refine ⟨d,hd,fun k => ?_⟩
    rw [hget,← HBase.view_rowResult_registered hread.nonempty hreg]
    split <;> rfl
  | vast a =>
    have hstore : ∀ x ∈ store, reg.registered x.column = true := fun x hx =>
      registered_inMicros hreg x (List.Perm.mem_iff hb |>.mp hx)
    obtain ⟨d,hd,hget⟩ := Vast.readByteRows_spec reg a store maxRowKeyCount rows hread.valid
      (fun _ => hmax) hread.text hread.keys hread.nonempty
      (Vast.namesDecodable_of_registered hstore columns w)
    refine ⟨d,hd,fun k => ?_⟩
    obtain ⟨l,hl,hk⟩ := hget k
    rw [hk]
    split at hl
    · rw [if_pos ‹_›]
      exact Vast.view_rowResult h hreg hb hl.1
    · rw [if_neg ‹_›,hl.1.eq_nil]
      rfl

end KvdbClient
