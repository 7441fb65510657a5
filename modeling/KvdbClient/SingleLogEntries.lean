import KvdbClient.LogEntries

/-! Log records that are read one at a time, `read_log_entry` in `base.py`, beside those that are read
together, on any two of the services. -/
namespace KvdbClient

/-- `read_log_entry`: nothing for an operation without a log. -/
def readLogEntry {V : Type} (client : Client V) (operationId : ℕ) :
    Except LogError (Option (LogEntry V)) :=
  match client.readNode operationId (.many OperationLogs.all) .unbounded with
  | .error e => .error (.read e)
  | .ok row => if row.isEmpty then .ok none else (logEntry row).map some

def LogEntry.view {V : Type} (e : LogEntry V) : (Column → Option V) × (V ⊕ ℤ) :=
  (e.columns.get?,e.timestamp)

section Records

variable {V : Type} {reg : Registry V} {cells : List StoredCell}

/-- No two cells of a column have one time. -/
def Dated (cells : List StoredCell) : Prop :=
  ∀ c x y, IsNewest cells c x → IsNewest cells c y → x = y

theorem NewestFirst.dated_matching {content : List StoredCell} (h : NewestFirst content)
    (columns : Columns) (w : Window) (k : Bytes) : Dated (matching content columns w k) := by
  intro c x y ⟨hx,hxc,hxle⟩ ⟨hy,hyc,hyle⟩
  obtain ⟨hxmem,hxk⟩ := List.mem_filter.mp hx
  obtain ⟨hymem,hyk⟩ := List.mem_filter.mp hy
  have hrow : x.rowKey = y.rowKey :=
    (of_decide_eq_true hxk).1.trans (of_decide_eq_true hyk).1.symm
  have hcol : x.column = y.column := hxc.trans hyc.symm
  have hapart : content.Pairwise fun x y => x.rowKey = y.rowKey → x.column = y.column →
      x.timestamp ≠ y.timestamp := h.imp fun hlt hk hc => (hlt hk hc).ne'
  have : Std.Symm fun x y : StoredCell => x.rowKey = y.rowKey → x.column = y.column →
      x.timestamp ≠ y.timestamp := ⟨fun _ _ hxy hk hc ht => hxy hk.symm hc.symm ht.symm⟩
  by_contra hne
  exact hapart.forall hxmem hymem hne hrow hcol (le_antisymm (hyle x hx hxc) (hxle y hy hyc))

theorem heads_eq (hdated : Dated cells) {d d' : Dict Column (List (Cell V))}
    (hd : ∀ c, (d.get? c).elim (∀ x ∈ cells, x.column ≠ c) fun l =>
      ∃ x, IsNewest cells c x ∧ l.head? = some (returned reg x))
    (hd' : ∀ c, (d'.get? c).elim (∀ x ∈ cells, x.column ≠ c) fun l =>
      ∃ x, IsNewest cells c x ∧ l.head? = some (returned reg x)) (c : Column) :
    (d.get? c).map List.head? = (d'.get? c).map List.head? := by
  have hc := hd c
  have hc' := hd' c
  revert hc hc'
  cases d.get? c with
  | none =>
    cases d'.get? c with
    | none => exact fun _ _ => rfl
    | some l' =>
      rintro hnone ⟨x,⟨hx,hxc,-⟩,-⟩
      exact absurd hxc (hnone x hx)
  | some l =>
    cases d'.get? c with
    | none =>
      rintro ⟨x,⟨hx,hxc,-⟩,-⟩ hnone
      exact absurd hxc (hnone x hx)
    | some l' =>
      rintro ⟨x,hx,hl⟩ ⟨y,hy,hl'⟩
      obtain rfl := hdated c x y hx hy
      simp [hl,hl']

theorem entryTimestamp_congr {d d' : Dict Column (List (Cell V))}
    (h : ∀ c, (d.get? c).map List.head? = (d'.get? c).map List.head?) :
    entryTimestamp d = entryTimestamp d' := by
  have hfirst : ∀ c, firstCell d c = firstCell d' c := by
    intro c
    have hc := h c
    rw [firstCell,firstCell]
    revert hc
    cases d.get? c with
    | none =>
      cases d'.get? c with
      | none => exact fun _ => rfl
      | some l' => exact fun hc => by cases hc
    | some l =>
      cases d'.get? c with
      | none => exact fun hc => by cases hc
      | some l' =>
        intro hc
        have hhead : l.head? = l'.head? := Option.some.inj hc
        cases l <;> cases l' <;> simp_all
  rw [entryTimestamp,entryTimestamp,hfirst,hfirst]

/-- Rows of the same cells make the same record, or raise the same `KeyError`. -/
theorem logEntry_agree (hdated : Dated cells) {row row' : RowData V}
    (h : StartsWithNewest reg cells (some row)) (h' : StartsWithNewest reg cells (some row')) :
    (∃ e e', logEntry row = .ok e ∧ logEntry row' = .ok e' ∧ e.view = e'.view) ∨
      logEntry row = .error (.key OperationLogs.rootId) ∧
        logEntry row' = .error (.key OperationLogs.rootId) := by
  obtain ⟨d,hrow,hd⟩ := h.exists_columns h.ne_nil
  obtain ⟨d',hrow',hd'⟩ := h'.exists_columns h'.ne_nil
  obtain rfl := Option.some.inj hrow
  obtain rfl := Option.some.inj hrow'
  rcases logEntry_cases h with ⟨htimed,e,he,hshows⟩ | ⟨htimed,he⟩
  · obtain ⟨-,e',he',hshows'⟩ := (logEntry_cases h').resolve_right fun herror => herror.1 htimed
    refine Or.inl ⟨e,e',he,he',Prod.ext (funext fun c => ?_) ?_⟩
    · have hc := hshows c
      have hc' := hshows' c
      revert hc hc'
      change _ → _ → e.columns.get? c = e'.columns.get? c
      cases e.columns.get? c with
      | none =>
        cases e'.columns.get? c with
        | none => exact fun _ _ => rfl
        | some v' =>
          rintro hnone ⟨x,⟨hx,hxc,-⟩,-⟩
          exact absurd hxc (hnone x hx)
      | some v =>
        cases e'.columns.get? c with
        | none =>
          rintro ⟨x,⟨hx,hxc,-⟩,-⟩ hnone
          exact absurd hxc (hnone x hx)
        | some v' =>
          rintro ⟨x,hx,rfl⟩ ⟨y,hy,rfl⟩
          rw [hdated c x y hx hy]
    · have htime := entryTimestamp_congr (heads_eq hdated hd hd')
      have hof : ∀ {d : Dict Column (List (Cell V))} {e : LogEntry V},
          logEntry (.columns d) = .ok e → entryTimestamp d = .ok e.timestamp := by
        intro d e he
        rw [logEntry] at he
        cases ht : entryTimestamp d with
        | error _ =>
          rw [ht] at he
          cases he
        | ok t =>
          rw [ht] at he
          cases hr : d.traverse (fun _ => firstValue) with
          | error _ =>
            simp only [hr,bind,Except.bind] at he
            cases he
          | ok r =>
            simp only [hr,bind,Except.bind,pure,Except.pure] at he
            cases he
            rfl
      exact Except.ok.inj ((hof he).symm.trans (htime.trans (hof he')))
  · obtain ⟨-,he'⟩ := (logEntry_cases h').resolve_left fun hok => htimed hok.1
    exact Or.inr ⟨he,he'⟩

end Records

section Calls

variable {V : Type} {reg : Registry V} {content : List StoredCell} {b : Service}
  {maxRowKeyCount : ℕ} {cs : List Column}

theorem Service.readNode_newest (hb : b.DeliversNewest content) (hmax : 0 < maxRowKeyCount)
    (hreg : ∀ x ∈ content, reg.registered x.column = true) (hcols : cs ≠ []) (tableMeta : Option V)
    {w : Window} (hw : b = .bigTable → w.EndSet) (id : ℕ) :
    ∃ r, (b.client reg maxRowKeyCount tableMeta (b.table content)).readNode id (.many cs) w =
        .ok (r.getD (.columns .empty)) ∧
      StartsWithNewest reg (matching content (.many cs) w (serializeUint64 id false false)) r := by
  have hne : Columns.many cs ≠ .many [] := by simpa using hcols
  cases b with
  | bigTable =>
    obtain ⟨f,hf⟩ := BigTable.exists_filter hne w none
    exact ⟨_,BigTable.readByteRow_spec hf (BigTable.registered_of_store (registered_inMicros hreg) _),
      BigTable.rowResult_startsWithNewest hb (hw rfl) hf⟩
  | hbase p =>
    exact ⟨_,HBase.readByteRow_ok reg (.many cs) w hb.2
      (HBase.namesDecodable_of_registered _ w hreg) hmax _,
      HBase.rowResult_startsWithNewest hb.1 hcols hreg⟩
  | vast a =>
    obtain ⟨l,hl,hread⟩ := Vast.readByteRow_spec reg a (inMicros content) hmax
      (serializeUint64_isValidUTF8 id false) hne fun x hx _ hq ht =>
        Vast.namesDecodable_of_registered (registered_inMicros hreg) _ w x hx hq ht
    exact ⟨_,hread,Vast.rowResult_startsWithNewest hreg fun x => hl.1.mem_iff⟩

theorem readLogEntry_cases (hnewest : NewestFirst content) (hb : b.DeliversNewest content)
    (hmax : 0 < maxRowKeyCount) (hreg : ∀ x ∈ content, reg.registered x.column = true)
    (tableMeta : Option V) {id : ℕ} {r : Option (RowData V)}
    (h : StartsWithNewest reg (matching content (.many OperationLogs.all) .unbounded
      (serializeUint64 id false false)) r) :
    r = none ∧ readLogEntry (b.client reg maxRowKeyCount tableMeta (b.table content)) id = .ok none ∨
    (∃ row e e', r = some row ∧ logEntry row = .ok e ∧
      readLogEntry (b.client reg maxRowKeyCount tableMeta (b.table content)) id = .ok (some e') ∧
      e.view = e'.view) ∨
    ∃ row, r = some row ∧ logEntry row = .error (.key OperationLogs.rootId) ∧
      readLogEntry (b.client reg maxRowKeyCount tableMeta (b.table content)) id =
        .error (.key OperationLogs.rootId) := by
  obtain ⟨r',hread,h'⟩ := Service.readNode_newest hb hmax hreg
    (show OperationLogs.all ≠ [] from List.cons_ne_nil _ _) tableMeta
    (fun _ => Window.unbounded_endSet) id
  rw [readLogEntry,hread]
  cases r with
  | none =>
    have hnil : matching content (.many OperationLogs.all) .unbounded
        (serializeUint64 id false false) = [] := by
      by_contra hne
      obtain ⟨_,hsome,-⟩ := h.exists_columns hne
      cases hsome
    rw [hnil] at h'
    obtain rfl : r' = none := by simpa [StartsWithNewest] using h'
    exact Or.inl ⟨rfl,rfl⟩
  | some row =>
    have hne := h.ne_nil
    obtain ⟨d,rfl,hd⟩ := h'.exists_columns hne
    have hnonempty : (RowData.columns d).isEmpty = false := by
      obtain ⟨x,hx⟩ := List.exists_mem_of_ne_nil _ hne
      have hc := hd x.column
      cases hget : d.get? x.column with
      | none =>
        rw [hget] at hc
        exact absurd rfl (hc x hx)
      | some l =>
        have hmem := Dict.get?_eq_some.mp hget
        cases he : d.entries with
        | nil => simp [he] at hmem
        | cons e es => simp [RowData.isEmpty,he]
    have hmatch : ∀ row : RowData V, row.isEmpty = false → (if row.isEmpty then .ok none
        else (logEntry row).map some : Except LogError (Option (LogEntry V))) =
          (logEntry row).map some := fun row hrow => by simp [hrow]
    simp only [Option.getD_some,hmatch _ hnonempty]
    rcases logEntry_agree (hnewest.dated_matching _ _ _) h h' with ⟨e,e',he,he',hview⟩ | ⟨he,he'⟩
    · exact Or.inr (Or.inl ⟨row,e,e',rfl,he,by rw [he']; rfl,hview⟩)
    · exact Or.inr (Or.inr ⟨row,rfl,he,by rw [he']; rfl⟩)

end Calls

/-- Records that are read together on one service are those that are read one at a time on another,
and the loop raises only what the single call raises for one of the operations. -/
theorem readLogEntries_single {V : Type} (reg : Registry V) (content : List StoredCell)
    (hkinds : OfKinds reg content) (hnewest : NewestFirst content) {b b' : Service}
    (hb : b.DeliversNewest content) (hb' : b'.DeliversNewest content) {maxRowKeyCount : ℕ}
    (hmax : 0 < maxRowKeyCount) (tableMeta : Option V) (counters : Bytes → ℕ)
    (hlast : IdAllocation.getMaxOperationId counters < 2^64) {ids : List ℕ}
    (hids : ∀ id ∈ ids, id < 2^64) :
    match readLogEntries reg maxRowKeyCount (b.table content) counters b (some ids) none none
      .unbounded with
    | .ok d => ∀ id, (id ∈ ids → ∃ e, readLogEntry (b'.client reg maxRowKeyCount tableMeta
          (b'.table content)) id = .ok e ∧ e.map LogEntry.view = (d.get? id).map LogEntry.view) ∧
        (id ∉ ids → d.get? id = none)
    | .error e => e = .key OperationLogs.rootId ∧ ∃ id ∈ ids,
        readLogEntry (b'.client reg maxRowKeyCount tableMeta (b'.table content)) id =
          .error (.key OperationLogs.rootId) := by
  obtain ⟨logs,hlogs,hget⟩ := readNodes_logSelection hkinds hb hmax hlast
    (show ∀ l ∈ some ids, ∀ id ∈ l, id < 2^64 by simpa using hids)
    (show OperationLogs.all ≠ [] from List.cons_ne_nil _ _) fun _ => Window.unbounded_endSet
  have hread : readLogEntries reg maxRowKeyCount (b.table content) counters b (some ids) none none
      .unbounded = logs.traverse fun _ => logEntry := by
    rw [readLogEntries]
    simp only [Option.getD_none,hlogs]
  have hrow : ∀ id ∈ ids, StartsWithNewest reg (matching content (.many OperationLogs.all) .unbounded
      (serializeUint64 id false false)) (logs.get? id) := fun id hid => by
    simpa [IsSelected,hid] using hget id
  have hother : ∀ id, id ∉ ids → logs.get? id = none := fun id hid => by
    simpa [IsSelected,hid,StartsWithNewest] using hget id
  have hmem : ∀ {id row}, logs.get? id = some row → id ∈ ids := fun {id row} hsome => by
    by_contra hid
    rw [hother id hid] at hsome
    cases hsome
  have hcases := fun id hid => readLogEntry_cases hnewest hb' hmax hkinds.registered tableMeta
    (hrow id hid)
  rw [hread]
  cases htraverse : logs.traverse fun _ => logEntry with
  | ok d =>
    refine fun id => ⟨fun hid => ?_,fun hid => ?_⟩
    · rcases Dict.traverse_cases htraverse id with ⟨hnone,hd⟩ | ⟨row,e,hsome,he,hd⟩ <;> rw [hd]
      · rcases hcases id hid with ⟨-,hsingle⟩ | ⟨row,-,-,hsome,-⟩ | ⟨row,hsome,-⟩
        · exact ⟨none,hsingle,rfl⟩
        · rw [hnone] at hsome
          cases hsome
        · rw [hnone] at hsome
          cases hsome
      · rcases hcases id hid with ⟨hnone,-⟩ | ⟨row',e₁,e₂,hsome',he',hsingle,hview⟩ |
          ⟨row',hsome',he',-⟩
        · rw [hnone] at hsome
          cases hsome
        · obtain rfl := Option.some.inj (hsome.symm.trans hsome')
          obtain rfl := Except.ok.inj (he.symm.trans he')
          exact ⟨some e₂,hsingle,congrArg some hview.symm⟩
        · obtain rfl := Option.some.inj (hsome.symm.trans hsome')
          cases he.symm.trans he'
    · rcases Dict.traverse_cases htraverse id with ⟨-,hd⟩ | ⟨row,-,hsome,-⟩
      · exact hd
      · exact absurd (hmem hsome) hid
  | error e =>
    obtain ⟨id,row,hsome,he⟩ := Dict.exists_of_traverse_error htraverse
    rcases hcases id (hmem hsome) with ⟨hnone,-⟩ | ⟨row',e',-,hsome',he',-⟩ |
      ⟨row',hsome',he',hsingle⟩
    · rw [hnone] at hsome
      cases hsome
    · obtain rfl := Option.some.inj (hsome.symm.trans hsome')
      rw [he'] at he
      cases he
    · obtain rfl := Option.some.inj (hsome.symm.trans hsome')
      rw [he'] at he
      cases he
      exact ⟨rfl,id,hmem hsome,hsingle⟩

/-- Two operations on BigTable, the second of them without a time: alone it raises on HBase too. -/
theorem readLogEntries_single_raises : ∃ id ∈ [1,2],
    readLogEntry (Service.client usersOnly 1000 none createdAfter
      (.hbase .whole)) id = .error (.key OperationLogs.rootId) := by
  have hnewest : NewestFirst createdAfter := by
    simp only [NewestFirst]
    decide
  have hraises : readLogEntries usersOnly 1000
      (Service.bigTable.table createdAfter) (fun _ => 2) .bigTable (some [1,2]) none none .unbounded =
      .error (.key OperationLogs.rootId) := by
    rfl
  have h := readLogEntries_single _ createdAfter createdAfter_ofKinds hnewest
    (show Service.bigTable.DeliversNewest createdAfter from hnewest)
    (show (Service.hbase .whole).DeliversNewest createdAfter from
      ⟨hnewest,HBase.Paging.whole_keepsRows _⟩)
    (show 0 < 1000 by norm_num) none (fun _ => 2) (by decide) (show ∀ id ∈ [1,2], id < 2^64 by decide)
  rw [hraises] at h
  exact h.2

end KvdbClient
