import KvdbClient.HBaseDeletes
import KvdbClient.VastRefinement

/-! `delete_cells` on the three backends: which lists of rows, columns and times leave every table
without exactly the named cells. -/
namespace KvdbClient
namespace BigTable

inductive RowMutation
  | deleteRangeFromColumn (column : Column) (startMicros endMicros : ℤ)
  | deleteAllFromRow

/-- The end of a range is exclusive. -/
def RowMutation.removes (x : StoredCell) : RowMutation → Bool
  | deleteRangeFromColumn column startMicros endMicros =>
    decide (x.column = column ∧ startMicros ≤ x.timestamp ∧ x.timestamp < endMicros)
  | deleteAllFromRow => true

/-- The `ValueError` of the client library. -/
inductive EntryError
  | refused (mutations : ℕ)
  deriving DecidableEq

section Deletes

variable (takes : ℕ → Bool)

/-- `RowMutationEntry`: the client library takes only some numbers of mutations in an entry. -/
def rowMutationEntry (rowKey : Bytes) (mutations : List RowMutation) :
    Except EntryError (Bytes × List RowMutation) :=
  if takes mutations.length then .ok (rowKey,mutations) else .error (.refused mutations.length)

/-- The mutations of one column, each of a millisecond from its time on. -/
def rowMutations (column : Column) (timestamps : List ℤ) : List RowMutation :=
  timestamps.map fun startUs => .deleteRangeFromColumn column startUs (startUs+1000)

def deleteEntries (d : Deletion) : Except EntryError (List (Bytes × List RowMutation)) := do
  let cells ← d.mutations.mapM fun m => rowMutationEntry takes m.1 (rowMutations m.2.1 m.2.2)
  let rows ← d.rowKeysToDelete.mapM fun k => rowMutationEntry takes k [.deleteAllFromRow]
  return cells ++ rows

def entryRemoves (entry : Bytes × List RowMutation) (x : StoredCell) : Bool :=
  decide (x.rowKey = entry.1) && entry.2.any (RowMutation.removes x)

/-- `delete_cells`: nothing is sent before all entries are there. -/
def deleteCells (table : List StoredCell) (d : Deletion) : Except EntryError (List StoredCell) := do
  let entries ← deleteEntries takes d
  return entries.foldl (fun table entry => table.filter fun x => !entryRemoves entry x) table

theorem mapM_rowMutationEntry {α : Type} (f : α → Bytes × List RowMutation) (l : List α)
    (entries : List (Bytes × List RowMutation)) :
    (l.mapM fun a => rowMutationEntry takes (f a).1 (f a).2) = .ok entries ↔
      (∀ a ∈ l, takes (f a).2.length = true) ∧ entries = l.map f := by
  induction l generalizing entries with
  | nil => exact ⟨fun h => ⟨by simp,(Except.ok.inj h).symm⟩,fun h => by rw [h.2]; rfl⟩
  | cons a l ih =>
    rw [List.mapM_cons,rowMutationEntry]
    by_cases ha : takes (f a).2.length = true
    · rw [if_pos ha,HBase.Wire.ok_bind]
      constructor
      · intro h
        obtain ⟨rest,hrest,hentries⟩ := HBase.Wire.bind_eq_ok h
        obtain ⟨hall,rfl⟩ := (ih rest).mp hrest
        exact ⟨by simpa [ha] using hall,(Except.ok.inj hentries).symm⟩
      · rintro ⟨hall,rfl⟩
        have hrest := (ih (l.map f)).mpr ⟨fun b hb => hall b (List.mem_cons_of_mem _ hb),rfl⟩
        rw [hrest]
        rfl
    · rw [if_neg ha]
      constructor
      · intro h
        cases h
      · intro h
        exact absurd (h.1 a List.mem_cons_self) ha

end Deletes

end BigTable

def atMicros (x : StoredCell) : StoredCell := {x with timestamp := 1000*x.timestamp}

def ceilMs (t : ℤ) : ℤ := floorMs (t+999)

namespace Deletion

def Lists (d : Deletion) (k : Bytes) (c : Column) (ts : ℤ) : Prop :=
  ∃ m ∈ d.mutations, k = m.1 ∧ c = m.2.1 ∧ ts ∈ m.2.2

/-- Of a row that is not deleted as a whole, the times of a column have the same milliseconds when
they are rounded down and when they are rounded up. -/
def RoundsAlike (d : Deletion) : Prop :=
  ∀ k c n, k ∉ d.rowKeysToDelete →
    ((∃ ts, d.Lists k c ts ∧ floorMs ts = n) ↔ ∃ ts, d.Lists k c ts ∧ ceilMs ts = n)

end Deletion

theorem ceilMs_eq_iff {ts n : ℤ} : ceilMs ts = 1000*n ↔ ts ≤ 1000*n ∧ 1000*n < ts+1000 := by
  rw [ceilMs,floorMs]
  omega

namespace BigTable

variable {takes : ℕ → Bool} {d : Deletion}

def Covers (d : Deletion) (x : StoredCell) : Prop :=
  (∃ ts, d.Lists x.rowKey x.column ts ∧ ceilMs ts = 1000*x.timestamp) ∨
    x.rowKey ∈ d.rowKeysToDelete

def allEntries (d : Deletion) : List (Bytes × List RowMutation) :=
  d.mutations.map (fun m => (m.1,rowMutations m.2.1 m.2.2)) ++
    d.rowKeysToDelete.map fun k => (k,[.deleteAllFromRow])

theorem any_allEntries_iff (d : Deletion) (x : StoredCell) :
    ((allEntries d).any fun entry => entryRemoves entry (atMicros x)) = true ↔ Covers d x := by
  simp only [allEntries,List.any_append,List.any_map,Bool.or_eq_true,List.any_eq_true,
    Function.comp_apply,entryRemoves,Bool.and_eq_true,decide_eq_true_eq,rowMutations,
    RowMutation.removes,List.any_cons,List.any_nil,Bool.or_false,and_true]
  refine or_congr ⟨?_,?_⟩ ⟨?_,fun hk => ⟨_,hk,rfl⟩⟩
  · rintro ⟨m,hm,hrow,ts,hts,hcolumn,hrange⟩
    exact ⟨ts,⟨m,hm,hrow,hcolumn,hts⟩,ceilMs_eq_iff.mpr hrange⟩
  · rintro ⟨ts,⟨m,hm,hrow,hcolumn,hts⟩,hceil⟩
    exact ⟨m,hm,hrow,ts,hts,hcolumn,ceilMs_eq_iff.mp hceil⟩
  · rintro ⟨k,hk,hrow⟩
    exact hrow ▸ hk

theorem deleteEntries_eq_ok_iff (hone : takes 1 = true) {entries : List (Bytes × List RowMutation)} :
    deleteEntries takes d = .ok entries ↔
      (∀ m ∈ d.mutations, takes m.2.2.length = true) ∧ entries = allEntries d := by
  have hcells := mapM_rowMutationEntry takes
    (fun m : Bytes × Column × List ℤ => (m.1,rowMutations m.2.1 m.2.2)) d.mutations
  have hrows := mapM_rowMutationEntry takes
    (fun k : Bytes => (k,[RowMutation.deleteAllFromRow])) d.rowKeysToDelete
  simp only [rowMutations,List.length_map] at hcells
  rw [deleteEntries]
  constructor
  · intro h
    obtain ⟨cells,hc,h⟩ := HBase.Wire.bind_eq_ok h
    obtain ⟨rows,hr,h⟩ := HBase.Wire.bind_eq_ok h
    obtain ⟨htakes,rfl⟩ := (hcells cells).mp hc
    obtain ⟨-,rfl⟩ := (hrows rows).mp hr
    exact ⟨htakes,(Except.ok.inj h).symm⟩
  · rintro ⟨htakes,rfl⟩
    have hc := (hcells _).mpr ⟨htakes,rfl⟩
    have hr := (hrows _).mpr ⟨fun _ _ => hone,rfl⟩
    simp only [rowMutations]
    rw [hc,HBase.Wire.ok_bind,hr]
    rfl

theorem deleteCells_eq_ok_iff (hone : takes 1 = true) {table left : List StoredCell} :
    deleteCells takes table d = .ok left ↔ (∀ m ∈ d.mutations, takes m.2.2.length = true) ∧
      left = table.filter fun x => !(allEntries d).any fun entry => entryRemoves entry x := by
  rw [← foldl_filter,deleteCells]
  constructor
  · intro h
    obtain ⟨entries,hentries,hleft⟩ := HBase.Wire.bind_eq_ok h
    obtain ⟨htakes,rfl⟩ := (deleteEntries_eq_ok_iff hone).mp hentries
    exact ⟨htakes,(Except.ok.inj hleft).symm⟩
  · rintro ⟨htakes,rfl⟩
    rw [(deleteEntries_eq_ok_iff hone).mpr ⟨htakes,rfl⟩]
    rfl

end BigTable

theorem atMicros_injective : Function.Injective atMicros := by
  rintro ⟨k,c,t,v⟩ ⟨k',c',t',v'⟩ h
  simp only [atMicros,StoredCell.mk.injEq] at h ⊢
  exact ⟨h.1,h.2.1,by omega,h.2.2.2⟩

namespace Deletion

variable {d : Deletion}

theorem names_iff {x : StoredCell} : d.Names x ↔
    (∃ ts, d.Lists x.rowKey x.column ts ∧ floorMs ts = 1000*x.timestamp) ∨
      x.rowKey ∈ d.rowKeysToDelete := by
  refine or_congr_left ?_
  constructor
  · rintro ⟨m,hm,hrow,hcolumn,ts,hts,htime⟩
    exact ⟨ts,⟨m,hm,hrow,hcolumn,hts⟩,htime.symm⟩
  · rintro ⟨ts,⟨m,hm,hrow,hcolumn,hts⟩,htime⟩
    exact ⟨m,hm,hrow,hcolumn,ts,hts,htime.symm⟩

/-- On the millisecond grid a range from a time on has the millisecond that the time rounds up to. -/
theorem covers_iff_names : (∀ x, BigTable.Covers d x ↔ d.Names x) ↔ d.RoundsAlike := by
  constructor
  · intro h k c n hk
    by_cases hn : (1000 : ℤ) ∣ n
    · obtain ⟨ms,rfl⟩ := hn
      have hx := h ⟨k,c,ms,[]⟩
      rw [names_iff,BigTable.Covers,or_iff_left hk,or_iff_left hk] at hx
      exact hx.symm
    · constructor
      · rintro ⟨ts,-,rfl⟩
        exact absurd (Dvd.intro_left _ rfl) hn
      · rintro ⟨ts,-,rfl⟩
        exact absurd (Dvd.intro_left _ rfl) hn
  · intro h x
    rw [names_iff,BigTable.Covers]
    by_cases hk : x.rowKey ∈ d.rowKeysToDelete
    · simp [hk]
    · rw [or_iff_left hk,or_iff_left hk,h _ _ _ hk]

theorem roundsAlike_of_aligned (h : ∀ m ∈ d.mutations, ∀ ts ∈ m.2.2, 1000 ∣ ts) :
    d.RoundsAlike := by
  intro k c n _
  refine exists_congr fun ts => and_congr_right fun hlists => ?_
  obtain ⟨m,hm,-,-,hts⟩ := hlists
  obtain ⟨ms,rfl⟩ := h m hm ts hts
  have hround : ceilMs (1000*ms) = floorMs (1000*ms) := by
    rw [ceilMs,floorMs,floorMs]
    omega
  rw [hround]

theorem map_left (table : List StoredCell) : (d.left table).map atMicros =
    (table.map atMicros).filter fun x =>
      !decide ((Vast.Operation.deleteCells d.mutations d.rowKeysToDelete :
        Vast.Operation Registry.parentOnly).Deletes
          (Vast.versionOf x)) := by
  rw [List.filter_map]
  rfl

end Deletion

/-- BigTable's ranges start at the listed times themselves. -/
theorem BigTable.deletesExactly_iff {takes : ℕ → Bool} (hone : takes 1 = true) {d : Deletion} :
    (∀ table, BigTable.deleteCells takes (table.map atMicros) d = .ok ((d.left table).map atMicros)) ↔
      (∀ m ∈ d.mutations, takes m.2.2.length = true) ∧ d.RoundsAlike := by
  simp only [BigTable.deleteCells_eq_ok_iff hone,forall_and,forall_const]
  refine and_congr_right fun _ => ?_
  rw [← Deletion.covers_iff_names]
  simp only [List.filter_map,List.map_inj_right atMicros_injective,Deletion.left]
  refine (filter_not_eq_iff (p := fun x => decide (d.Names x))
    (q := fun x => (allEntries d).any fun entry => entryRemoves entry (atMicros x))).trans ?_
  refine forall_congr' fun x => ?_
  rw [Bool.eq_iff_iff,decide_eq_true_eq,any_allEntries_iff]
  exact Iff.comm

theorem Vast.deletesExactly_iff {d : Deletion} :
    (∀ table, Vast.deleteCells (table.map atMicros) d.mutations d.rowKeysToDelete =
      .ok ((d.left table).map atMicros)) ↔ ∀ k, d.Uses k → k.toByteArray.IsValidUTF8 := by
  have hvalid : (Vast.Operation.deleteCells d.mutations d.rowKeysToDelete :
      Vast.Operation Registry.parentOnly).Valid ↔
      ∀ k, d.Uses k → k.toByteArray.IsValidUTF8 := by
    constructor
    · rintro ⟨hm,hk⟩ k (⟨m,hmem,rfl,hne⟩ | hmem)
      · exact hm m hmem hne
      · exact hk k hmem
    · intro h
      exact ⟨fun m hm hne => h m.1 (Or.inl ⟨m,hm,rfl,hne⟩),fun k hk => h k (Or.inr hk)⟩
  rw [← hvalid]
  constructor
  · intro h
    by_contra hnot
    obtain ⟨e,he⟩ := (Vast.deleteCells_spec _ _ d.mutations d.rowKeysToDelete).2 hnot
    cases he.symm.trans (h [])
  · intro h table
    rw [Deletion.map_left]
    exact (Vast.deleteCells_spec _ _ d.mutations d.rowKeysToDelete).1 h

/-- The three backends leave every table without exactly the named cells if and only if BigTable's
entries are taken and its ranges have the named milliseconds, and the used row keys are addressable
and text. -/
theorem deleteCells_iff (t : HBase.TableId) (takes : ℕ → Bool) (hone : takes 1 = true)
    (d : Deletion) :
    ((∀ table, BigTable.deleteCells takes (table.map atMicros) d = .ok ((d.left table).map atMicros)) ∧
      (∀ table, HBase.deleteCells t table d = d.left table) ∧
      ∀ table, Vast.deleteCells (table.map atMicros) d.mutations d.rowKeysToDelete =
        .ok ((d.left table).map atMicros)) ↔
    ((∀ m ∈ d.mutations, takes m.2.2.length = true) ∧ d.RoundsAlike) ∧
      (∀ k, d.Uses k → HBase.Addressable k) ∧ ∀ k, d.Uses k → k.toByteArray.IsValidUTF8 :=
  and_congr (BigTable.deletesExactly_iff hone)
    (and_congr HBase.deletesExactly_iff Vast.deletesExactly_iff)

def parentDeletion (ts : ℕ) : Deletion where
  mutations := [([107],Hierarchy.parent,[(ts : ℤ)])]
  rowKeysToDelete := []
  declared m hm := by
    obtain rfl := List.mem_singleton.mp hm
    exact Or.inl ⟨NumPy.Hierarchy.parent.registered,by decide,rfl⟩
  notBefore1970 m hm t ht := by
    obtain rfl := List.mem_singleton.mp hm
    obtain rfl := List.mem_singleton.mp ht
    exact Int.natCast_nonneg ts

theorem parentDeletion_uses {ts : ℕ} {k : Bytes} (h : (parentDeletion ts).Uses k) : k = [107] := by
  rcases h with ⟨m,hm,rfl,-⟩ | hk
  · exact congrArg Prod.fst (List.mem_singleton.mp hm)
  · cases hk

theorem deleteCells_aligned :
    (∀ table, BigTable.deleteCells (fun n => decide (0 < n)) (table.map atMicros)
      (parentDeletion 2000) = .ok (((parentDeletion 2000).left table).map atMicros)) ∧
    (∀ table, HBase.deleteCells HBase.sampleTable table (parentDeletion 2000) =
      (parentDeletion 2000).left table) ∧
    ∀ table, Vast.deleteCells (table.map atMicros) (parentDeletion 2000).mutations
      (parentDeletion 2000).rowKeysToDelete =
        .ok (((parentDeletion 2000).left table).map atMicros) := by
  refine (deleteCells_iff HBase.sampleTable (fun n => decide (0 < n)) (by decide)
    (parentDeletion 2000)).mpr ⟨⟨?_,Deletion.roundsAlike_of_aligned ?_⟩,fun k hk => ?_,fun k hk => ?_⟩
  · intro m hm
    obtain rfl := List.mem_singleton.mp hm
    rfl
  · intro m hm ts hts
    obtain rfl := List.mem_singleton.mp hm
    obtain rfl := List.mem_singleton.mp hts
    decide
  · rw [parentDeletion_uses hk]
    decide
  · rw [parentDeletion_uses hk]
    exact isValidUTF8_encodeUtf8 ['k']

/-- Half a millisecond late, BigTable deletes the next version instead of the named one. -/
theorem deleteCells_unaligned :
    ¬ ∀ table, BigTable.deleteCells (fun n => decide (0 < n)) (table.map atMicros)
      (parentDeletion 1500) = .ok (((parentDeletion 1500).left table).map atMicros) := by
  intro h
  have hnamed := h [⟨[107],Hierarchy.parent,1,[]⟩]
  have hstays : BigTable.deleteCells (fun n => decide (0 < n))
      [atMicros ⟨[107],Hierarchy.parent,1,[]⟩] (parentDeletion 1500) =
        .ok [atMicros ⟨[107],Hierarchy.parent,1,[]⟩] := by decide
  have hgoes : (parentDeletion 1500).left [⟨[107],Hierarchy.parent,1,[]⟩] = [] := by decide
  rw [hgoes] at hnamed
  cases hstays.symm.trans hnamed

end KvdbClient
