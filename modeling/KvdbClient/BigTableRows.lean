import KvdbClient.Attributes
import KvdbClient.Lease

/-! Bigtable rows, row filters and conditional mutations, with their documented meaning.
A row keeps every version of every column; a version is identified by its column and
timestamp, so writing one again replaces it. -/
namespace KvdbClient
namespace BigTable

structure Cell where
  column : Column
  timestampMicros : ℤ
  value : Bytes
  deriving DecidableEq

def SameVersion (c d : Cell) : Prop :=
  c.column = d.column ∧ c.timestampMicros = d.timestampMicros

instance (c d : Cell) : Decidable (SameVersion c d) :=
  inferInstanceAs (Decidable (_ ∧ _))

/-- A row is its cells, at most one for each version. -/
structure Row where
  cells : List Cell
  distinct : cells.Pairwise fun c d => ¬ SameVersion c d

def Row.empty : Row := ⟨[],List.Pairwise.nil⟩

abbrev Table := Bytes → Row

/-- The row filters the client builds. `columnRange` and `valueRange` include both ends,
`timestampRange` includes its start and excludes its end; an end of 0 is read as no end. The patterns
are qualifiers without metacharacters, which match themselves only. -/
inductive RowFilter
  | passAll
  | blockAll
  | columnQualifierRegex (pattern : Bytes)
  | cellsRowLimit (numCells : ℕ)
  | columnRange (familyId : Text) (startQualifier endQualifier : Bytes)
  | valueRange (startValue endValue : Bytes)
  | timestampRange (start end_ : Option ℤ)
  | chain (first second : RowFilter)
  | union (left right : RowFilter)
  | conditional (predicateFilter trueFilter falseFilter : RowFilter)

/-- The cells a filter lets through. A chain filters the output of its first filter, a union
outputs what either branch does, a conditional tests whether its predicate outputs a cell. -/
def RowFilter.apply : RowFilter → List Cell → List Cell
  | .passAll, cells => cells
  | .blockAll, _ => []
  | .columnQualifierRegex p, cells => cells.filter fun c => c.column.key = p
  | .cellsRowLimit n, cells => cells.take n
  | .columnRange f s e, cells =>
    cells.filter fun c => c.column.familyId = f ∧ s ≤ c.column.key ∧ c.column.key ≤ e
  | .valueRange s e, cells => cells.filter fun c => s ≤ c.value ∧ c.value ≤ e
  | .timestampRange s e, cells =>
    cells.filter fun c => (∀ t ∈ s, t ≤ c.timestampMicros) ∧ ∀ t ∈ e, t = 0 ∨ c.timestampMicros < t
  | .chain f g, cells => g.apply (f.apply cells)
  | .union f g, cells => f.apply cells ++ g.apply cells
  | .conditional p t f, cells =>
    if (p.apply cells).isEmpty then f.apply cells else t.apply cells

def exactColumnFilter (c : Column) : RowFilter := .columnRange c.familyId c.key c.key

def exactValueFilter (value : Bytes) : RowFilter := .valueRange value value

theorem between_self_iff (k q : Bytes) : k ≤ q ∧ q ≤ k ↔ q = k :=
  ⟨fun h => List.le_antisymm h.2 h.1,fun h => by subst h; exact ⟨List.le_refl _,List.le_refl _⟩⟩

@[simp] theorem mem_apply_exactColumnFilter {c : Column} {cells : List Cell} {x : Cell} :
    x ∈ (exactColumnFilter c).apply cells ↔ x ∈ cells ∧ x.column = c := by
  simp only [exactColumnFilter,RowFilter.apply,List.mem_filter,decide_eq_true_eq,between_self_iff]
  cases c; cases x with
  | mk col _ _ => cases col; simp

@[simp] theorem mem_apply_exactValueFilter {v : Bytes} {cells : List Cell} {x : Cell} :
    x ∈ (exactValueFilter v).apply cells ↔ x ∈ cells ∧ x.value = v := by
  simp only [exactValueFilter,RowFilter.apply,List.mem_filter,decide_eq_true_eq,between_self_iff]

@[simp] theorem mem_apply_since {t : ℤ} {cells : List Cell} {x : Cell} :
    x ∈ (RowFilter.timestampRange (some t) none).apply cells ↔
      x ∈ cells ∧ t ≤ x.timestampMicros := by
  simp [RowFilter.apply]

@[simp] theorem apply_chain (f g : RowFilter) (cells : List Cell) :
    (RowFilter.chain f g).apply cells = g.apply (f.apply cells) := rfl

/-- `check_and_mutate_row` takes the true case iff the filter yields at least one cell. -/
def Matches (f : RowFilter) (cells : List Cell) : Prop := f.apply cells ≠ []

instance (f : RowFilter) (cells : List Cell) : Decidable (Matches f cells) :=
  inferInstanceAs (Decidable (_ ≠ _))

theorem matches_iff {f : RowFilter} {cells : List Cell} :
    Matches f cells ↔ ∃ x, x ∈ f.apply cells := by
  simp only [Matches,ne_eq,List.eq_nil_iff_forall_not_mem,not_forall,not_not]

@[simp] theorem matches_union {f g : RowFilter} {cells : List Cell} :
    Matches (.union f g) cells ↔ Matches f cells ∨ Matches g cells := by
  simp only [Matches,RowFilter.apply,ne_eq,List.append_eq_nil_iff]
  tauto

@[simp] theorem matches_conditional {p t f : RowFilter} {cells : List Cell} :
    Matches (.conditional p t f) cells ↔
      Matches p cells ∧ Matches t cells ∨ ¬ Matches p cells ∧ Matches f cells := by
  by_cases h : p.apply cells = [] <;> simp [Matches,RowFilter.apply,h]

@[simp] theorem matches_passAll {cells : List Cell} :
    Matches .passAll cells ↔ ∃ x, x ∈ cells := by
  simp [matches_iff,RowFilter.apply]

theorem apply_nil (f : RowFilter) : f.apply [] = [] := by
  induction f with
  | passAll | blockAll | columnQualifierRegex | columnRange | valueRange | timestampRange => rfl
  | cellsRowLimit n => exact List.take_nil
  | chain f g hf hg => simp [RowFilter.apply,hf,hg]
  | union f g hf hg => simp [RowFilter.apply,hf,hg]
  | conditional p t f hp ht hf => simp [RowFilter.apply,hp,hf]

theorem mem_of_mem_apply {f : RowFilter} {cells : List Cell} {x : Cell} (h : x ∈ f.apply cells) :
    x ∈ cells := by
  induction f generalizing cells with
  | passAll => exact h
  | blockAll => cases h
  | columnQualifierRegex | columnRange | valueRange | timestampRange => exact (List.mem_filter.mp h).1
  | cellsRowLimit n => exact List.mem_of_mem_take h
  | chain f g hf hg => exact hf (hg h)
  | union f g hf hg => exact (List.mem_append.mp h).elim (fun h => hf h) fun h => hg h
  | conditional p t f hp ht hf =>
    simp only [RowFilter.apply] at h
    split at h
    · exact hf h
    · exact ht h

theorem matches_conditional_passAll {p f : RowFilter} {cells : List Cell} :
    Matches (.conditional p .passAll f) cells ↔ Matches p cells ∨ Matches f cells := by
  have hp : Matches p cells → Matches .passAll cells := by
    rintro hp hnil
    have hcells : cells = [] := hnil
    exact hp (by rw [hcells,apply_nil])
  rw [matches_conditional]
  tauto

theorem matches_exactColumnFilter {c : Column} {cells : List Cell} :
    Matches (exactColumnFilter c) cells ↔ ∃ x ∈ cells, x.column = c := by
  simp [matches_iff]

inductive Mutation
  | setCell (cell : Cell)
  | deleteRangeFromColumn (column : Column)

namespace Row

/-- A written version replaces the stored one with the same column and timestamp. -/
def setCell (r : Row) (c : Cell) : Row where
  cells := c :: r.cells.filter fun d => ¬ SameVersion c d
  distinct := by
    refine List.pairwise_cons.mpr ⟨fun d hd => ?_,r.distinct.filter _⟩
    simpa using (List.mem_filter.mp hd).2

/-- `DeleteRangeFromColumn` without bounds removes every version of the column. -/
def deleteColumn (r : Row) (col : Column) : Row where
  cells := r.cells.filter fun d => d.column ≠ col
  distinct := r.distinct.filter _

def mutate (r : Row) : Mutation → Row
  | .setCell c => r.setCell c
  | .deleteRangeFromColumn col => r.deleteColumn col

theorem mem_setCell {r : Row} {c x : Cell} :
    x ∈ (r.setCell c).cells ↔ x = c ∨ x ∈ r.cells ∧ ¬ SameVersion c x := by
  simp [setCell]

theorem mem_deleteColumn {r : Row} {col : Column} {x : Cell} :
    x ∈ (r.deleteColumn col).cells ↔ x ∈ r.cells ∧ x.column ≠ col := by
  simp [deleteColumn]

/-- The versions of a column, as the grants of a lease: who wrote them and when. -/
def grants (r : Row) (col : Column) : Set (Lease.Grant Bytes ℤ) :=
  {g | ∃ x ∈ r.cells, x.column = col ∧ g = ⟨x.value,x.timestampMicros⟩}

theorem mem_grants {r : Row} {x : Cell} (hx : x ∈ r.cells) :
    (⟨x.value,x.timestampMicros⟩ : Lease.Grant Bytes ℤ) ∈ r.grants x.column :=
  ⟨x,hx,rfl,rfl⟩

theorem grants_setCell_subset (r : Row) (c : Cell) :
    (r.setCell c).grants c.column ⊆ insert ⟨c.value,c.timestampMicros⟩ (r.grants c.column) := by
  rintro g ⟨x,hx,hcol,rfl⟩
  rcases mem_setCell.mp hx with rfl | ⟨hx,-⟩
  · exact Or.inl rfl
  · exact Or.inr ⟨x,hx,hcol,rfl⟩

theorem setCell_grant (r : Row) (c : Cell) :
    (⟨c.value,c.timestampMicros⟩ : Lease.Grant Bytes ℤ) ∈ (r.setCell c).grants c.column :=
  mem_grants (mem_setCell.mpr (Or.inl rfl))

theorem grants_setCell_of_empty {r : Row} {c : Cell} (h : r.grants c.column = ∅) :
    (r.setCell c).grants c.column = {⟨c.value,c.timestampMicros⟩} := by
  refine subset_antisymm ((grants_setCell_subset r c).trans ?_) ?_
  · rw [h]
    exact subset_of_eq (insert_empty_eq _)
  · rintro g rfl
    exact setCell_grant r c

theorem grants_setCell_of_ne {r : Row} {c : Cell} {col : Column} (h : c.column ≠ col) :
    (r.setCell c).grants col = r.grants col := by
  ext g
  constructor
  · rintro ⟨x,hx,hcol,rfl⟩
    rcases mem_setCell.mp hx with rfl | ⟨hx,-⟩
    · exact absurd hcol h
    · exact ⟨x,hx,hcol,rfl⟩
  · rintro ⟨x,hx,hcol,rfl⟩
    exact ⟨x,mem_setCell.mpr (Or.inr ⟨hx,fun hs => h (hs.1.trans hcol)⟩),hcol,rfl⟩

theorem grants_deleteColumn_self (r : Row) (col : Column) : (r.deleteColumn col).grants col = ∅ := by
  ext g
  simp only [Set.mem_empty_iff_false,iff_false]
  rintro ⟨x,hx,hcol,rfl⟩
  exact (mem_deleteColumn.mp hx).2 hcol

theorem grants_deleteColumn_of_ne {r : Row} {col col' : Column} (h : col ≠ col') :
    (r.deleteColumn col).grants col' = r.grants col' := by
  ext g
  constructor
  · rintro ⟨x,hx,hcol,rfl⟩
    exact ⟨x,(mem_deleteColumn.mp hx).1,hcol,rfl⟩
  · rintro ⟨x,hx,rfl,rfl⟩
    exact ⟨x,mem_deleteColumn.mpr ⟨hx,Ne.symm h⟩,rfl,rfl⟩

end Row

theorem grants_update_of_eq {t : Table} {k : Bytes} {r : Row} {col : Column}
    (h : r.grants col = (t k).grants col) (k' : Bytes) :
    (Function.update t k r k').grants col = (t k').grants col := by
  by_cases hk : k' = k
  · subst hk
    simpa only [Function.update_self] using h
  · rw [Function.update_of_ne hk]

/-- `check_and_mutate_row`: one atomic test and the mutations of the case it selects. -/
def checkAndMutateRow (t : Table) (rowKey : Bytes) (predicate : RowFilter)
    (trueCase falseCase : List Mutation) : Bool × Table :=
  let matched := decide (Matches predicate (t rowKey).cells)
  (matched,Function.update t rowKey
    ((if matched then trueCase else falseCase).foldl Row.mutate (t rowKey)))

theorem checkAndMutateRow_eq (t : Table) (k : Bytes) (p : RowFilter) (yes no : List Mutation) :
    checkAndMutateRow t k p yes no =
      if Matches p (t k).cells then (true,Function.update t k (yes.foldl Row.mutate (t k)))
      else (false,Function.update t k (no.foldl Row.mutate (t k))) := by
  by_cases h : Matches p (t k).cells <;> simp [checkAndMutateRow,h]

end BigTable
end KvdbClient
