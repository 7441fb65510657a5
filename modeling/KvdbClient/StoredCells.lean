import KvdbClient.Attributes
import KvdbClient.Dict
import KvdbClient.Timestamps

/-! Stored cells, and the arguments and results of a read, which the backends share: `base.py`. -/
namespace KvdbClient

/-- A cell of a backend's table. Timestamps count microseconds, on HBase milliseconds. -/
structure StoredCell where
  rowKey : Bytes
  column : Column
  timestamp : ℤ
  value : Bytes
  deriving DecidableEq

/-- `base.Cell`, with a datetime. -/
structure Cell (V : Type) where
  value : V
  timestamp : ℤ
  deriving DecidableEq

/-- The attributes this process has: which columns `attributes.from_key` finds, and how their
values are deserialized. The key of an attribute is made from text, by `serialize_key`. -/
structure Registry (V : Type) where
  registered : Column → Bool
  deserialize : Column → Bytes → V
  decodable : ∀ c, registered c = true → c.Decodable

/-- Attributes whose values are the stored bytes. -/
def Registry.ofColumns (columns : List Column) (h : ∀ c ∈ columns, c.Decodable) : Registry Bytes where
  registered c := decide (c ∈ columns)
  deserialize _ b := b
  decodable c hc := h c (of_decide_eq_true hc)

/-- One attribute, for reads of small tables. -/
def Registry.parentOnly : Registry Bytes := .ofColumns [Hierarchy.parent] (by decide +kernel)

def Registry.newParentOnly : Registry Bytes := .ofColumns [Hierarchy.newParent] (by decide +kernel)

/-- The `columns` argument: `None`, one attribute, or a list of attributes. -/
inductive Columns
  | all
  | one (column : Column)
  | many (columns : List Column)
  deriving DecidableEq

namespace Columns

/-- `build_column_specs`, `normalize_columns`: no list stands for no restriction. -/
def toList : Columns → Option (List Column)
  | all => none
  | one c => some [c]
  | many cs => some cs

def Requests (cs : Columns) (c : Column) : Prop := ∀ l ∈ cs.toList, c ∈ l

instance (cs : Columns) (c : Column) : Decidable (cs.Requests c) :=
  match h : cs.toList with
  | none => isTrue (by simp [Requests,h])
  | some l => decidable_of_iff (c ∈ l) (by simp [Requests,h])

end Columns

structure Window where
  startTime : Option ℤ
  endTime : Option ℤ
  endTimeInclusive : Bool

def Window.unbounded : Window := ⟨none,none,false⟩

structure RowSelection where
  rowKeys : Option (List Bytes)
  startKey : Option Bytes
  endKey : Option Bytes
  endKeyInclusive : Bool

def InRange (s e : Bytes) (inclusive : Bool) (k : Bytes) : Prop :=
  s ≤ k ∧ if inclusive then k ≤ e else k < e

instance (s e : Bytes) (inclusive : Bool) (k : Bytes) : Decidable (InRange s e inclusive k) :=
  inferInstanceAs (Decidable (_ ∧ _))

namespace RowSelection

def ofKeys (ks : List Bytes) : RowSelection := ⟨some ks,none,none,false⟩

def ofRange (s e : Bytes) (inclusive : Bool) : RowSelection := ⟨none,some s,some e,inclusive⟩

def Valid (r : RowSelection) : Prop :=
  r.rowKeys ≠ none ∨ r.startKey ≠ none ∧ r.endKey ≠ none

theorem valid_iff {r : RowSelection} :
    r.Valid ↔ ¬ (r.rowKeys = none ∧ (r.startKey = none ∨ r.endKey = none)) := by
  rw [Valid,not_and_or,not_or]

theorem Valid.keys_or_range {r : RowSelection} (h : r.Valid) :
    (∃ ks s e i, r = ⟨some ks,s,e,i⟩) ∨ ∃ s e i, r = ⟨none,some s,some e,i⟩ := by
  obtain ⟨rowKeys,startKey,endKey,inclusive⟩ := r
  cases rowKeys with
  | some ks => exact Or.inl ⟨ks,startKey,endKey,inclusive,rfl⟩
  | none =>
    have hends := h.resolve_left fun hnone => hnone rfl
    obtain ⟨s,rfl⟩ := Option.ne_none_iff_exists'.mp hends.1
    obtain ⟨e,rfl⟩ := Option.ne_none_iff_exists'.mp hends.2
    exact Or.inr ⟨s,e,inclusive,rfl⟩

/-- Row keys win over a range. -/
def selects (r : RowSelection) (k : Bytes) : Bool :=
  match r.rowKeys, r.startKey, r.endKey with
  | some ks, _, _ => k ∈ ks
  | none, some s, some e => InRange s e r.endKeyInclusive k
  | _, _, _ => false

end RowSelection

/-- The data of a row: by column, or the cells of the one column that was asked for. -/
inductive RowData (V : Type)
  | columns (d : Dict Column (List (Cell V)))
  | cells (l : List (Cell V))

/-- What a caller can tell of the data of a row. -/
def RowData.view {V : Type} : RowData V → (Column → Option (List (Cell V))) ⊕ List (Cell V)
  | .columns d => .inl d.get?
  | .cells l => .inr l

theorem RowData.exists_of_view_inl {V : Type} {r : RowData V} {f : Column → Option (List (Cell V))}
    (h : r.view = .inl f) : ∃ d, r = .columns d ∧ d.get? = f := by
  cases r with
  | columns d => exact ⟨d,rfl,Sum.inl.inj h⟩
  | cells l => cases h

theorem RowData.eq_cells_of_view {V : Type} {r : RowData V} {l : List (Cell V)}
    (h : r.view = .inr l) : r = .cells l := by
  cases r with
  | columns d => cases h
  | cells l' => exact congrArg RowData.cells (Sum.inr.inj h)

/-- The `cells` of a row of `read_all_rows`: by family, then by qualifier. -/
abbrev Families (β : Type) := Dict Text (Dict Bytes (List β))

/-- `cells[family][qualifier]`. -/
def Families.cells? {β : Type} (d : Families β) (c : Column) : Option (List β) :=
  (d.get? c.familyId).bind fun q => q.get? c.key

/-- `families[family][qualifier].append(cell)` for every cell of a row. -/
def byFamily {α β : Type} (column : α → Column) (cell : α → β) (l : List α) : Families β :=
  (Dict.group (fun x => (column x).familyId) l).mapValues fun _ m =>
    (Dict.group (fun x => (column x).key) m).mapValues fun _ n => n.map cell

theorem cells?_byFamily {α β : Type} (column : α → Column) (cell : α → β) (l : List α)
    (c : Column) :
    (byFamily column cell l).cells? c =
      if l.filter (fun x => column x = c) = [] then none
      else some ((l.filter fun x => column x = c).map cell) := by
  have hcolumn : ∀ x, (decide ((column x).key = c.key) && decide ((column x).familyId = c.familyId)) =
      decide (column x = c) := fun x => by
    obtain ⟨f,k⟩ := c
    cases hx : column x
    simp only [Column.mk.injEq,Bool.decide_and,Bool.and_comm]
  rw [Families.cells?,byFamily,Dict.get?_mapValues,Dict.get?_group]
  split
  · rename_i hnil
    have hnil' : l.filter (fun x => column x = c) = [] := List.filter_eq_nil_iff.mpr fun x hx hc =>
      List.filter_eq_nil_iff.mp hnil x hx (by simp [of_decide_eq_true hc])
    simp [hnil']
  · rw [Option.map_some,Option.bind_some,Dict.get?_mapValues,Dict.get?_group,List.filter_filter]
    simp only [hcolumn]
    split <;> simp

/-- `PreconditionError` for no rows, `ValueError` for an empty column list, `KeyError` for a column
without an attribute, `UnicodeDecodeError` for a column name or a row key, `ValueError` for an id. -/
inductive ReadError
  | precondition
  | emptyColumns
  | unknownKey (column : Column)
  | undecodableName (column : Column)
  | undecodableKey (rowKey : Bytes)
  | notAnId (rowKey : Bytes)
  deriving DecidableEq

/-- What `from_key` raises for a column without an attribute: its report decodes the key. -/
def ReadError.ofUnknown (c : Column) : ReadError :=
  if c.Decodable then .unknownKey c else .undecodableName c

def Undecodable (cells : List StoredCell) : Prop := ∃ c ∈ cells, ¬ c.column.Decodable

instance (cells : List StoredCell) : Decidable (Undecodable cells) :=
  inferInstanceAs (Decidable (∃ c ∈ cells, _))

/-- `.decode("utf-8")` of the column names, cell after cell. -/
def decodeNames (cells : List StoredCell) : Except ReadError Unit :=
  match cells.find? fun c => ¬ c.column.Decodable with
  | some c => .error (.undecodableName c.column)
  | none => .ok ()

section Names

variable {cells l m : List StoredCell}

theorem not_undecodable_iff : ¬ Undecodable cells ↔ ∀ c ∈ cells, c.column.Decodable := by
  simp [Undecodable]

theorem decodeNames_of_decodable (h : ∀ c ∈ cells, c.column.Decodable) : decodeNames cells = .ok () := by
  have hnone : cells.find? (fun c => ¬ c.column.Decodable) = none :=
    List.find?_eq_none.mpr fun c hc => by simpa using h c hc
  rw [decodeNames,hnone]

/-- The first name that is not UTF-8 is the one that is reported. -/
theorem decodeNames_error (h : Undecodable cells) : ∃ c ∈ cells,
    ¬ c.column.Decodable ∧ decodeNames cells = .error (.undecodableName c.column) := by
  obtain ⟨c,hc,hnot⟩ := h
  cases hfind : cells.find? fun c => ¬ c.column.Decodable with
  | none => exact absurd (decide_eq_true hnot) (List.find?_eq_none.mp hfind c hc)
  | some c' =>
    have hfound : ¬ c'.column.Decodable := by simpa using List.find?_some hfind
    exact ⟨c',List.mem_of_find?_eq_some hfind,hfound,by rw [decodeNames,hfind]⟩

theorem decodeNames_cases (cells : List StoredCell) :
    decodeNames cells = .ok () ∧ (∀ c ∈ cells, c.column.Decodable) ∨
      ∃ c ∈ cells, ¬ c.column.Decodable ∧ decodeNames cells = .error (.undecodableName c.column) := by
  by_cases h : Undecodable cells
  · exact Or.inr (decodeNames_error h)
  · have hall := not_undecodable_iff.mp h
    exact Or.inl ⟨decodeNames_of_decodable hall,hall⟩

theorem decodeNames_append :
    decodeNames (l ++ m) = (decodeNames l).bind fun _ => decodeNames m := by
  rw [decodeNames,decodeNames,decodeNames,List.find?_append]
  cases l.find? fun c => ¬ c.column.Decodable <;> rfl

theorem decodeNames_map_map {β γ : Type} (cells : List StoredCell) (x : β) (f : β → γ) :
    ((decodeNames cells).map fun _ => x).map f = (decodeNames cells).map fun _ => f x := by
  cases decodeNames cells <;> rfl

/-- What is made of decoded names does not matter when one of them cannot be decoded. -/
theorem decodeNames_map_eq_iff {β : Type} {x y : β} :
    ((decodeNames cells).map fun _ => x) = ((decodeNames cells).map fun _ => y) ↔
      Undecodable cells ∨ x = y := by
  rcases decodeNames_cases cells with ⟨hok,hall⟩ | ⟨c,hc,hnot,herror⟩
  · rw [hok,or_iff_right (not_undecodable_iff.mpr hall)]
    exact ⟨Except.ok.inj,fun h => by rw [h]⟩
  · rw [herror]
    exact iff_of_true rfl (Or.inl ⟨c,hc,hnot⟩)

/-- A loop that decodes the names of one part after the other decodes those of all. -/
theorem foldlM_decodeNames {σ κ β : Type} [DecidableEq κ] {f : σ → Except ReadError (Dict κ β)}
    {part : σ → List StoredCell} {g : σ → Dict κ β}
    (h : ∀ x, f x = (decodeNames (part x)).map fun _ => g x) (xs : List σ) (d : Dict κ β) :
    xs.foldlM (fun d x => (f x).map d.update) d =
      (decodeNames (xs.flatMap part)).map fun _ => xs.foldl (fun d x => d.update (g x)) d := by
  induction xs generalizing d with
  | nil => rfl
  | cons x xs ih =>
    rw [List.foldlM_cons,List.flatMap_cons,decodeNames_append,h]
    rcases decodeNames_cases (part x) with ⟨hx,-⟩ | ⟨c,-,-,hx⟩
    · rw [hx]
      exact ih _
    · rw [hx]
      rfl

end Names

/-- Runs of `size` elements, the last one shorter: `chunked`, and slicing in steps of `size`. -/
def chunks {α : Type} (size : ℕ) : ℕ → List α → List (List α)
  | 0, _ => []
  | _+1, [] => []
  | n+1, x :: xs =>
    if size = 0 then [] else (x :: xs).take size :: chunks size n ((x :: xs).drop size)

def chunked {α : Type} (size : ℕ) (xs : List α) : List (List α) := chunks size xs.length xs

theorem flatten_chunks {α : Type} {size : ℕ} (h : 0 < size) {n : ℕ} {xs : List α}
    (hn : xs.length ≤ n) : (chunks size n xs).flatten = xs := by
  induction n generalizing xs with
  | zero => simpa [chunks] using (List.length_eq_zero_iff.mp (Nat.le_zero.mp hn)).symm
  | succ n ih =>
    cases xs with
    | nil => rfl
    | cons x xs =>
      have hdrop : ((x :: xs).drop size).length ≤ n := by
        simp only [List.length_drop,List.length_cons] at hn ⊢
        omega
      rw [chunks,if_neg h.ne',List.flatten_cons,ih hdrop,List.take_append_drop]

theorem flatten_chunked {α : Type} {size : ℕ} (h : 0 < size) (xs : List α) :
    (chunked size xs).flatten = xs :=
  flatten_chunks h le_rfl

theorem chunked_singleton {α : Type} {size : ℕ} (h : 0 < size) (x : α) : chunked size [x] = [[x]] := by
  have htake : [x].take size = [x] := List.take_of_length_le h
  simp [chunked,chunks,h.ne',htake]

end KvdbClient
