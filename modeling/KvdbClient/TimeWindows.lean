import KvdbClient.BigTableReads
import KvdbClient.HBaseReads
import KvdbClient.VastReads

/-! The time window of a read on the three backends, whose bounds are rounded by three functions
and compared in two ways. -/
namespace KvdbClient

/-- The millisecond a datetime lies in. -/
def floorMs (t : ℤ) : ℤ := t / 1000 * 1000

def Window.Contains (w : Window) (t : ℤ) : Prop :=
  (∀ s ∈ w.startTime, floorMs s ≤ t) ∧
    ∀ e ∈ w.endTime, if w.endTimeInclusive then t ≤ e else t < floorMs e

instance (w : Window) (t : ℤ) : Decidable (w.Contains t) :=
  inferInstanceAs (Decidable ((∀ s ∈ _, _) ∧ ∀ e ∈ _, _))

section Rounding

variable (t : ℤ)

theorem getCompatibleTimeStamp_false : getCompatibleTimeStamp t false = floorMs t := by
  simp only [getCompatibleTimeStamp,floorMs,Bool.false_eq_true,if_false]
  omega

/-- Rounding up leaves the millisecond, also from its first microsecond. -/
theorem getCompatibleTimeStamp_true : getCompatibleTimeStamp t true = floorMs t+1000 := by
  simp only [getCompatibleTimeStamp,floorMs,if_true]
  omega

theorem getHbaseCompatibleTimeStamp_eq (roundUp : Bool) :
    HBase.getHbaseCompatibleTimeStamp t roundUp = getCompatibleTimeStamp t roundUp := by
  cases roundUp <;> simp only [HBase.getHbaseCompatibleTimeStamp,getCompatibleTimeStamp] <;>
    grind

theorem getVastCompatibleTimeStamp_false : Vast.getVastCompatibleTimeStamp t false = floorMs t := by
  simp only [Vast.getVastCompatibleTimeStamp,floorMs,Bool.false_eq_true,if_false]
  split <;> omega

end Rounding

/-- The exclusive end that the first two backends send. -/
def Window.upper (w : Window) (e : ℤ) : ℤ := if w.endTimeInclusive then floorMs e+1000 else floorMs e

/-- No end is sent as the epoch, which Bigtable reads as no end. -/
def Window.EndSet (w : Window) : Prop := ∀ e ∈ w.endTime, w.upper e ≠ 0

instance (w : Window) : Decidable w.EndSet :=
  inferInstanceAs (Decidable (∀ e ∈ _, _))

theorem Window.unbounded_endSet : Window.unbounded.EndSet := fun _ he => by cases he

/-- The times that Bigtable admits. -/
def Window.Passes (w : Window) (t : ℤ) : Prop :=
  (∀ s ∈ w.startTime, floorMs s ≤ t) ∧ ∀ e ∈ w.endTime, w.upper e = 0 ∨ t < w.upper e

instance (w : Window) (t : ℤ) : Decidable (w.Passes t) :=
  inferInstanceAs (Decidable ((∀ s ∈ _, _) ∧ ∀ e ∈ _, _))

theorem getCompatibleTimeStamp_upper (w : Window) (e : ℤ) :
    getCompatibleTimeStamp e w.endTimeInclusive = w.upper e := by
  cases h : w.endTimeInclusive <;>
    simp [Window.upper,h,getCompatibleTimeStamp_false,getCompatibleTimeStamp_true]

/-- On the millisecond grid an exclusive end a millisecond later is an inclusive one. -/
theorem lt_upper_iff (w : Window) (ms e : ℤ) :
    1000*ms < w.upper e ↔ if w.endTimeInclusive then 1000*ms ≤ e else 1000*ms < floorMs e := by
  simp only [Window.upper,floorMs]
  split <;> omega

theorem Window.passes_ms (w : Window) (ms : ℤ) :
    w.Passes (1000*ms) ↔ w.Contains (1000*ms) ∨
      ¬ w.EndSet ∧ 0 ≤ ms ∧ ∀ s ∈ w.startTime, floorMs s ≤ 1000*ms := by
  simp only [Passes,Contains,EndSet,← lt_upper_iff]
  cases w.endTime with
  | none => simp
  | some e => simp only [Option.mem_def,Option.some.injEq,forall_eq',ne_eq,not_not]; grind

theorem Window.passes_iff {w : Window} (h : w.EndSet) (ms : ℤ) :
    w.Passes (1000*ms) ↔ w.Contains (1000*ms) := by
  rw [passes_ms,or_iff_left fun hnot => hnot.1 h]

theorem BigTable.apply_getTimeRangeFilter (w : Window) (cells : List BigTable.Cell) :
    (BigTable.getTimeRangeFilter w).apply cells = cells.filter fun x => w.Passes x.timestampMicros := by
  simp only [BigTable.getTimeRangeFilter,BigTable.RowFilter.apply,Window.Passes,
    getCompatibleTimeStamp_false,getCompatibleTimeStamp_upper,Option.mem_def,Option.map_eq_some_iff,
    forall_exists_index,and_imp,forall_apply_eq_imp_iff₂]

theorem BigTable.mem_apply_getTimeRangeFilter {w : Window} {cells : List BigTable.Cell}
    {x : BigTable.Cell} :
    x ∈ (BigTable.getTimeRangeFilter w).apply cells ↔ x ∈ cells ∧ w.Passes x.timestampMicros := by
  rw [apply_getTimeRangeFilter,List.mem_filter,decide_eq_true_eq]

theorem HBase.admits_iff {w : Window} {columns : Columns} {s e : Bytes} {inclusive : Bool}
    {c : StoredCell} :
    (HBase.scannerSpec s e inclusive columns w).Admits c ↔
      (columns.toList.getD [] = [] ∨ c.column ∈ columns.toList.getD []) ∧
        (∀ s ∈ w.startTime, floorMs s ≤ 1000*c.timestamp) ∧
          ∀ e ∈ w.endTime, 1000*c.timestamp < w.upper e := by
  have hstart : ∀ t, HBase.datetimeToHbaseTs (floorMs t) ≤ c.timestamp ↔
      floorMs t ≤ 1000*c.timestamp := by
    intro t
    simp only [HBase.datetimeToHbaseTs,floorMs]
    omega
  have hend : ∀ t, c.timestamp < HBase.datetimeToHbaseTs (w.upper t) ↔
      1000*c.timestamp < w.upper t := by
    intro t
    simp only [HBase.datetimeToHbaseTs,Window.upper,floorMs]
    split <;> omega
  simp only [HBase.ScannerSpec.Admits,HBase.scannerSpec,getHbaseCompatibleTimeStamp_eq,
    getCompatibleTimeStamp_false,getCompatibleTimeStamp_upper,Option.mem_def,Option.map_eq_some_iff,
    forall_exists_index,and_imp,forall_apply_eq_imp_iff₂,hstart,hend]

theorem Vast.timePredicate_iff {w : Window} {c : StoredCell} :
    Vast.timePredicate w c = true ↔ (∀ s ∈ w.startTime, floorMs s ≤ c.timestamp) ∧
      ∀ e ∈ w.endTime,
        if w.endTimeInclusive then c.timestamp ≤ floorMs e else c.timestamp < floorMs e := by
  simp only [Vast.timePredicate,decide_eq_true_eq,getVastCompatibleTimeStamp_false]

/-- On the millisecond grid the floored inclusive end loses nothing. -/
theorem Vast.timePredicate_ms (w : Window) (c : StoredCell) (ms : ℤ) :
    timePredicate w { c with timestamp := 1000*ms } = true ↔ w.Contains (1000*ms) := by
  have hend : ∀ e, 1000*ms ≤ floorMs e ↔ 1000*ms ≤ e := by
    intro e
    simp only [floorMs]
    omega
  rw [timePredicate_iff]
  simp only [Window.Contains,hend]

section Windows

variable (w : Window) (c : StoredCell) (ms : ℤ) (s e : Bytes) (inclusive : Bool)

/-- A cell on the millisecond grid passes the time filter of each backend exactly when it lies in
the window. -/
def TimeWindowsAgree : Prop :=
  (BigTable.ofStored { c with timestamp := 1000*ms } ∈
      (BigTable.getTimeRangeFilter w).apply [BigTable.ofStored { c with timestamp := 1000*ms }] ↔
    w.Contains (1000*ms)) ∧
  ((HBase.scannerSpec s e inclusive .all w).Admits { c with timestamp := ms } ↔
    w.Contains (1000*ms)) ∧
  (Vast.timePredicate w { c with timestamp := 1000*ms } = true ↔ w.Contains (1000*ms))

/-- The backends agree on every cell unless the end is sent to Bigtable as the epoch: then it lets
the cells from 1970 on through that are not before the start. -/
theorem timeWindows_agree_iff :
    TimeWindowsAgree w c ms s e inclusive ↔
      w.EndSet ∨ ms < 0 ∨ ∃ t ∈ w.startTime, 1000*ms < floorMs t := by
  have hhbase : (HBase.scannerSpec s e inclusive .all w).Admits { c with timestamp := ms } ↔
      w.Contains (1000*ms) := by
    rw [HBase.admits_iff]
    simp only [Columns.toList,Option.getD_none,true_or,true_and,lt_upper_iff,Window.Contains]
  have hend : ¬ w.EndSet → 0 ≤ ms → ¬ w.Contains (1000*ms) := by
    intro hnot hms hin
    refine hnot fun t ht hupper => ?_
    have hlt := (lt_upper_iff w ms t).mpr (hin.2 t ht)
    omega
  rw [TimeWindowsAgree,and_iff_left ⟨hhbase,Vast.timePredicate_ms w c ms⟩,
    BigTable.mem_apply_getTimeRangeFilter]
  simp only [List.mem_singleton,true_and,BigTable.ofStored,Window.passes_ms]
  constructor
  · intro hagree
    by_contra hnot
    simp only [not_or,not_lt,not_exists,not_and] at hnot
    exact hend hnot.1 hnot.2.1 (hagree.mp (Or.inr ⟨hnot.1,hnot.2⟩))
  · refine fun hset => or_iff_left fun hnot => ?_
    rcases hset with hset | hms | ⟨t,ht,hlt⟩
    · exact hnot.1 hset
    · omega
    · exact absurd (hnot.2.2 t ht) (not_le.mpr hlt)

end Windows

/-- An exclusive end in the first millisecond of 1970 does not keep a cell from a millisecond later
out on BigTable. -/
theorem timeWindows_differ :
    ¬ TimeWindowsAgree ⟨none,some 500,false⟩ ⟨[107],Hierarchy.parent,0,[]⟩ 1 [] [] false :=
  fun h => absurd (h.1.mp (by decide)) (by decide)

end KvdbClient
