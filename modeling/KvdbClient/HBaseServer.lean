import KvdbClient.Attributes
import KvdbClient.Lease

/-! The HBase table and the single REST requests of the lock operations, each of which the server
executes atomically. Checks look at the newest version of a column. -/
namespace KvdbClient
namespace HBase

open Lease

def datetimeToHbaseTs (dt : ℤ) : ℤ := dt / 1000

def hbaseTsToDatetime (ts : ℤ) : ℤ := ts * 1000

structure Version where
  value : Bytes
  ts : ℤ
  deriving DecidableEq

structure Versions where
  list : List Version
  sorted : list.Pairwise fun a b => b.ts ≤ a.ts

abbrev Table := Bytes → Column → Versions

namespace Versions

def empty : Versions := ⟨[],List.Pairwise.nil⟩

/-- `_insert_cell`: before the first version that is not newer. -/
def insertCell (vs : Versions) (e : Version) : Versions where
  list := vs.list.orderedInsert (fun a b => b.ts ≤ a.ts) e
  sorted := by
    have : Std.Total fun a b : Version => b.ts ≤ a.ts := ⟨fun a b => le_total b.ts a.ts⟩
    have : IsTrans Version fun a b => b.ts ≤ a.ts := ⟨fun _ _ _ hab hbc => le_trans hbc hab⟩
    exact vs.sorted.orderedInsert e _

theorem mem_insertCell {vs : Versions} {e v : Version} :
    v ∈ (vs.insertCell e).list ↔ v = e ∨ v ∈ vs.list :=
  List.mem_orderedInsert _

def grants (vs : Versions) : Set (Grant Bytes ℤ) := {g | ∃ v ∈ vs.list, g = ⟨v.value,v.ts⟩}

theorem grants_insertCell (vs : Versions) (e : Version) :
    (vs.insertCell e).grants = insert ⟨e.value,e.ts⟩ vs.grants := by
  ext g
  constructor
  · rintro ⟨v,hv,rfl⟩
    rcases mem_insertCell.mp hv with rfl | hv
    · exact Or.inl rfl
    · exact Or.inr ⟨v,hv,rfl⟩
  · rintro (rfl | ⟨v,hv,rfl⟩)
    · exact ⟨e,mem_insertCell.mpr (Or.inl rfl),rfl⟩
    · exact ⟨v,mem_insertCell.mpr (Or.inr hv),rfl⟩

theorem grants_eq_empty {vs : Versions} (h : vs.list = []) : vs.grants = ∅ := by
  ext g
  simp [grants,h]

@[simp] theorem grants_empty : empty.grants = ∅ := grants_eq_empty rfl

theorem newest_mem {vs : Versions} {v : Version} (h : vs.list.head? = some v) :
    (⟨v.value,v.ts⟩ : Grant Bytes ℤ) ∈ vs.grants :=
  ⟨v,List.mem_of_head? h,rfl⟩

theorem stamp_le_of_head {vs : Versions} {v : Version} (h : vs.list.head? = some v)
    {g : Grant Bytes ℤ} (hg : g ∈ vs.grants) : g.stamp ≤ v.ts := by
  obtain ⟨w,hw,rfl⟩ := hg
  obtain ⟨rest,hlist⟩ := List.head?_eq_some_iff.mp h
  have hs := vs.sorted
  rw [hlist] at hs hw
  rcases List.mem_cons.mp hw with rfl | hw
  · exact le_rfl
  · exact (List.pairwise_cons.mp hs).1 w hw

end Versions

namespace Table

def set (t : Table) (k : Bytes) (col : Column) (vs : Versions) : Table :=
  fun r c => if r = k ∧ c = col then vs else t r c

@[simp] theorem set_self (t : Table) (k : Bytes) (col : Column) (vs : Versions) :
    t.set k col vs k col = vs := by
  simp [set]

theorem set_of_ne {t : Table} {k r : Bytes} {col c : Column} {vs : Versions}
    (h : ¬ (r = k ∧ c = col)) : t.set k col vs r c = t r c := by
  simp [set,h]

end Table

inductive Request
  | checkAndPut (rowKey : Bytes) (check : Column) (checkValue : Option Bytes) (put : Column)
      (putValue : Bytes) (putTimestamp : Option ℤ)
  | checkAndDelete (rowKey : Bytes) (check : Column) (checkValue : Bytes)
  | deleteCell (rowKey : Bytes) (column : Column)
  | readByteRow (rowKey : Bytes) (column : Column)

/-- Whether the status is 200, and the cells in the body. -/
structure Response where
  success : Bool
  cells : List Version
  deriving DecidableEq

/-- A check without a value wants the column absent, one with a value wants it newest. -/
def checks (vs : Versions) : Option Bytes → Bool
  | none => vs.list.isEmpty
  | some b => vs.list.head?.map (·.value) == some b

def nowMs (now : ℤ) : ℤ := now / 1000

/-- A put without a timestamp is stamped with the server's clock. -/
def serve (now : ℤ) (t : Table) : Request → Response × Table
  | .checkAndPut k check checkValue put v ts =>
    if checks (t k check) checkValue then
      (⟨true,[]⟩,t.set k put ((t k put).insertCell ⟨v,ts.getD (nowMs now)⟩))
    else (⟨false,[]⟩,t)
  | .checkAndDelete k check v =>
    if checks (t k check) (some v) then (⟨true,[]⟩,t.set k check .empty) else (⟨false,[]⟩,t)
  | .deleteCell k col => (⟨true,[]⟩,t.set k col .empty)
  | .readByteRow k col => (⟨true,(t k col).list⟩,t)

theorem checks_none_iff {vs : Versions} : checks vs none = true ↔ vs.list = [] := by
  simp [checks]

theorem checks_some_iff {vs : Versions} {b : Bytes} :
    checks vs (some b) = true ↔ ∃ v, vs.list.head? = some v ∧ v.value = b := by
  simp [checks]

section Outcomes

variable (now : ℤ) (t : Table) (k : Bytes) (col : Column) (v : Bytes)

theorem serve_putAbsent (ts : ℤ) :
    serve now t (.checkAndPut k col none col v (some ts)) = (⟨false,[]⟩,t) ∧ (t k col).list ≠ [] ∨
    serve now t (.checkAndPut k col none col v (some ts)) =
      (⟨true,[]⟩,t.set k col ((t k col).insertCell ⟨v,ts⟩)) ∧ (t k col).list = [] := by
  by_cases h : (t k col).list = []
  · exact Or.inr ⟨by simp [serve,checks_none_iff.mpr h],h⟩
  · exact Or.inl ⟨by simp [serve,checks_none_iff,h],h⟩

theorem serve_putOwn :
    serve now t (.checkAndPut k col (some v) col v none) = (⟨false,[]⟩,t) ∧
      (¬ ∃ n, (t k col).list.head? = some n ∧ n.value = v) ∨
    serve now t (.checkAndPut k col (some v) col v none) =
        (⟨true,[]⟩,t.set k col ((t k col).insertCell ⟨v,nowMs now⟩)) ∧
      ∃ n, (t k col).list.head? = some n ∧ n.value = v := by
  by_cases h : ∃ n, (t k col).list.head? = some n ∧ n.value = v
  · exact Or.inr ⟨by simp [serve,checks_some_iff.mpr h],h⟩
  · exact Or.inl ⟨if_neg (checks_some_iff.not.mpr h),h⟩

theorem serve_checkAndDelete :
    serve now t (.checkAndDelete k col v) = (⟨false,[]⟩,t) ∧
      (¬ ∃ n, (t k col).list.head? = some n ∧ n.value = v) ∨
    serve now t (.checkAndDelete k col v) = (⟨true,[]⟩,t.set k col .empty) ∧
      ∃ n, (t k col).list.head? = some n ∧ n.value = v := by
  by_cases h : ∃ n, (t k col).list.head? = some n ∧ n.value = v
  · exact Or.inr ⟨by simp [serve,checks_some_iff.mpr h],h⟩
  · exact Or.inl ⟨if_neg (checks_some_iff.not.mpr h),h⟩

end Outcomes

end HBase
end KvdbClient
