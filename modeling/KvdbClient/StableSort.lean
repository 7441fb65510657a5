import Mathlib.Tactic

/-! Stability of insertion sort: sorting commutes with filtering, so within a group only the order
inside the group matters. -/
namespace StableSort

variable {α : Type} {r s : α → α → Prop} [DecidableRel r] [DecidableRel s]

theorem filter_orderedInsert [IsTrans α r] (p : α → Bool) (a : α) {l : List α}
    (h : l.Pairwise r) :
    (l.orderedInsert r a).filter p =
      if p a then (l.filter p).orderedInsert r a else l.filter p := by
  induction l with
  | nil => by_cases ha : p a <;> simp [ha]
  | cons b l ih =>
    obtain ⟨hb,hl⟩ := List.pairwise_cons.mp h
    by_cases hab : r a b
    · rw [List.orderedInsert_cons,if_pos hab]
      by_cases ha : p a
      · have hhead : ∀ c ∈ (b :: l).filter p, r a c := by
          intro c hc
          rcases List.mem_cons.mp (List.mem_filter.mp hc).1 with rfl | hc
          · exact hab
          · exact IsTrans.trans _ _ _ hab (hb c hc)
        rw [if_pos ha,List.filter_cons_of_pos ha]
        cases hf : (b :: l).filter p with
        | nil => rfl
        | cons c m =>
          rw [List.orderedInsert_cons,if_pos (hhead c (by rw [hf]; exact List.mem_cons_self))]
      · rw [if_neg ha,List.filter_cons_of_neg ha]
    · rw [List.orderedInsert_cons,if_neg hab]
      by_cases hp : p b
      · rw [List.filter_cons_of_pos hp,List.filter_cons_of_pos hp,ih hl]
        by_cases ha : p a
        · rw [if_pos ha,if_pos ha,List.orderedInsert_cons,if_neg hab]
        · rw [if_neg ha,if_neg ha]
      · rw [List.filter_cons_of_neg hp,List.filter_cons_of_neg hp,ih hl]

theorem filter_insertionSort [Std.Total r] [IsTrans α r] (p : α → Bool) (l : List α) :
    (l.insertionSort r).filter p = (l.filter p).insertionSort r := by
  induction l with
  | nil => rfl
  | cons a l ih =>
    rw [List.insertionSort_cons,filter_orderedInsert p a (List.pairwise_insertionSort r l),ih]
    by_cases ha : p a
    · rw [if_pos ha,List.filter_cons_of_pos ha,List.insertionSort_cons]
    · rw [if_neg ha,List.filter_cons_of_neg ha]

theorem insertionSort_congr {l : List α} (h : ∀ a ∈ l, ∀ b ∈ l, r a b ↔ s a b) :
    l.insertionSort r = l.insertionSort s := by
  simpa using List.map_insertionSort r s id l h

section Key

variable {β κ : Type} [LinearOrder κ] {key : α → κ}

end Key

end StableSort
