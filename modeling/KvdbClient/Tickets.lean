import Mathlib.Tactic

/-! Numbers handed out by counters that are only ever incremented: an increment hands out the
numbers it passes, so no number of a counter is handed out twice. -/
namespace Tickets

variable {κ ε β : Type}

structure Increment (κ : Type) where
  key : κ
  before : ℕ
  size : ℕ

namespace Increment

def after (i : Increment κ) : ℕ := i.before+i.size

def Hands (i : Increment κ) (t : κ × ℕ) : Prop := t.1 = i.key ∧ i.before < t.2 ∧ t.2 ≤ i.after

end Increment

variable [DecidableEq κ]

/-- The increments that lead from the values `c₀` to `c`, in the order of their execution. -/
inductive History (c₀ : κ → ℕ) : List (Increment κ) → (κ → ℕ) → Prop
  | nil : History c₀ [] c₀
  | snoc {h : List (Increment κ)} {c : κ → ℕ} {i : Increment κ} : History c₀ h c →
      i.before = c i.key → History c₀ (h ++ [i]) (Function.update c i.key i.after)

namespace History

variable {c₀ c : κ → ℕ} {h : List (Increment κ)}

theorem after_le (hh : History c₀ h c) {i : Increment κ} (hi : i ∈ h) : i.after ≤ c i.key := by
  induction hh with
  | nil => simp at hi
  | @snoc h c j _ hj ih =>
    by_cases hkey : i.key = j.key
    · rw [hkey,Function.update_self]
      rcases List.mem_append.mp hi with hi | hi
      · have := ih hi
        rw [hkey,← hj] at this
        exact this.trans (Nat.le_add_right _ _)
      · rw [List.mem_singleton.mp hi]
    · rw [Function.update_of_ne hkey]
      rcases List.mem_append.mp hi with hi | hi
      · exact ih hi
      · exact absurd (congrArg Increment.key (List.mem_singleton.mp hi)) hkey

theorem unchanged (hh : History c₀ h c) {key : κ} (hkey : ∀ i ∈ h, i.key ≠ key) : c key = c₀ key := by
  induction hh with
  | nil => rfl
  | @snoc h c j _ _ ih =>
    have hj : j.key ≠ key := hkey j (List.mem_append.mpr (Or.inr (List.mem_singleton_self j)))
    rw [Function.update_of_ne hj.symm]
    exact ih fun i hi => hkey i (List.mem_append.mpr (Or.inl hi))

theorem ordered (hh : History c₀ h c) :
    h.Pairwise fun i j => i.key = j.key → i.after ≤ j.before := by
  induction hh with
  | nil => exact List.Pairwise.nil
  | snoc hh hj ih =>
    refine List.pairwise_append.mpr ⟨ih,List.pairwise_singleton _ _,?_⟩
    intro i hi j' hj' hkey
    rw [List.mem_singleton.mp hj'] at hkey ⊢
    rw [hj,← hkey]
    exact hh.after_le hi

theorem disjoint (hh : History c₀ h c) : h.Pairwise fun i j => ∀ t, i.Hands t → ¬ j.Hands t := by
  refine hh.ordered.imp fun {i j} hij t hi hj => ?_
  have := hij (hi.1.symm.trans hj.1)
  have := hi.2.2
  have := hj.2.1
  omega

/-- Identifiers made from the numbers handed out to them, such that the number can be read back,
never repeat. -/
theorem nodup_flatMap {l : List ε} {increment : ε → Increment κ}
    (hh : History c₀ (l.map increment) c) {ids : ε → List β} (ticket : β → κ × ℕ)
    (hnodup : ∀ e ∈ l, (ids e).Nodup)
    (hticket : ∀ e ∈ l, ∀ x ∈ ids e, (increment e).Hands (ticket x)) :
    (l.flatMap ids).Nodup := by
  refine List.nodup_flatMap.mpr ⟨hnodup,?_⟩
  have hdisjoint := List.pairwise_map.mp hh.disjoint
  refine (List.Pairwise.and_mem.mp hdisjoint).imp fun {e e'} h x hx hx' => ?_
  obtain ⟨he,he',h⟩ := h
  exact h _ (hticket e he x hx) (hticket e' he' x hx')

theorem numbers (hh : History c₀ h c) (key : κ) : c₀ key ≤ c key ∧
    (h.filter fun i => i.key = key).flatMap (fun i => List.range' (i.before+1) i.size) =
      List.range' (c₀ key+1) (c key-c₀ key) := by
  induction hh with
  | nil => simp
  | @snoc h c j _ hj ih =>
    obtain ⟨hle,hnumbers⟩ := ih
    by_cases hkey : j.key = key
    · subst hkey
      rw [List.filter_append,List.flatMap_append,hnumbers,Function.update_self,Increment.after,hj]
      refine ⟨hle.trans (Nat.le_add_right _ _),?_⟩
      have hstart : c j.key+1 = c₀ j.key+1+(c j.key-c₀ j.key) := by omega
      simp only [List.filter_cons,decide_true,if_true,List.filter_nil,List.flatMap_singleton]
      rw [hj,hstart,List.range'_append_1]
      congr 1
      omega
    · rw [List.filter_append,List.flatMap_append,hnumbers,Function.update_of_ne (Ne.symm hkey)]
      exact ⟨hle,by simp [hkey]⟩

end History

end Tickets
