import Mathlib.Tactic

/-! Arrays with boolean masks and index arrays, as lists. -/
namespace MaskedLists

variable {α β γ : Type}

/-- `xs[mask]`. -/
def select : List Bool → List α → List α
  | true :: mask, x :: xs => x :: select mask xs
  | false :: mask, _ :: xs => select mask xs
  | _, _ => []

/-- `xs[mask] = ys`. -/
def assign : List Bool → List α → List α → List α
  | true :: mask, _ :: xs, y :: ys => y :: assign mask xs ys
  | false :: mask, x :: xs, ys => x :: assign mask xs ys
  | _, xs, _ => xs

/-- `xs[mask] = y`. -/
def fill (mask : List Bool) (xs : List α) (y : α) : List α :=
  List.zipWith (fun b x => if b then y else x) mask xs

/-- `xs[indices]`. -/
def pick (xs : List α) (indices : List ℕ) : List α := indices.filterMap (xs[·]?)

theorem select_map (m : γ → Bool) (f : γ → α) (l : List γ) :
    select (l.map m) (l.map f) = (l.filter m).map f := by
  induction l with
  | nil => rfl
  | cons x l ih => cases h : m x <;> simp [select,h,ih]

theorem assign_map (m : γ → Bool) (f g : γ → α) (l : List γ) :
    assign (l.map m) (l.map f) ((l.filter m).map g) = l.map fun x => if m x then g x else f x := by
  induction l with
  | nil => rfl
  | cons x l ih => cases h : m x <;> simp [assign,h,ih]

theorem fill_map (c : γ → Bool) (f : γ → α) (y : α) (l : List γ) :
    fill (l.map c) (l.map f) y = l.map fun x => if c x then y else f x := by
  rw [fill,List.zipWith_map,List.zipWith_self]

theorem mem_of_mem_select {mask : List Bool} {xs : List α} {x : α} (h : x ∈ select mask xs) :
    x ∈ xs := by
  induction mask generalizing xs with
  | nil => simp [select] at h
  | cons b mask ih =>
    cases xs with
    | nil => cases b <;> simp [select] at h
    | cons y xs =>
      cases b with
      | false => exact List.mem_cons_of_mem _ (ih h)
      | true =>
        rcases List.mem_cons.mp h with rfl | h
        · exact List.mem_cons_self
        · exact List.mem_cons_of_mem _ (ih h)

theorem mem_of_mem_assign {mask : List Bool} {xs ys : List α} {x : α} (h : x ∈ assign mask xs ys) :
    x ∈ xs ∨ x ∈ ys := by
  induction mask generalizing xs ys with
  | nil => exact Or.inl (by simpa [assign] using h)
  | cons b mask ih =>
    cases xs with
    | nil => cases b <;> simp [assign] at h
    | cons z xs =>
      cases b with
      | false =>
        rcases List.mem_cons.mp h with rfl | h
        · exact Or.inl List.mem_cons_self
        · exact (ih h).imp_left (List.mem_cons_of_mem _)
      | true =>
        cases ys with
        | nil => exact Or.inl (by simpa [assign] using h)
        | cons y ys =>
          rcases List.mem_cons.mp h with rfl | h
          · exact Or.inr List.mem_cons_self
          · exact (ih h).imp (List.mem_cons_of_mem _) (List.mem_cons_of_mem _)

theorem mem_of_mem_pick {xs : List α} {indices : List ℕ} {x : α} (h : x ∈ pick xs indices) :
    x ∈ xs := by
  obtain ⟨i,_,hi⟩ := List.mem_filterMap.mp h
  exact List.mem_of_getElem? hi

section Unique

variable [LinearOrder α]

/-- `np.unique`: the distinct elements, sorted. -/
def unique (xs : List α) : List α := xs.dedup.insertionSort (· ≤ ·)

/-- `return_inverse`: where the elements are among the distinct ones. -/
def inverse (xs : List α) : List ℕ := xs.map fun x => (unique xs).idxOf x

theorem mem_unique {xs : List α} {x : α} : x ∈ unique xs ↔ x ∈ xs := by
  rw [unique,List.mem_insertionSort,List.mem_dedup]

theorem nodup_unique (xs : List α) : (unique xs).Nodup :=
  (List.perm_insertionSort _ _).nodup_iff.mpr (List.nodup_dedup xs)

theorem pick_inverse (f : α → β) (xs : List α) :
    pick ((unique xs).map f) (inverse xs) = xs.map f := by
  rw [pick,inverse,List.filterMap_map,← List.filterMap_eq_map]
  refine List.filterMap_congr fun x hx => ?_
  have hmem := mem_unique.mpr hx
  have hlt := List.idxOf_lt_length_iff.mpr hmem
  simp [List.getElem?_map,List.getElem?_eq_getElem hlt]

end Unique

end MaskedLists
