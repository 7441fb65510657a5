import Mathlib.Tactic

/-! Numerals of a fixed length: the lexicographic order of the digits is the order of the numbers. -/
namespace PositionalOrder

variable {α β : Type}

/-- The number that is spelled after the digits read so far spelled `n`. -/
def value (b : ℕ) (v : α → ℕ) (l : List α) (n : ℕ) : ℕ := l.foldl (fun n a => b*n+v a) n

variable {b : ℕ} {v : α → ℕ}

theorem value_cons (a : α) (l : List α) (n : ℕ) : value b v (a :: l) n = value b v l (b*n+v a) := rfl

theorem value_eq (l : List α) (n : ℕ) : value b v l n = b^l.length*n+value b v l 0 := by
  induction l generalizing n with
  | nil => simp [value]
  | cons a l ih =>
    rw [value_cons,value_cons,ih,ih (b*0+v a),List.length_cons,pow_succ]
    ring

theorem value_lt {l : List α} (h : ∀ a ∈ l, v a < b) : value b v l 0 < b^l.length := by
  induction l with
  | nil => simp [value]
  | cons a l ih =>
    have htail := ih fun x hx => h x (List.mem_cons_of_mem _ hx)
    have hhead : v a+1 ≤ b := h a List.mem_cons_self
    rw [value_cons,value_eq,List.length_cons,pow_succ]
    calc b^l.length*(b*0+v a)+value b v l 0
        < b^l.length*(v a)+b^l.length := by simpa using htail
      _ = b^l.length*(v a+1) := by ring
      _ ≤ b^l.length*b := Nat.mul_le_mul_left _ hhead

theorem lt_iff_of_lt {P x y m n : ℕ} (hm : m < P) (hn : n < P) :
    P*x+m < P*y+n ↔ x < y ∨ x = y ∧ m < n := by
  rcases lt_trichotomy x y with h | h | h
  · have := Nat.mul_le_mul_left P (Nat.succ_le_of_lt h)
    rw [Nat.mul_succ] at this
    simp only [h,true_or,iff_true]
    omega
  · subst h
    simp
  · have := Nat.mul_le_mul_left P (Nat.succ_le_of_lt h)
    rw [Nat.mul_succ] at this
    have hne : x ≠ y := h.ne'
    simp only [h.asymm,hne,false_and,or_self,iff_false]
    omega

/-- Digits written so that they compare like their values make numerals of one length compare like
the numbers. -/
theorem map_lt_map_iff [LT β] {e : α → β} {l m : List α} (hl : ∀ a ∈ l, v a < b)
    (hm : ∀ a ∈ m, v a < b) (he : ∀ x ∈ l, ∀ y ∈ m, (e x < e y ↔ v x < v y) ∧ (e x = e y ↔ v x = v y))
    (hlen : l.length = m.length) : l.map e < m.map e ↔ value b v l 0 < value b v m 0 := by
  induction l generalizing m with
  | nil =>
    rw [List.length_eq_zero_iff.mp hlen.symm]
    simp [value]
  | cons x l ih =>
    cases m with
    | nil => simp at hlen
    | cons y m =>
      have hlen' : l.length = m.length := by simpa using hlen
      have htail := ih (fun a ha => hl a (List.mem_cons_of_mem _ ha))
        (fun a ha => hm a (List.mem_cons_of_mem _ ha))
        (fun a ha c hc => he a (List.mem_cons_of_mem _ ha) c (List.mem_cons_of_mem _ hc)) hlen'
      obtain ⟨hlt,heq⟩ := he x List.mem_cons_self y List.mem_cons_self
      have hvl := value_lt (b := b) (v := v) fun a ha => hl a (List.mem_cons_of_mem _ ha)
      have hvm := value_lt (b := b) (v := v) fun a ha => hm a (List.mem_cons_of_mem _ ha)
      rw [← hlen'] at hvm
      rw [List.map_cons,List.map_cons,List.cons_lt_cons_iff,htail,hlt,heq,value_cons,value_cons,
        value_eq l (b*0+v x),value_eq m (b*0+v y),← hlen',mul_zero,zero_add,zero_add,
        lt_iff_of_lt hvl hvm]

end PositionalOrder
