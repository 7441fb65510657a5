import Mathlib.Tactic

/-! Runs of a step that ends or goes on, when they come in rounds of one length: whether there is a
bound on their steps depends on how many rounds are repeated. -/
namespace Rounds

section Runs

variable {S O : Type} (step : S → O ⊕ S)

def run : ℕ → S → O ⊕ S
  | 0, s => .inr s
  | n+1, s =>
    match step s with
    | .inl o => .inl o
    | .inr t => run n t

def EndsWithin (n : ℕ) (s : S) : Prop := ∃ o, run step n s = .inl o

variable {step}

theorem run_succ_of_inr {n : ℕ} {s t : S} (h : step s = .inr t) :
    run step (n+1) s = run step n t := by
  rw [run,h]

theorem endsWithin_of_inl {n : ℕ} {s : S} {o : O} (h : step s = .inl o) :
    EndsWithin step (n+1) s :=
  ⟨o,by rw [run,h]⟩

theorem EndsWithin.next {n : ℕ} {s t : S} (h : step s = .inr t) (ht : EndsWithin step n t) :
    EndsWithin step (n+1) s := by
  obtain ⟨o,ho⟩ := ht
  exact ⟨o,(run_succ_of_inr h).trans ho⟩

theorem run_add_of_inr {m n : ℕ} {s t : S} (h : run step m s = .inr t) :
    run step (m+n) s = run step n t := by
  induction m generalizing s with
  | zero =>
    obtain rfl := Sum.inr.inj h
    rw [Nat.zero_add]
  | succ m ih =>
    rw [Nat.add_right_comm]
    cases hs : step s with
    | inl o =>
      rw [run,hs] at h
      cases h
    | inr u =>
      rw [run_succ_of_inr hs] at h ⊢
      exact ih h

theorem EndsWithin.after {m n : ℕ} {s t : S} (h : run step m s = .inr t)
    (ht : EndsWithin step n t) : EndsWithin step (m+n) s := by
  obtain ⟨o,ho⟩ := ht
  exact ⟨o,(run_add_of_inr h).trans ho⟩

theorem EndsWithin.mono {m n : ℕ} {s : S} (h : EndsWithin step m s) (hmn : m ≤ n) :
    EndsWithin step n s := by
  induction m generalizing s n with
  | zero =>
    obtain ⟨o,ho⟩ := h
    cases ho
  | succ m ih =>
    obtain ⟨n,rfl⟩ : ∃ k, n = k+1 := ⟨n-1,by omega⟩
    cases hs : step s with
    | inl o => exact endsWithin_of_inl hs
    | inr u =>
      obtain ⟨o,ho⟩ := h
      rw [run_succ_of_inr hs] at ho
      exact (ih ⟨o,ho⟩ (Nat.le_of_succ_le_succ hmn)).next hs

theorem not_endsWithin_of_run {n : ℕ} {s t : S} (h : run step n s = .inr t) :
    ¬ EndsWithin step n s := by
  rintro ⟨o,ho⟩
  cases ho.symm.trans h

end Runs

/-- Round `j` starts in `start j`; it is repeated, or the run ends soon. -/
structure Retries {S O : Type} (step : S → O ⊕ S) (start : ℕ → S) (repeats : ℕ → Prop)
    (len tail : ℕ) : Prop where
  positive : 0 < len
  again : ∀ j, repeats j → run step len (start j) = .inr (start (j+1))
  stop : ∀ j, ¬ repeats j → EndsWithin step tail (start j)

namespace Retries

variable {S O : Type} {step : S → O ⊕ S} {start : ℕ → S} {repeats : ℕ → Prop} {len tail : ℕ}

theorem run_of_repeats (h : Retries step start repeats len tail) {j : ℕ}
    (hj : ∀ i < j, repeats i) : run step (len*j) (start 0) = .inr (start j) := by
  induction j with
  | zero => rfl
  | succ j ih =>
    rw [Nat.mul_succ,run_add_of_inr (ih fun i hi => hj i (by omega))]
    exact h.again j (hj j (by omega))

theorem endsWithin (h : Retries step start repeats len tail) {j : ℕ} (hj : ¬ repeats j) :
    EndsWithin step (len*j+tail) (start 0) := by
  classical
  have hex : ∃ i, ¬ repeats i := ⟨j,hj⟩
  have hmin : ∀ i < Nat.find hex, repeats i := fun i hi => not_not.mp (Nat.find_min hex hi)
  have hle : Nat.find hex ≤ j := Nat.find_min' hex hj
  refine ((h.stop _ (Nat.find_spec hex)).after (h.run_of_repeats hmin)).mono ?_
  exact Nat.add_le_add_right (Nat.mul_le_mul_left _ hle) _

theorem exists_of_endsWithin (h : Retries step start repeats len tail) {n : ℕ}
    (hn : EndsWithin step n (start 0)) : ∃ j ≤ n, ¬ repeats j := by
  by_contra hnone
  push Not at hnone
  refine not_endsWithin_of_run (h.run_of_repeats fun i (hi : i < n) => hnone i hi.le) (hn.mono ?_)
  exact Nat.le_mul_of_pos_left n h.positive

theorem ends_iff (h : Retries step start repeats len tail) :
    (∃ n, EndsWithin step n (start 0)) ↔ ∃ j, ¬ repeats j := by
  constructor
  · rintro ⟨n,hn⟩
    obtain ⟨j,-,hj⟩ := h.exists_of_endsWithin hn
    exact ⟨j,hj⟩
  · rintro ⟨j,hj⟩
    exact ⟨_,h.endsWithin hj⟩

/-- Runs have one bound on their steps if and only if there is one on their repeated rounds. -/
theorem bounded_iff {ι : Type} {steps : ι → S → O ⊕ S} {starts : ι → ℕ → S} {repeated : ι → ℕ → Prop}
    (h : ∀ i, Retries (steps i) (starts i) (repeated i) len tail) (K : Set ι) :
    (∃ n, ∀ i ∈ K, EndsWithin (steps i) n (starts i 0)) ↔ ∃ n, ∀ i ∈ K, ∃ j ≤ n, ¬ repeated i j := by
  constructor
  · rintro ⟨n,hn⟩
    exact ⟨n,fun i hi => (h i).exists_of_endsWithin (hn i hi)⟩
  · rintro ⟨n,hn⟩
    refine ⟨len*n+tail,fun i hi => ?_⟩
    obtain ⟨j,hjn,hj⟩ := hn i hi
    refine ((h i).endsWithin hj).mono ?_
    exact Nat.add_le_add_right (Nat.mul_le_mul_left _ hjn) _

end Retries

end Rounds
