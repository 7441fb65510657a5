import Mathlib.Tactic

/-! Chains of parents along which a rank grows, up to the elements where a climb stops. -/
namespace AncestorChains

variable {α : Type} (parent : α → Option α) (stops : α → Bool)

/-- At most so many steps up, while there is a parent and the climb does not stop. -/
def climb : ℕ → α → α
  | 0, x => x
  | n+1, x =>
    if stops x then x else
      match parent x with
      | none => x
      | some p => climb n p

def Ended (x : α) : Prop := stops x = true ∨ parent x = none

/-- The rank grows along parents, and is bounded on them. -/
structure Ranked (rank : α → ℕ) (bound : ℕ) : Prop where
  lt : ∀ {x p}, parent x = some p → rank x < rank p
  lt_bound : ∀ {x p}, parent x = some p → rank p < bound

variable {parent stops}

theorem climb_of_ended {x : α} (h : Ended parent stops x) (n : ℕ) : climb parent stops n x = x := by
  cases n with
  | zero => rfl
  | succ n =>
    rw [climb]
    rcases h with h | h
    · rw [if_pos h]
    · rw [h]
      exact ite_self x

theorem climb_step {x p : α} (hs : stops x = false) (hp : parent x = some p) (n : ℕ) :
    climb parent stops (n+1) x = climb parent stops n p := by
  rw [climb,if_neg (by simp [hs]),hp]

theorem climb_induction {P : α → Prop} (hparent : ∀ {x p}, parent x = some p → P p) {x : α} (hx : P x)
    (n : ℕ) : P (climb parent stops n x) := by
  induction n generalizing x with
  | zero => exact hx
  | succ n ih =>
    rw [climb]
    split
    · exact hx
    · cases hp : parent x with
      | none => exact hx
      | some p => exact ih (hparent hp)

section Ranked

variable {rank : α → ℕ} {bound : ℕ} (h : Ranked parent rank bound)
include h

theorem Ranked.ended_of_le {x : α} (hx : bound ≤ rank x) : Ended parent stops x := by
  refine Or.inr (Option.eq_none_iff_forall_ne_some.mpr fun p hp => ?_)
  have := h.lt hp
  have := h.lt_bound hp
  omega

theorem Ranked.climb_eq {x : α} {m n : ℕ} (hm : bound ≤ m+rank x) (hn : bound ≤ n+rank x) :
    climb parent stops m x = climb parent stops n x := by
  by_cases hend : Ended parent stops x
  · rw [climb_of_ended hend,climb_of_ended hend]
  · induction m generalizing x n with
    | zero => exact absurd (h.ended_of_le (by omega)) hend
    | succ m ih =>
      cases n with
      | zero => exact absurd (h.ended_of_le (by omega)) hend
      | succ n =>
        obtain ⟨hs,hp⟩ := not_or.mp hend
        obtain ⟨p,hp⟩ := Option.ne_none_iff_exists'.mp hp
        have hlt := h.lt hp
        have hs' : stops x = false := by simpa using hs
        rw [climb_step hs' hp,climb_step hs' hp]
        by_cases hend' : Ended parent stops p
        · rw [climb_of_ended hend',climb_of_ended hend']
        · exact ih (by omega) (by omega) hend'

end Ranked

/-- Where the climb ends. -/
def root (parent : α → Option α) (stops : α → Bool) (bound : ℕ) (x : α) : α :=
  climb parent stops bound x

/-- Where it ends if it stopped there, and a default if it ran out of parents. -/
def summit (parent : α → Option α) (stops : α → Bool) (bound : ℕ) (default x : α) : α :=
  if stops (root parent stops bound x) then root parent stops bound x else default

section Root

variable {rank : α → ℕ} {bound : ℕ}

theorem root_of_ended {x : α} (h : Ended parent stops x) : root parent stops bound x = x :=
  climb_of_ended h bound

theorem Ranked.root_parent (h : Ranked parent rank bound) {x p : α} (hs : stops x = false)
    (hp : parent x = some p) : root parent stops bound x = root parent stops bound p := by
  have hlt := h.lt hp
  rw [root,root,h.climb_eq (n := bound+1) (by omega) (by omega),climb_step hs hp]

theorem summit_of_stops {default x : α} (hs : stops x = true) :
    summit parent stops bound default x = x := by
  rw [summit,root_of_ended (Or.inl hs),if_pos hs]

theorem summit_of_none {default x : α} (hs : stops x = false) (hp : parent x = none) :
    summit parent stops bound default x = default := by
  rw [summit,root_of_ended (Or.inr hp),if_neg (by simp [hs])]

theorem Ranked.summit_parent (h : Ranked parent rank bound) {default x p : α} (hs : stops x = false)
    (hp : parent x = some p) :
    summit parent stops bound default x = summit parent stops bound default p := by
  rw [summit,summit,h.root_parent hs hp]

end Root

/-- The elements of a climb, the first one included. -/
def path (parent : α → Option α) (stops : α → Bool) : ℕ → α → List α
  | 0, x => [x]
  | n+1, x =>
    if stops x then [x] else
      match parent x with
      | none => [x]
      | some p => x :: path parent stops n p

theorem path_of_ended {x : α} (h : Ended parent stops x) (n : ℕ) : path parent stops n x = [x] := by
  cases n with
  | zero => rfl
  | succ n =>
    rw [path]
    rcases h with h | h
    · rw [if_pos h]
    · rw [h]
      exact ite_self _

theorem path_step {x p : α} (hs : stops x = false) (hp : parent x = some p) (n : ℕ) :
    path parent stops (n+1) x = x :: path parent stops n p := by
  rw [path,if_neg (by simp [hs]),hp]

theorem path_eq_cons (n : ℕ) (x : α) : path parent stops n x = x :: (path parent stops n x).tail := by
  cases n with
  | zero => rfl
  | succ n =>
    rw [path]
    split
    · rfl
    · cases parent x <;> rfl

theorem isChain_path (n : ℕ) (x : α) :
    (path parent stops n x).IsChain fun a b => parent a = some b := by
  induction n generalizing x with
  | zero => exact List.isChain_singleton x
  | succ n ih =>
    rw [path]
    split
    · exact List.isChain_singleton x
    · cases hp : parent x with
      | none => exact List.isChain_singleton x
      | some p =>
        have htail := ih p
        change (x :: path parent stops n p).IsChain _
        rw [path_eq_cons n p] at htail ⊢
        exact List.isChain_cons_cons.mpr ⟨hp,htail⟩

theorem getLast?_path (n : ℕ) (x : α) :
    (path parent stops n x).getLast? = some (climb parent stops n x) := by
  induction n generalizing x with
  | zero => rfl
  | succ n ih =>
    rw [path,climb]
    split
    · rfl
    · cases hp : parent x with
      | none => rfl
      | some p =>
        change (x :: path parent stops n p).getLast? = some (climb parent stops n p)
        rw [path_eq_cons n p,List.getLast?_cons_cons,← path_eq_cons n p,ih]

section Staged

variable {rank : α → ℕ} {bound : ℕ} (h : Ranked parent rank bound)
include h

theorem Ranked.path_succ {x p : α} (hs : stops x = false) (hp : parent x = some p) :
    path parent stops bound x = x :: path parent stops bound p := by
  have hfuel : ∀ m n x, bound ≤ m+rank x → bound ≤ n+rank x →
      path parent stops m x = path parent stops n x := by
    intro m
    induction m with
    | zero =>
      intro n x hm _
      have hend : Ended parent stops x := h.ended_of_le (by omega)
      rw [path_of_ended hend,path_of_ended hend]
    | succ m ih =>
      intro n x hm hn
      by_cases hend : Ended parent stops x
      · rw [path_of_ended hend,path_of_ended hend]
      · obtain ⟨hs,hp⟩ := not_or.mp hend
        obtain ⟨p,hp⟩ := Option.ne_none_iff_exists'.mp hp
        have hs' : stops x = false := by simpa using hs
        have hlt := h.lt hp
        cases n with
        | zero => exact absurd (h.ended_of_le (by omega)) hend
        | succ n => rw [path_step hs' hp,path_step hs' hp,ih n p (by omega) (by omega)]
  have hlt := h.lt hp
  rw [← path_step hs hp bound]
  exact hfuel bound (bound+1) x (by omega) (by omega)

theorem Ranked.ended_root (x : α) : Ended parent stops (root parent stops bound x) := by
  have hclimb : ∀ n x, bound ≤ n+rank x → Ended parent stops (climb parent stops n x) := by
    intro n
    induction n with
    | zero =>
      intro x hx
      have hend : Ended parent stops x := h.ended_of_le (by omega)
      exact hend
    | succ n ih =>
      intro x hx
      by_cases hend : Ended parent stops x
      · rwa [climb_of_ended hend]
      · obtain ⟨hs,hp⟩ := not_or.mp hend
        obtain ⟨p,hp⟩ := Option.ne_none_iff_exists'.mp hp
        have hlt := h.lt hp
        rw [climb_step (by simpa using hs) hp]
        exact ih p (by omega)
  exact hclimb bound x (by omega)

variable {stops' : α → Bool} (hstops : ∀ x, stops' x = true → stops x = true)
include hstops

/-- A climb that stops later can be resumed where one that stops earlier ended. -/
theorem Ranked.root_root (x : α) :
    root parent stops' bound (root parent stops bound x) = root parent stops' bound x := by
  have hclimb : ∀ n x, root parent stops' bound (climb parent stops n x) =
      root parent stops' bound x := by
    intro n
    induction n with
    | zero => exact fun _ => rfl
    | succ n ih =>
      intro x
      rw [climb]
      split
      · rfl
      · rename_i hs
        cases hp : parent x with
        | none => rfl
        | some p =>
          have hs' : stops' x = false := Bool.eq_false_iff.mpr fun hs' => hs (hstops x hs')
          exact (ih p).trans (h.root_parent hs' hp).symm
  exact hclimb bound x

theorem Ranked.path_root (x : α) : path parent stops' bound x = path parent stops bound x ++
    (path parent stops' bound (root parent stops bound x)).tail := by
  have hclimb : ∀ n x, bound ≤ n+rank x → path parent stops' bound x =
      path parent stops bound x ++ (path parent stops' bound (climb parent stops n x)).tail := by
    intro n
    induction n with
    | zero =>
      intro x hx
      have hend : ∀ stops : α → Bool, Ended parent stops x := fun _ => h.ended_of_le (by omega)
      rw [climb,path_of_ended (hend stops'),path_of_ended (hend stops)]
      rfl
    | succ n ih =>
      intro x hx
      by_cases hend : Ended parent stops x
      · rw [climb_of_ended hend,path_of_ended hend]
        exact path_eq_cons bound x
      · obtain ⟨hs,hp⟩ := not_or.mp hend
        obtain ⟨p,hp⟩ := Option.ne_none_iff_exists'.mp hp
        have hsf : stops x = false := by simpa using hs
        have hs' : stops' x = false := Bool.eq_false_iff.mpr fun hs' => hs (hstops x hs')
        have hlt := h.lt hp
        rw [climb_step hsf hp,h.path_succ hs' hp,h.path_succ hsf hp,List.cons_append,
          ih p (by omega)]
  exact hclimb bound x (by omega)

theorem Ranked.summit_summit {default : α} (hdefault : summit parent stops' bound default default =
    default) (x : α) : summit parent stops' bound default (summit parent stops bound default x) =
      summit parent stops' bound default x := by
  by_cases hs : stops (root parent stops bound x) = true
  · have hmid : summit parent stops bound default x = root parent stops bound x := if_pos hs
    rw [hmid,summit,summit,h.root_root hstops]
  · have hmid : summit parent stops bound default x = default := if_neg hs
    have hlast : root parent stops' bound x = root parent stops bound x := by
      rw [← h.root_root hstops x]
      exact root_of_ended (Or.inr ((h.ended_root x).resolve_left hs))
    rw [hmid,hdefault,summit,hlast,if_neg fun hs' => hs (hstops _ hs')]

end Staged

end AncestorChains
