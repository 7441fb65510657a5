import Mathlib.Tactic

/-! Labelled machines, their runs, and the induction rules for them.
An action is accepted or refused; an accepted action emits events. Runs are
built from the left, so that an induction sees every prefix of a run. -/
namespace Transition

/-- Initial states and one partial step, with the events the step emits. -/
structure Machine (S A E : Type) where
  init : S → Prop
  step : S → A → Option (List E × S)

variable {S A E : Type}

/-- Runs in which every action taken meets `ok` in the state it is taken in. -/
inductive Exec (M : Machine S A E) (ok : S → A → Prop) (s : S) : List E → S → Prop
  | refl : Exec M ok s [] s
  | snoc {tr es t u a} : Exec M ok s tr t → ok t a → M.step t a = some (es,u) →
      Exec M ok s (tr ++ es) u

def any (_ : S) (_ : A) : Prop := True

instance (s : S) (a : A) : Decidable (any s a) := inferInstanceAs (Decidable True)

/-- States reached from an initial state by steps that meet `ok`. -/
def Reachable (M : Machine S A E) (ok : S → A → Prop) (s : S) : Prop :=
  ∃ s₀ tr, M.init s₀ ∧ Exec M ok s₀ tr s

namespace Exec

variable {M : Machine S A E} {ok : S → A → Prop}

theorem single {s t : S} {a : A} {es : List E} (hok : ok s a) (h : M.step s a = some (es,t)) :
    Exec M ok s es t := by
  simpa using Exec.snoc Exec.refl hok h

theorem trans {s t u : S} {tr tr' : List E} (hst : Exec M ok s tr t) (htu : Exec M ok t tr' u) :
    Exec M ok s (tr ++ tr') u := by
  induction htu with
  | refl => simpa using hst
  | snoc _ hok hstep ih => simpa [List.append_assoc] using Exec.snoc ih hok hstep

theorem weaken {ok' : S → A → Prop} (hw : ∀ s a, ok s a → ok' s a) {s t : S} {tr : List E}
    (h : Exec M ok s tr t) : Exec M ok' s tr t := by
  induction h with
  | refl => exact Exec.refl
  | snoc _ hok hstep ih => exact Exec.snoc ih (hw _ _ hok) hstep

theorem induct {P : List E → S → Prop} {s t : S} {tr : List E} (h : Exec M ok s tr t)
    (h₀ : P [] s)
    (hstep : ∀ tr t a es u, Exec M ok s tr t → P tr t → ok t a → M.step t a = some (es,u) →
      P (tr ++ es) u) : P tr t := by
  induction h with
  | refl => exact h₀
  | snoc hrun hok hs ih => exact hstep _ _ _ _ _ hrun ih hok hs

theorem invariant {P : S → Prop} {s t : S} {tr : List E} (h : Exec M ok s tr t) (h₀ : P s)
    (hstep : ∀ t a es u, P t → ok t a → M.step t a = some (es,u) → P u) : P t :=
  h.induct (P := fun _ => P) h₀ fun _ t a es u _ hp hok hs => hstep t a es u hp hok hs

end Exec

namespace Reachable

variable {M : Machine S A E} {ok : S → A → Prop}

theorem extend {s t : S} {tr : List E} (hs : Reachable M ok s) (h : Exec M ok s tr t) :
    Reachable M ok t := by
  obtain ⟨s₀,tr₀,h₀,hrun⟩ := hs
  exact ⟨s₀,tr₀ ++ tr,h₀,hrun.trans h⟩

theorem step {s t : S} {a : A} {es : List E} (hs : Reachable M ok s) (hok : ok s a)
    (h : M.step s a = some (es,t)) : Reachable M ok t :=
  hs.extend (Exec.single hok h)

theorem weaken {ok' : S → A → Prop} (hw : ∀ s a, ok s a → ok' s a) {s : S}
    (h : Reachable M ok s) : Reachable M ok' s := by
  obtain ⟨s₀,tr,h₀,hrun⟩ := h
  exact ⟨s₀,tr,h₀,hrun.weaken hw⟩

/-- What holds initially and is kept by every step holds of every reachable state. -/
theorem invariant {P : S → Prop} {s : S} (h : Reachable M ok s) (hinit : ∀ s, M.init s → P s)
    (hstep : ∀ t a es u, P t → ok t a → M.step t a = some (es,u) → P u) : P s := by
  obtain ⟨s₀,tr,h₀,hrun⟩ := h
  exact hrun.invariant (hinit s₀ h₀) hstep

end Reachable

section Simulation

variable {T B : Type}

/-- Every step of `M` from a related state is one of `N`, with the same events, to related states. -/
def Simulates (M : Machine S A E) (ok : S → A → Prop) (N : Machine T B E) (ok' : T → B → Prop)
    (R : S → T → Prop) : Prop :=
  ∀ s t a es s', R s t → ok s a → M.step s a = some (es,s') →
    ∃ b t', ok' t b ∧ N.step t b = some (es,t') ∧ R s' t'

variable {M : Machine S A E} {ok : S → A → Prop} {N : Machine T B E} {ok' : T → B → Prop}
  {R : S → T → Prop}

/-- The runs of the one are runs of the other. -/
theorem Simulates.exec (h : Simulates M ok N ok' R) {s s' : S} {t : T} {tr : List E}
    (hrun : Exec M ok s tr s') (hst : R s t) : ∃ t', Exec N ok' t tr t' ∧ R s' t' := by
  induction hrun with
  | refl => exact ⟨t,.refl,hst⟩
  | snoc _ hok hstep ih =>
    obtain ⟨u,hu,hrel⟩ := ih
    obtain ⟨b,u',hok',hstep',hrel'⟩ := h _ _ _ _ _ hrel hok hstep
    exact ⟨u',hu.snoc hok' hstep',hrel'⟩

end Simulation

def execute (M : Machine S A E) (ok : S → A → Prop) [∀ s a, Decidable (ok s a)] :
    S → List A → Option (List E × S)
  | s, [] => some ([],s)
  | s, a :: as =>
    if ok s a then
      match M.step s a with
      | none => none
      | some (es,t) => (execute M ok t as).map fun r => (es ++ r.1,r.2)
    else none

theorem exec_of_execute {M : Machine S A E} {ok : S → A → Prop} [∀ s a, Decidable (ok s a)]
    {s t : S} {as : List A} {tr : List E} (h : execute M ok s as = some (tr,t)) :
    Exec M ok s tr t := by
  induction as generalizing s tr with
  | nil =>
    simp only [execute,Option.some.injEq,Prod.mk.injEq] at h
    obtain ⟨rfl,rfl⟩ := h
    exact Exec.refl
  | cons a as ih =>
    simp only [execute] at h
    split at h
    · rename_i hok
      cases hs : M.step s a with
      | none => simp [hs] at h
      | some r =>
        obtain ⟨es,u⟩ := r
        simp only [hs,Option.map_eq_some_iff,Prod.exists,Prod.mk.injEq] at h
        obtain ⟨tr',t',hrest,rfl,rfl⟩ := h
        exact (Exec.single hok hs).trans (ih hrest)
    · exact absurd h (by simp)

/-- A concrete run is exhibited by executing its actions and checking where they lead. -/
theorem exists_exec (M : Machine S A E) (ok : S → A → Prop) [∀ s a, Decidable (ok s a)]
    {P : List E → S → Prop} [∀ tr s, Decidable (P tr s)] {s : S} (as : List A)
    (h : (execute M ok s as).any (fun r => decide (P r.1 r.2)) = true) :
    ∃ tr t, Exec M ok s tr t ∧ P tr t := by
  obtain ⟨⟨tr,t⟩,hrun,hp⟩ := (Option.any_eq_true _ _).mp h
  exact ⟨tr,t,exec_of_execute hrun,of_decide_eq_true hp⟩

end Transition
