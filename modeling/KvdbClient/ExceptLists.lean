import Mathlib.Tactic

/-! Maps over lists that may raise. -/
namespace ExceptLists

variable {α β ε : Type} {f : α → Except ε β}

theorem mapM_ok {g : α → β} {l : List α} (h : ∀ x ∈ l, f x = .ok (g x)) : l.mapM f = .ok (l.map g) := by
  induction l with
  | nil => rfl
  | cons x l ih =>
    rw [List.mapM_cons,h x List.mem_cons_self,ih fun y hy => h y (List.mem_cons_of_mem _ hy)]
    rfl

theorem mapM_map {γ : Type} {f : α → Except ε γ} {g : α → Except ε β} {h : β → γ} {l : List α}
    (hfg : ∀ x ∈ l, f x = (g x).map h) : l.mapM f = (l.mapM g).map (List.map h) := by
  induction l with
  | nil => rfl
  | cons x l ih =>
    rw [List.mapM_cons,List.mapM_cons,hfg x List.mem_cons_self,
      ih fun y hy => hfg y (List.mem_cons_of_mem _ hy)]
    cases g x with
    | error e => rfl
    | ok y => cases l.mapM g <;> rfl

theorem mapM_error {P : ε → Prop} {l : List α} (h : ∀ x ∈ l, ∀ e, f x = .error e → P e)
    (hx : ∃ x ∈ l, ∃ e, f x = .error e) : ∃ e, l.mapM f = .error e ∧ P e := by
  induction l with
  | nil => simp at hx
  | cons x l ih =>
    rw [List.mapM_cons]
    cases hf : f x with
    | error e => exact ⟨e,rfl,h x List.mem_cons_self e hf⟩
    | ok y =>
      have hrest : ∃ x ∈ l, ∃ e, f x = .error e := by
        obtain ⟨z,hz,e,he⟩ := hx
        rcases List.mem_cons.mp hz with rfl | hz
        · rw [hf] at he
          cases he
        · exact ⟨z,hz,e,he⟩
      obtain ⟨e,he,hP⟩ := ih (fun z hz => h z (List.mem_cons_of_mem _ hz)) hrest
      exact ⟨e,by rw [he]; rfl,hP⟩

theorem exists_of_mem_mapM {l : List α} {m : List β} (h : l.mapM f = .ok m) {y : β} (hy : y ∈ m) :
    ∃ x ∈ l, f x = .ok y := by
  induction l generalizing m with
  | nil =>
    cases h
    cases hy
  | cons x l ih =>
    rw [List.mapM_cons] at h
    cases hx : f x with
    | error e =>
      rw [hx] at h
      cases h
    | ok z =>
      cases hl : l.mapM f with
      | error e =>
        rw [hx,hl] at h
        cases h
      | ok m' =>
        rw [hx,hl] at h
        cases h
        rcases List.mem_cons.mp hy with rfl | hy
        · exact ⟨x,List.mem_cons_self,hx⟩
        · obtain ⟨w,hw,hfw⟩ := ih hl hy
          exact ⟨w,List.mem_cons_of_mem _ hw,hfw⟩

end ExceptLists
