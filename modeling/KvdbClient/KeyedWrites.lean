import Mathlib.Tactic

/-! Writes to a map by key, of which the last one stays, and their repetition. -/
namespace KeyedWrites

variable {κ β : Type} [DecidableEq κ]

def write (ws : List (κ × β)) (m : κ → Option β) : κ → Option β :=
  ws.foldl (fun m w => Function.update m w.1 (some w.2)) m

def last (ws : List (κ × β)) : κ → Option β := write ws fun _ => none

@[simp] theorem write_nil (m : κ → Option β) : write [] m = m := rfl

theorem write_append (ws vs : List (κ × β)) (m : κ → Option β) :
    write (ws ++ vs) m = write vs (write ws m) :=
  List.foldl_append

theorem write_eq (ws : List (κ × β)) (m : κ → Option β) (k : κ) :
    write ws m k = (last ws k).or (m k) := by
  induction ws using List.reverseRecOn with
  | nil => rfl
  | append_singleton ws w ih =>
    rw [last,write_append,write_append]
    by_cases hk : k = w.1
    · subst hk
      simp [write]
    · have hrest : ∀ m' : κ → Option β, write [w] m' k = m' k := fun m' =>
        Function.update_of_ne hk _ _
      rw [hrest,hrest]
      exact ih

theorem isSome_last {ws : List (κ × β)} {k : κ} :
    (last ws k).isSome = true ↔ ∃ w ∈ ws, w.1 = k := by
  induction ws using List.reverseRecOn with
  | nil => simp [last]
  | append_singleton ws w ih =>
    rw [last,write_append]
    by_cases hk : k = w.1
    · subst hk
      simp [write]
    · have hrest : write [w] (write ws fun _ => none) k = last ws k := Function.update_of_ne hk _ _
      rw [hrest,ih]
      simp only [List.mem_append,List.mem_singleton,or_and_right,exists_or,exists_eq_left]
      exact ⟨Or.inl,fun h => h.resolve_right fun h => hk h.symm⟩

theorem isSome_write {ws : List (κ × β)} {m : κ → Option β} {k : κ} :
    (write ws m k).isSome = true ↔ (∃ w ∈ ws, w.1 = k) ∨ (m k).isSome = true := by
  rw [write_eq,← isSome_last]
  cases last ws k <;> simp

theorem write_write (ws : List (κ × β)) (m : κ → Option β) : write ws (write ws m) = write ws m := by
  funext k
  rw [write_eq,write_eq ws m]
  cases last ws k <;> rfl

theorem foldl_write {α : Type} (ws : List (κ × β)) {l : List α} (h : l ≠ []) (m : κ → Option β) :
    l.foldl (fun m _ => write ws m) m = write ws m := by
  induction l generalizing m with
  | nil => exact absurd rfl h
  | cons a l ih =>
    rw [List.foldl_cons]
    by_cases hl : l = []
    · subst hl
      rfl
    · rw [ih hl,write_write]

theorem write_cons (w : κ × β) (ws : List (κ × β)) (m : κ → Option β) :
    write (w :: ws) m = write ws (Function.update m w.1 (some w.2)) := rfl

theorem last_eq_some {ws : List (κ × β)} (h : (ws.map Prod.fst).Nodup) {k : κ} {b : β} :
    last ws k = some b ↔ (k,b) ∈ ws := by
  induction ws with
  | nil => simp [last]
  | cons w ws ih =>
    rw [List.map_cons,List.nodup_cons] at h
    rw [last,write_cons,write_eq,List.mem_cons]
    by_cases hk : k = w.1
    · subst hk
      have hnone : last ws w.1 = none := by
        rw [← Option.not_isSome_iff_eq_none,isSome_last]
        rintro ⟨v,hv,hvw⟩
        exact h.1 (List.mem_map.mpr ⟨v,hv,hvw⟩)
      have hnot : (w.1,b) ∉ ws := fun hm => h.1 (List.mem_map.mpr ⟨_,hm,rfl⟩)
      rw [hnone,Option.none_or,Function.update_self,Option.some.injEq,or_iff_left hnot,Prod.ext_iff]
      exact ⟨fun hb => ⟨rfl,hb.symm⟩,fun hb => hb.2.symm⟩
    · have hne : (k,b) ≠ w := fun he => hk (congrArg Prod.fst he)
      rw [Function.update_of_ne hk,Option.or_none,ih h.2,or_iff_right hne]

theorem write_perm {ws vs : List (κ × β)} (h : ws.Perm vs) (hnodup : (ws.map Prod.fst).Nodup)
    (m : κ → Option β) : write ws m = write vs m := by
  funext k
  have hlast : last ws k = last vs k := Option.ext fun b => by
    rw [last_eq_some hnodup,last_eq_some ((h.map _).nodup_iff.mp hnodup),h.mem_iff]
  rw [write_eq,write_eq vs,hlast]

theorem write_absorb {ws vs : List (κ × β)} (h : ∀ v ∈ vs, ∃ w ∈ ws, w.1 = v.1) (m : κ → Option β) :
    write ws (write vs m) = write ws m := by
  funext k
  rw [write_eq,write_eq ws m,write_eq vs m]
  cases hlast : last ws k with
  | some b => rfl
  | none =>
    have hvs : last vs k = none := by
      rw [← Option.not_isSome_iff_eq_none,isSome_last]
      rintro ⟨v,hv,rfl⟩
      exact absurd (isSome_last.mpr (h v hv)) (by simp [hlast])
    rw [hvs]
    rfl

theorem write_comm {ws vs : List (κ × β)} (h : ∀ v ∈ vs, ∀ w ∈ ws, w.1 ≠ v.1) (m : κ → Option β) :
    write ws (write vs m) = write vs (write ws m) := by
  funext k
  rw [write_eq,write_eq vs m,write_eq vs,write_eq ws m]
  cases hws : last ws k with
  | none => rfl
  | some b =>
    obtain ⟨w,hw,rfl⟩ := isSome_last.mp (Option.isSome_of_eq_some hws)
    have hvs : last vs w.1 = none := by
      rw [← Option.not_isSome_iff_eq_none,isSome_last]
      rintro ⟨v,hv,hvw⟩
      exact h v hv w hw hvw.symm
    rw [hvs]
    rfl

theorem write_comp {κ' : Type} [DecidableEq κ'] {f : κ → κ'} (hf : f.Injective) (ws : List (κ × β))
    (m : κ' → Option β) :
    write (ws.map fun w => (f w.1,w.2)) m ∘ f = write ws (m ∘ f) := by
  induction ws generalizing m with
  | nil => rfl
  | cons w ws ih => rw [List.map_cons,write_cons,ih,Function.update_comp_eq_of_injective _ hf,write_cons]

def erase (p : κ → Bool) (m : κ → Option β) : κ → Option β := fun k => if p k then none else m k

omit [DecidableEq κ] in
theorem foldl_erase {α : Type} (q : α → κ → Bool) (l : List α) (m : κ → Option β) :
    l.foldl (fun m a => erase (q a) m) m = erase (fun k => l.any fun a => q a k) m := by
  induction l generalizing m with
  | nil => rfl
  | cons a l ih =>
    rw [List.foldl_cons,ih]
    funext k
    simp only [erase,List.any_cons]
    by_cases hq : q a k = true <;> simp [hq]

omit [DecidableEq κ] in
theorem erase_congr {p q : κ → Bool} {m : κ → Option β} (h : ∀ k, m k ≠ none → p k = q k) :
    erase p m = erase q m := by
  funext k
  by_cases hk : m k = none
  · simp [erase,hk]
  · simp [erase,h k hk]

end KeyedWrites
