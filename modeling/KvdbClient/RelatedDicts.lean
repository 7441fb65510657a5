import KvdbClient.Dict

/-! Dictionaries with related keys and values in the same order. Every operation on the one follows
the same operation on the other, and so do loops that may raise, if none of their steps does. -/
namespace RelatedDicts

open Relator (BiUnique)

variable {κ κ' β β' γ γ' α α' : Type}

/-- Entries one after the other, with related keys and related values. -/
def Related (K : κ → κ' → Prop) (R : β → β' → Prop) (d : Dict κ β) (d' : Dict κ' β') : Prop :=
  List.Forall₂ (fun e e' => K e.1 e'.1 ∧ R e.2 e'.2) d.entries d'.entries

theorem biUnique_eq : BiUnique (@Eq α) :=
  ⟨fun _ _ _ h₁ h₂ => h₁.trans h₂.symm,fun _ _ _ h₁ h₂ => h₁.symm.trans h₂⟩

variable {K : κ → κ' → Prop} {R : β → β' → Prop} {d : Dict κ β} {d' : Dict κ' β'}

theorem related_empty : Related K R .empty .empty := List.Forall₂.nil

theorem Related.imp_keys {L : κ → κ' → Prop} (h : Related K R d d') (hK : ∀ k k', K k k' → L k k') :
    Related L R d d' :=
  h.imp fun _ _ he => ⟨hK _ _ he.1,he.2⟩

theorem Related.mapValues {S : γ → γ' → Prop} {f : κ → β → γ} {f' : κ' → β' → γ'}
    (h : Related K R d d') (hf : ∀ k k' v v', K k k' → R v v' → S (f k v) (f' k' v')) :
    Related K S (d.mapValues f) (d'.mapValues f') := by
  refine List.forall₂_map_left_iff.mpr (List.forall₂_map_right_iff.mpr (h.imp ?_))
  exact fun e e' he => ⟨he.1,hf _ _ _ _ he.1 he.2⟩

theorem Related.filter {p : κ → β → Bool} {p' : κ' → β' → Bool} (h : Related K R d d')
    (hp : ∀ k k' v v', K k k' → R v v' → (p k v = true ↔ p' k' v' = true)) :
    Related K R (d.filter p) (d'.filter p') :=
  List.rel_filter (fun _ _ he => hp _ _ _ _ he.1 he.2) h

/-- A loop that may raise, beside one that cannot: the results are related if they were before. -/
theorem foldlM_rel {ε σ τ : Type} {P : σ → τ → Prop} {S : α → α' → Prop} {f : σ → α → Except ε σ}
    {g : τ → α' → τ} (hstep : ∀ s t x y, P s t → S x y → ∃ s', f s x = .ok s' ∧ P s' (g t y))
    {l : List α} {l' : List α'} (h : List.Forall₂ S l l') {s : σ} {t : τ} (hs : P s t) :
    ∃ s', l.foldlM f s = .ok s' ∧ P s' (l'.foldl g t) := by
  induction h generalizing s t with
  | nil => exact ⟨s,rfl,hs⟩
  | cons hx _ ih =>
    obtain ⟨s₁,hs₁,hP⟩ := hstep _ _ _ _ hs hx
    obtain ⟨s',hs',hP'⟩ := ih hP
    refine ⟨s',?_,hP'⟩
    rw [List.foldlM_cons,hs₁]
    exact hs'

section Keys

variable [DecidableEq κ] [DecidableEq κ'] (hK : BiUnique K)
include hK

theorem lookup_rel {es : List (κ × β)} {es' : List (κ' × β')}
    (h : List.Forall₂ (fun e e' => K e.1 e'.1 ∧ R e.2 e'.2) es es') {k : κ} {k' : κ'} (hk : K k k') :
    Option.Rel R (Dict.lookup es k) (Dict.lookup es' k') := by
  induction h with
  | nil => exact .none
  | @cons e e' es es' he _ ih =>
    rw [Dict.lookup,Dict.lookup]
    by_cases hek : e.1 = k
    · rw [if_pos hek,if_pos ((Relator.rel_eq hK he.1 hk).mp hek)]
      exact .some he.2
    · rw [if_neg hek,if_neg fun hek' => hek ((Relator.rel_eq hK he.1 hk).mpr hek')]
      exact ih

theorem Related.get? (h : Related K R d d') {k : κ} {k' : κ'} (hk : K k k') :
    Option.Rel R (d.get? k) (d'.get? k') :=
  lookup_rel hK h hk

theorem assign_rel {es : List (κ × β)} {es' : List (κ' × β')}
    (h : List.Forall₂ (fun e e' => K e.1 e'.1 ∧ R e.2 e'.2) es es') {k : κ} {k' : κ'} (hk : K k k')
    {v : β} {v' : β'} (hv : R v v') :
    List.Forall₂ (fun e e' => K e.1 e'.1 ∧ R e.2 e'.2) (Dict.assign k v es) (Dict.assign k' v' es') := by
  induction h with
  | nil => exact .cons ⟨hk,hv⟩ .nil
  | @cons e e' es es' he hes ih =>
    rw [Dict.assign,Dict.assign]
    by_cases hek : e.1 = k
    · rw [if_pos hek,if_pos ((Relator.rel_eq hK he.1 hk).mp hek)]
      exact .cons ⟨hk,hv⟩ hes
    · rw [if_neg hek,if_neg fun hek' => hek ((Relator.rel_eq hK he.1 hk).mpr hek')]
      exact .cons he ih

theorem Related.set (h : Related K R d d') {k : κ} {k' : κ'} (hk : K k k') {v : β} {v' : β'}
    (hv : R v v') : Related K R (d.set k v) (d'.set k' v') :=
  assign_rel hK h hk hv

theorem Related.push {S : α → α' → Prop} {d : Dict κ (List α)} {d' : Dict κ' (List α')}
    (h : Related K (List.Forall₂ S) d d') {k : κ} {k' : κ'} (hk : K k k') {x : α} {x' : α'}
    (hx : S x x') : Related K (List.Forall₂ S) (d.push k x) (d'.push k' x') := by
  refine h.set hK hk (List.rel_append ?_ (.cons hx .nil))
  have hget := h.get? hK hk
  revert hget
  generalize d.get? k = r
  generalize d'.get? k' = r'
  rintro (⟨hr⟩ | _)
  · exact hr
  · exact .nil

theorem Related.update {e : Dict κ β} {e' : Dict κ' β'} (h : Related K R d d')
    (he : Related K R e e') : Related K R (d.update e) (d'.update e') :=
  List.rel_foldl (fun _ _ hd _ _ hkv => hd.set hK hkv.1 hkv.2) h he

end Keys

end RelatedDicts

namespace Dict

variable {κ α β γ : Type}

theorem ext_entries {d d' : Dict κ β} (h : d.entries = d'.entries) : d = d' := by
  cases d
  cases d'
  congr

variable [DecidableEq κ]

theorem map_assign (f : β → γ) (k : κ) (v : β) (es : List (κ × β)) :
    (assign k v es).map (fun e => (e.1,f e.2)) = assign k (f v) (es.map fun e => (e.1,f e.2)) := by
  induction es with
  | nil => rfl
  | cons e es ih =>
    rw [assign,List.map_cons,assign]
    by_cases he : e.1 = k
    · rw [if_pos he,if_pos he,List.map_cons]
    · rw [if_neg he,if_neg he,List.map_cons,ih]

theorem mapValues_set (f : β → γ) (d : Dict κ β) (k : κ) (v : β) :
    (d.set k v).mapValues (fun _ => f) = (d.mapValues fun _ => f).set k (f v) :=
  ext_entries (map_assign f k v d.entries)

theorem group_append (key : α → κ) (l : List α) (x : α) :
    group key (l ++ [x]) = (group key l).push (key x) x := by
  rw [group,group,List.foldl_append]
  rfl

theorem mapValues_group_append (key : α → κ) (f : α → γ) (l : List α) (x : α) :
    ((group key (l ++ [x])).mapValues fun _ m => m.map f) =
      ((group key l).mapValues fun _ m => m.map f).push (key x) (f x) := by
  rw [group_append,push,push,mapValues_set,get?_mapValues,List.map_append]
  cases (group key l).get? (key x) <;> rfl

theorem foldl_push (key : α → κ) (f : α → γ) (p : α → Bool) (l : List α) :
    l.foldl (fun d x => if p x then d.push (key x) (f x) else d) empty =
      (group key (l.filter p)).mapValues fun _ m => m.map f := by
  induction l using List.reverseRecOn with
  | nil => rfl
  | append_singleton l x ih =>
    rw [List.foldl_append,List.foldl_cons,List.foldl_nil,ih,List.filter_append]
    cases hp : p x with
    | false => simp [hp]
    | true =>
      have hone : [x].filter p = [x] := by simp [hp]
      rw [hone,if_pos rfl,mapValues_group_append]

end Dict
