import Mathlib.Tactic

/-! Dictionaries with their entries in insertion order, and the grouping of a list by a key. -/

/-- Keys with their values, in the order in which the keys were first written. -/
structure Dict (κ β : Type) where
  entries : List (κ × β)
  nodup : (entries.map Prod.fst).Nodup

namespace Dict

variable {κ κ' α β γ : Type}

def empty : Dict κ β := ⟨[],List.nodup_nil⟩

def keys (d : Dict κ β) : List κ := d.entries.map Prod.fst

def mapValues (f : κ → β → γ) (d : Dict κ β) : Dict κ γ where
  entries := d.entries.map fun e => (e.1,f e.1 e.2)
  nodup := by
    rw [List.map_map]
    exact d.nodup

/-- `{k: v for k, v in d.items() if p(k, v)}`. -/
def filter (p : κ → β → Bool) (d : Dict κ β) : Dict κ β where
  entries := d.entries.filter fun e => p e.1 e.2
  nodup := d.nodup.sublist (List.filter_sublist.map _)

variable [DecidableEq κ] [DecidableEq κ']

def lookup : List (κ × β) → κ → Option β
  | [], _ => none
  | e :: es, k => if e.1 = k then some e.2 else lookup es k

def get? (d : Dict κ β) (k : κ) : Option β := lookup d.entries k

/-- A key that is there keeps its place. -/
def assign (k : κ) (v : β) : List (κ × β) → List (κ × β)
  | [] => [(k,v)]
  | e :: es => if e.1 = k then (k,v) :: es else e :: assign k v es

theorem mem_keys_assign {k : κ} {v : β} {es : List (κ × β)} {k' : κ} :
    k' ∈ (assign k v es).map Prod.fst ↔ k' = k ∨ k' ∈ es.map Prod.fst := by
  induction es with
  | nil => simp [assign]
  | cons e es ih =>
    by_cases he : e.1 = k
    · simp [assign,he]
    · simp only [assign,he,if_false,List.map_cons,List.mem_cons,ih]
      tauto

theorem nodup_assign (k : κ) (v : β) {es : List (κ × β)} (h : (es.map Prod.fst).Nodup) :
    ((assign k v es).map Prod.fst).Nodup := by
  induction es with
  | nil => simp [assign]
  | cons e es ih =>
    rw [List.map_cons,List.nodup_cons] at h
    by_cases he : e.1 = k
    · subst he
      simpa [assign] using h
    · simp only [assign,he,if_false,List.map_cons,List.nodup_cons]
      exact ⟨fun hm => (mem_keys_assign.mp hm).elim he h.1,ih h.2⟩

/-- `d[k] = v`. -/
def set (d : Dict κ β) (k : κ) (v : β) : Dict κ β := ⟨assign k v d.entries,nodup_assign k v d.nodup⟩

/-- `d.update(e)`. -/
def update (d e : Dict κ β) : Dict κ β := e.entries.foldl (fun d kv => d.set kv.1 kv.2) d

/-- `d.setdefault(k, []).append(x)`. -/
def push (d : Dict κ (List α)) (k : κ) (x : α) : Dict κ (List α) :=
  d.set k ((d.get? k).getD [] ++ [x])

/-- The elements with the same key together, in their order. -/
def group (key : α → κ) (l : List α) : Dict κ (List α) :=
  l.foldl (fun d x => d.push (key x) x) empty

/-- `{f(k): v for k, v in d.items()}`, where `f` may raise. -/
def rekey {ε : Type} (f : κ → Except ε κ') (d : Dict κ β) : Except ε (Dict κ' β) :=
  d.entries.foldlM (fun r e => do return r.set (← f e.1) e.2) empty

/-- `for k in d: d[k] = f(k, d[k])`, where `f` may raise. -/
def traverse {ε : Type} (f : κ → β → Except ε γ) (d : Dict κ β) : Except ε (Dict κ γ) :=
  d.entries.foldlM (fun r e => do return r.set e.1 (← f e.1 e.2)) empty

@[simp] theorem get?_empty (k : κ) : (empty : Dict κ β).get? k = none := rfl

theorem lookup_eq_none {es : List (κ × β)} {k : κ} : lookup es k = none ↔ k ∉ es.map Prod.fst := by
  induction es with
  | nil => simp [lookup]
  | cons e es ih =>
    by_cases he : e.1 = k
    · simp [lookup,he]
    · simp [lookup,he,Ne.symm he,ih]

theorem mem_keys_iff {d : Dict κ β} {k : κ} : k ∈ d.keys ↔ ∃ v, d.get? k = some v := by
  rw [← Option.ne_none_iff_exists',get?,ne_eq,lookup_eq_none,not_not]
  rfl

theorem lookup_eq_some {es : List (κ × β)} (h : (es.map Prod.fst).Nodup) {k : κ} {v : β} :
    lookup es k = some v ↔ (k,v) ∈ es := by
  induction es with
  | nil => simp [lookup]
  | cons e es ih =>
    rw [List.map_cons,List.nodup_cons] at h
    obtain ⟨a,b⟩ := e
    by_cases he : a = k
    · subst he
      have hne : (a,v) ∉ es := fun hm => h.1 (List.mem_map.mpr ⟨_,hm,rfl⟩)
      simp [lookup,hne,eq_comm]
    · simp [lookup,he,Ne.symm he,ih h.2]

theorem get?_eq_some {d : Dict κ β} {k : κ} {v : β} : d.get? k = some v ↔ (k,v) ∈ d.entries :=
  lookup_eq_some d.nodup

theorem get?_eq_none_iff {d : Dict κ β} : (∀ k, d.get? k = none) ↔ d.entries = [] := by
  constructor
  · intro h
    refine List.eq_nil_iff_forall_not_mem.mpr fun e he => ?_
    have hget := h e.1
    rw [get?_eq_some.mpr he] at hget
    cases hget
  · intro h k
    rw [get?,h]
    rfl

theorem lookup_assign (es : List (κ × β)) (k k' : κ) (v : β) :
    lookup (assign k v es) k' = if k = k' then some v else lookup es k' := by
  induction es with
  | nil => rfl
  | cons e es ih =>
    by_cases he : e.1 = k
    · by_cases hk : k = k' <;> simp [assign,lookup,he,hk]
    · by_cases hk : k = k'
      · subst hk
        simpa [assign,lookup,he] using ih
      · simp [assign,lookup,he,ih,hk]

theorem get?_set (d : Dict κ β) (k k' : κ) (v : β) :
    (d.set k v).get? k' = if k = k' then some v else d.get? k' :=
  lookup_assign d.entries k k' v

theorem lookup_map (f : κ → β → γ) (es : List (κ × β)) (k : κ) :
    lookup (es.map fun e => (e.1,f e.1 e.2)) k = (lookup es k).map (f k) := by
  induction es with
  | nil => rfl
  | cons e es ih =>
    by_cases he : e.1 = k
    · subst he
      simp [lookup]
    · simp [lookup,he,ih]

theorem get?_mapValues (f : κ → β → γ) (d : Dict κ β) (k : κ) :
    (d.mapValues f).get? k = (d.get? k).map (f k) :=
  lookup_map f d.entries k

theorem get?_filter (p : κ → β → Bool) (d : Dict κ β) (k : κ) :
    (d.filter p).get? k = (d.get? k).filter (p k) := by
  ext v
  rw [get?_eq_some,Option.filter_eq_some_iff,get?_eq_some]
  exact List.mem_filter

theorem lookup_foldl_set (es : List (κ × β)) (h : (es.map Prod.fst).Nodup) (d : Dict κ β) (k : κ) :
    (es.foldl (fun d kv => d.set kv.1 kv.2) d).get? k = (lookup es k).or (d.get? k) := by
  induction es generalizing d with
  | nil => rfl
  | cons e es ih =>
    rw [List.map_cons,List.nodup_cons] at h
    rw [List.foldl_cons,ih h.2,get?_set]
    by_cases hk : e.1 = k
    · subst hk
      simp [lookup,lookup_eq_none.mpr h.1]
    · simp [lookup,hk]

theorem get?_update (d e : Dict κ β) (k : κ) : (d.update e).get? k = (e.get? k).or (d.get? k) :=
  lookup_foldl_set e.entries e.nodup d k

theorem foldlM_rekey {ε : Type} {f : κ → Except ε κ'} {enc : κ' → κ} (henc : enc.Injective)
    (es : List (κ × β)) (h : ∀ e ∈ es, ∃ k', f e.1 = .ok k' ∧ enc k' = e.1)
    (hnodup : (es.map Prod.fst).Nodup) (r : Dict κ' β) :
    ∃ r', es.foldlM (fun r e => do return r.set (← f e.1) e.2) r = .ok r' ∧
      ∀ k', r'.get? k' = (lookup es (enc k')).or (r.get? k') := by
  induction es generalizing r with
  | nil => exact ⟨r,rfl,fun _ => rfl⟩
  | cons e es ih =>
    rw [List.map_cons,List.nodup_cons] at hnodup
    obtain ⟨k,hk,hek⟩ := h e List.mem_cons_self
    obtain ⟨r',hr,hget⟩ := ih (fun e he => h e (List.mem_cons_of_mem _ he)) hnodup.2 (r.set k e.2)
    refine ⟨r',?_,fun k' => ?_⟩
    · rw [List.foldlM_cons,hk]
      exact hr
    · rw [hget,get?_set]
      by_cases hkk : k = k'
      · subst hkk
        simp [lookup,hek,lookup_eq_none.mpr hnodup.1]
      · have hne : e.1 ≠ enc k' := fun he => hkk (henc (hek.trans he))
        simp [lookup,hkk,hne]

theorem rekey_spec {ε : Type} {f : κ → Except ε κ'} {enc : κ' → κ} (henc : enc.Injective)
    {d : Dict κ β} (h : ∀ k ∈ d.keys, ∃ k', f k = .ok k' ∧ enc k' = k) :
    ∃ r, d.rekey f = .ok r ∧ ∀ k', r.get? k' = d.get? (enc k') := by
  obtain ⟨r,hr,hget⟩ := foldlM_rekey henc d.entries
    (fun e he => h e.1 (List.mem_map.mpr ⟨e,he,rfl⟩)) d.nodup empty
  exact ⟨r,hr,fun k' => by rw [hget,get?_empty,Option.or_none]; rfl⟩

theorem foldlM_traverse {ε : Type} {f : κ → β → Except ε γ} {P : κ → β → γ → Prop}
    (es : List (κ × β)) (h : ∀ e ∈ es, ∃ w, f e.1 e.2 = .ok w ∧ P e.1 e.2 w)
    (hnodup : (es.map Prod.fst).Nodup) (r : Dict κ γ) :
    ∃ r', es.foldlM (fun r e => do return r.set e.1 (← f e.1 e.2)) r = .ok r' ∧
      ∀ k, if k ∈ es.map Prod.fst then Option.Rel (P k) (lookup es k) (r'.get? k)
        else r'.get? k = r.get? k := by
  induction es generalizing r with
  | nil => exact ⟨r,rfl,fun _ => rfl⟩
  | cons e es ih =>
    rw [List.map_cons,List.nodup_cons] at hnodup
    obtain ⟨w,hw,hP⟩ := h e List.mem_cons_self
    obtain ⟨r',hr,hget⟩ := ih (fun e he => h e (List.mem_cons_of_mem _ he)) hnodup.2 (r.set e.1 w)
    refine ⟨r',?_,fun k => ?_⟩
    · rw [List.foldlM_cons,hw]
      exact hr
    · have hk := hget k
      by_cases hek : e.1 = k
      · subst hek
        rw [if_neg hnodup.1,get?_set,if_pos rfl] at hk
        rw [if_pos (by simp),hk,lookup,if_pos rfl]
        exact Option.Rel.some hP
      · have hmem : k ∈ (e :: es).map Prod.fst ↔ k ∈ es.map Prod.fst := by simp [Ne.symm hek]
        rw [get?_set,if_neg hek] at hk
        simpa only [hmem,lookup,if_neg hek] using hk

theorem traverse_spec {ε : Type} {f : κ → β → Except ε γ} {P : κ → β → γ → Prop} {d : Dict κ β}
    (h : ∀ k v, d.get? k = some v → ∃ w, f k v = .ok w ∧ P k v w) :
    ∃ r, d.traverse f = .ok r ∧ ∀ k, Option.Rel (P k) (d.get? k) (r.get? k) := by
  obtain ⟨r,hr,hget⟩ := foldlM_traverse (P := P) d.entries
    (fun e he => h e.1 e.2 (get?_eq_some.mpr he)) d.nodup empty
  refine ⟨r,hr,fun k => ?_⟩
  have hk := hget k
  split at hk
  · exact hk
  · rename_i hnot
    rw [get?,lookup_eq_none.mpr hnot,hk]
    exact Option.Rel.none

theorem traverse_elim {ε : Type} {f : κ → β → Except ε γ} {P : κ → Prop} {Q : κ → γ → Prop}
    {d : Dict κ β} (h : ∀ k, (d.get? k).elim (P k) fun v => ∃ w, f k v = .ok w ∧ Q k w) :
    ∃ r, d.traverse f = .ok r ∧ ∀ k, (r.get? k).elim (P k) (Q k) := by
  obtain ⟨r,hr,hget⟩ := traverse_spec (P := fun k _ w => Q k w) (d := d) (f := f) fun k v hv => by
    have hk := h k
    rwa [hv] at hk
  refine ⟨r,hr,fun k => ?_⟩
  have hk := h k
  have hrel := hget k
  revert hk hrel
  generalize d.get? k = v
  generalize r.get? k = w
  rintro hk (⟨hQ⟩ | _)
  · exact hQ
  · exact hk

theorem exists_of_traverse_error {ε : Type} {f : κ → β → Except ε γ} {d : Dict κ β} {e : ε}
    (h : d.traverse f = .error e) : ∃ k v, d.get? k = some v ∧ f k v = .error e := by
  have hfold : ∀ (es : List (κ × β)) (r : Dict κ γ),
      es.foldlM (fun r e => do return r.set e.1 (← f e.1 e.2)) r = .error e →
        ∃ x ∈ es, f x.1 x.2 = .error e := by
    intro es
    induction es with
    | nil => intro r hr; cases hr
    | cons x es ih =>
      intro r hr
      rw [List.foldlM_cons] at hr
      cases hf : f x.1 x.2 with
      | error e' =>
        rw [hf] at hr
        cases hr
        exact ⟨x,List.mem_cons_self,hf⟩
      | ok w =>
        rw [hf] at hr
        obtain ⟨y,hy,hfy⟩ := ih _ hr
        exact ⟨y,List.mem_cons_of_mem _ hy,hfy⟩
  obtain ⟨x,hx,hf⟩ := hfold d.entries empty h
  exact ⟨x.1,x.2,get?_eq_some.mpr hx,hf⟩

theorem traverse_error {ε : Type} {f : κ → β → Except ε γ} {d : Dict κ β} {k : κ} {v : β}
    (hk : d.get? k = some v) {e : ε} (he : f k v = .error e) : ∃ e, d.traverse f = .error e := by
  have hfold : ∀ (es : List (κ × β)) (r : Dict κ γ), (k,v) ∈ es →
      ∃ e, es.foldlM (fun r e => do return r.set e.1 (← f e.1 e.2)) r = .error e := by
    intro es
    induction es with
    | nil => intro r hmem; cases hmem
    | cons e' es ih =>
      intro r hmem
      rw [List.foldlM_cons]
      cases hf : f e'.1 e'.2 with
      | error e'' => exact ⟨e'',rfl⟩
      | ok w =>
        rcases List.mem_cons.mp hmem with rfl | hmem
        · rw [he] at hf
          cases hf
        · exact ih _ hmem
  exact hfold d.entries empty (get?_eq_some.mp hk)

theorem traverse_cases {ε : Type} {f : κ → β → Except ε γ} {d : Dict κ β} {r : Dict κ γ}
    (h : d.traverse f = .ok r) (k : κ) : d.get? k = none ∧ r.get? k = none ∨
      ∃ v w, d.get? k = some v ∧ f k v = .ok w ∧ r.get? k = some w := by
  obtain ⟨r',hr,hrel⟩ := traverse_spec (P := fun k v w => f k v = .ok w) (d := d) (f := f)
    fun k v hv => by
      cases hf : f k v with
      | ok w => exact ⟨w,rfl,rfl⟩
      | error e =>
        obtain ⟨_,he⟩ := traverse_error hv hf
        cases h.symm.trans he
  obtain rfl : r' = r := Except.ok.inj (hr.symm.trans h)
  have hk := hrel k
  revert hk
  generalize d.get? k = v
  generalize r'.get? k = w
  rintro (⟨hf⟩ | _)
  · exact Or.inr ⟨_,_,rfl,hf,rfl⟩
  · exact Or.inl ⟨rfl,rfl⟩

theorem mem_keys_mapValues {f : κ → β → γ} {d : Dict κ β} {k : κ} :
    k ∈ (d.mapValues f).keys ↔ k ∈ d.keys := by
  rw [mem_keys_iff,mem_keys_iff,get?_mapValues]
  simp

theorem mem_keys_update {d e : Dict κ β} {k : κ} :
    k ∈ (d.update e).keys ↔ k ∈ e.keys ∨ k ∈ d.keys := by
  simp only [mem_keys_iff,get?_update]
  cases e.get? k <;> simp

theorem mem_keys_foldl_update {ds : List (Dict κ β)} {d : Dict κ β} {k : κ} :
    k ∈ (ds.foldl update d).keys ↔ k ∈ d.keys ∨ ∃ e ∈ ds, k ∈ e.keys := by
  induction ds generalizing d with
  | nil => simp
  | cons e ds ih =>
    rw [List.foldl_cons,ih,mem_keys_update]
    simp only [List.mem_cons,exists_eq_or_imp]
    grind

/-- Dictionaries that each have some of the keys, with the values of one function, merge to the one
that has all of them. -/
theorem get?_foldl_update (f : List κ → Dict κ β) (k : κ) (r : Option β) (chunks : List (List κ))
    (h : ∀ chunk ∈ chunks, (f chunk).get? k = if k ∈ chunk then r else none) (d : Dict κ β) :
    ((chunks.map f).foldl update d).get? k =
      (if k ∈ chunks.flatten then r else none).or (d.get? k) := by
  induction chunks generalizing d with
  | nil => rfl
  | cons chunk chunks ih =>
    rw [List.map_cons,List.foldl_cons,ih fun c hc => h c (List.mem_cons_of_mem _ hc),get?_update,
      h chunk List.mem_cons_self]
    by_cases hc : k ∈ chunk <;> by_cases hcs : k ∈ chunks.flatten <;> cases r <;> simp [hc,hcs]

theorem assign_of_not_mem {k : κ} {v : β} {es : List (κ × β)} (h : k ∉ es.map Prod.fst) :
    assign k v es = es ++ [(k,v)] := by
  induction es with
  | nil => rfl
  | cons e es ih =>
    rw [List.map_cons,List.mem_cons,not_or] at h
    rw [assign,if_neg (Ne.symm h.1),ih h.2]
    rfl

theorem entries_set_of_not_mem {d : Dict κ β} {k : κ} {v : β} (h : k ∉ d.keys) :
    (d.set k v).entries = d.entries ++ [(k,v)] :=
  assign_of_not_mem h

theorem foldlM_fresh {ε σ : Type} {f : Dict κ β → σ → Except ε (Dict κ β)} {l : List σ}
    {es : List (κ × β)}
    (h : List.Forall₂ (fun x e => ∀ d, e.1 ∉ d.keys → f d x = .ok (d.set e.1 e.2)) l es)
    (hnodup : (es.map Prod.fst).Nodup) {d : Dict κ β} (hd : ∀ e ∈ es, e.1 ∉ d.keys) :
    ∃ r, l.foldlM f d = .ok r ∧ r.entries = d.entries ++ es := by
  induction h generalizing d with
  | nil => exact ⟨d,rfl,(List.append_nil _).symm⟩
  | @cons x e l es hx _ ih =>
    rw [List.map_cons,List.nodup_cons] at hnodup
    have hset := entries_set_of_not_mem (v := e.2) (hd e List.mem_cons_self)
    obtain ⟨r,hr,hentries⟩ := ih hnodup.2 (d := d.set e.1 e.2) fun e' he' hmem => by
      rw [keys,hset,List.map_append,List.mem_append] at hmem
      rcases hmem with hmem | hmem
      · exact hd e' (List.mem_cons_of_mem _ he') hmem
      · obtain he : e'.1 = e.1 := List.mem_singleton.mp hmem
        exact hnodup.1 (he ▸ List.mem_map.mpr ⟨e',he',rfl⟩)
    refine ⟨r,?_,?_⟩
    · rw [List.foldlM_cons,hx d (hd e List.mem_cons_self)]
      exact hr
    · rw [hentries,hset,List.append_assoc]
      rfl

theorem entries_foldl_set {es : List (κ × β)} (hnodup : (es.map Prod.fst).Nodup) :
    (es.foldl (fun d e => d.set e.1 e.2) empty).entries = es := by
  induction es using List.reverseRecOn with
  | nil => rfl
  | append_singleton es e ih =>
    rw [List.map_append,List.nodup_append] at hnodup
    have hes := ih hnodup.1
    have hfresh : e.1 ∉ (es.foldl (fun d e => d.set e.1 e.2) empty : Dict κ β).keys := fun hmem =>
      hnodup.2.2 e.1 (by rwa [keys,hes] at hmem) e.1 (List.mem_singleton.mpr rfl) rfl
    rw [List.foldl_append,List.foldl_cons,List.foldl_nil,entries_set_of_not_mem hfresh,hes]

theorem get?_group (key : α → κ) (l : List α) (k : κ) :
    (group key l).get? k =
      if l.filter (fun x => key x = k) = [] then none else some (l.filter fun x => key x = k) := by
  induction l using List.reverseRecOn with
  | nil => rfl
  | append_singleton l x ih =>
    have hlast : group key (l ++ [x]) = (group key l).push (key x) x := by
      simp [group,List.foldl_append]
    rw [hlast,push,get?_set]
    by_cases hk : key x = k
    · subst hk
      rw [ih]
      by_cases hl : l.filter (fun y => key y = key x) = [] <;> simp [hl]
    · simp [hk,ih]

end Dict
