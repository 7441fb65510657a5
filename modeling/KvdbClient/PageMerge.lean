import KvdbClient.Dict

/-! Grouping a sequence that arrives in pages. Every page is grouped by itself and the results are
merged with the later page winning, so a group that is split over pages loses its earlier part. -/
namespace PageMerge

variable {κ α β γ : Type} [DecidableEq κ] (key : α → κ) (g : List α → β)

/-- The groups of one page. -/
def single (page : List α) : Dict κ β := (Dict.group key page).mapValues fun _ l => g l

/-- The pages one after the other, each updating what the earlier ones gave. -/
def merge (pages : List (List α)) : Dict κ β := pages.foldl (fun d p => d.update (single key g p)) .empty

def members (k : κ) (l : List α) : List α := l.filter fun x => key x = k

/-- No page has a kept element of a group that a later page goes on with. -/
def Unbroken (keep : α → Bool) (pages : List (List α)) : Prop :=
  pages.Pairwise fun p q => ∀ a ∈ p, ∀ b ∈ q, key a = key b → keep a = false

/-- What is observed of a group ignores the elements that are not kept, and shows whether kept ones
are missing at its front. -/
structure Observes (P : α → Prop) (keep : α → Bool) (obs : List α → γ) : Prop where
  ignores : ∀ x, obs x = obs (x.filter keep)
  detects : ∀ x y, (∀ a ∈ x ++ y, P a) → obs (x ++ y) = obs y → x.filter keep = []

variable {key g}

theorem get?_single (page : List α) (k : κ) :
    (single key g page).get? k =
      if members key k page = [] then none else some (g (members key k page)) := by
  rw [single,Dict.get?_mapValues,Dict.get?_group]
  by_cases h : members key k page = [] <;> simp only [members] at h ⊢ <;> simp [h]

theorem get?_merge_append (pages : List (List α)) (q : List α) (k : κ) :
    (merge key g (pages ++ [q])).get? k =
      if members key k q = [] then (merge key g pages).get? k else some (g (members key k q)) := by
  have hlast : merge key g (pages ++ [q]) = (merge key g pages).update (single key g q) := by
    simp [merge,List.foldl_append]
  rw [hlast,Dict.get?_update,get?_single]
  by_cases h : members key k q = [] <;> simp [h]

theorem members_append (k : κ) (l m : List α) :
    members key k (l ++ m) = members key k l ++ members key k m :=
  List.filter_append ..

theorem mem_members {k : κ} {l : List α} {x : α} : x ∈ members key k l ↔ x ∈ l ∧ key x = k := by
  simp [members]

theorem unbroken_append {keep : α → Bool} {pages : List (List α)} {q : List α} :
    Unbroken key keep (pages ++ [q]) ↔ Unbroken key keep pages ∧
      ∀ k, members key k q ≠ [] → (members key k pages.flatten).filter keep = [] := by
  rw [Unbroken,List.pairwise_append]
  simp only [List.pairwise_singleton,List.mem_singleton,forall_eq,true_and]
  refine and_congr_right fun _ => ⟨fun h k hk => ?_,fun h p hp a ha b hb hab => ?_⟩
  · obtain ⟨b,hb⟩ := List.exists_mem_of_ne_nil _ hk
    obtain ⟨hb,hbk⟩ := mem_members.mp hb
    refine List.filter_eq_nil_iff.mpr fun a ha => ?_
    obtain ⟨ha,hak⟩ := mem_members.mp ha
    obtain ⟨p,hp,ha⟩ := List.mem_flatten.mp ha
    simp [h p hp a ha b hb (hak.trans hbk.symm)]
  · have hk : members key (key b) q ≠ [] := List.ne_nil_of_mem (mem_members.mpr ⟨hb,rfl⟩)
    have hnil := List.filter_eq_nil_iff.mp (h _ hk) a
      (mem_members.mpr ⟨List.mem_flatten.mpr ⟨p,hp,ha⟩,hab⟩)
    simpa using hnil

/-- The part of a group in the last page that has one. -/
def lastPart (key : α → κ) (k : κ) (pages : List (List α)) : List α :=
  pages.foldl (fun last page => if members key k page = [] then last else members key k page) []

theorem lastPart_append (pages : List (List α)) (q : List α) (k : κ) :
    lastPart key k (pages ++ [q]) =
      if members key k q = [] then lastPart key k pages else members key k q := by
  simp [lastPart,List.foldl_append]

theorem get?_merge (pages : List (List α)) (k : κ) :
    (merge key g pages).get? k =
      if lastPart key k pages = [] then none else some (g (lastPart key k pages)) := by
  induction pages using List.reverseRecOn with
  | nil => rfl
  | append_singleton pages q ih =>
    rw [get?_merge_append,lastPart_append]
    by_cases hq : members key k q = [] <;> simp [hq,ih]

theorem lastPart_of_unbroken {pages : List (List α)} (h : Unbroken key (fun _ => true) pages) (k : κ) :
    lastPart key k pages = members key k pages.flatten := by
  induction pages using List.reverseRecOn with
  | nil => rfl
  | append_singleton pages q ih =>
    obtain ⟨hpages,hlast⟩ := unbroken_append.mp h
    rw [lastPart_append,List.flatten_append,List.flatten_singleton,members_append,ih hpages]
    by_cases hq : members key k q = []
    · simp [hq]
    · have hnil : members key k pages.flatten = [] := by simpa using hlast k hq
      simp [hq,hnil]

theorem get?_merge_of_unbroken {pages : List (List α)} (h : Unbroken key (fun _ => true) pages)
    (k : κ) : (merge key g pages).get? k = (single key g pages.flatten).get? k := by
  rw [get?_merge,lastPart_of_unbroken h,get?_single]

variable (key) in
theorem lastPart_eq_nil (pages : List (List α)) (k : κ) :
    lastPart key k pages = [] ↔ members key k pages.flatten = [] := by
  induction pages using List.reverseRecOn with
  | nil => simp [lastPart,members]
  | append_singleton pages q ih =>
    rw [lastPart_append,List.flatten_append,List.flatten_singleton,members_append,
      List.append_eq_nil_iff,← ih]
    by_cases hq : members key k q = [] <;> simp [hq]

theorem mem_keys_merge {pages : List (List α)} {k : κ} :
    k ∈ (merge key g pages).keys ↔ members key k pages.flatten ≠ [] := by
  rw [Dict.mem_keys_iff,get?_merge,ne_eq,← lastPart_eq_nil key]
  split <;> simp [*]

section Iff

variable {P : α → Prop} {keep : α → Bool} {view : β → γ}

def Agrees (key : α → κ) (g : List α → β) (view : β → γ) (k : κ) (pages : List (List α)) : Prop :=
  ((merge key g pages).get? k).map view = ((single key g pages.flatten).get? k).map view

theorem agrees_append_of_nil {pages : List (List α)} {q : List α} {k : κ} (hq : members key k q = []) :
    Agrees key g view k (pages ++ [q]) ↔ Agrees key g view k pages := by
  have hflat : members key k (pages ++ [q]).flatten = members key k pages.flatten := by
    simp [members_append,hq]
  rw [Agrees,Agrees,get?_merge_append,if_pos hq,get?_single,get?_single,hflat]

theorem agrees_append_of_ne_nil (h : Observes P keep fun l => view (g l)) {pages : List (List α)}
    {q : List α} (hP : ∀ a ∈ (pages ++ [q]).flatten, P a) {k : κ} (hq : members key k q ≠ []) :
    Agrees key g view k (pages ++ [q]) ↔ (members key k pages.flatten).filter keep = [] := by
  have hflat : members key k (pages ++ [q]).flatten =
      members key k pages.flatten ++ members key k q := by
    simp [members_append]
  have hne : members key k (pages ++ [q]).flatten ≠ [] := by
    rw [hflat]
    exact List.append_ne_nil_of_right_ne_nil _ hq
  rw [Agrees,get?_merge_append,if_neg hq,get?_single,if_neg hne,hflat,Option.map_some,
    Option.map_some,Option.some.injEq]
  constructor
  · refine fun heq => h.detects _ _ (fun a ha => hP a ?_) heq.symm
    rw [← hflat] at ha
    exact (mem_members.mp ha).1
  · intro hnil
    have hl := h.ignores (members key k q)
    have hr := h.ignores (members key k pages.flatten ++ members key k q)
    simp only [List.filter_append,hnil,List.nil_append] at hl hr
    exact hl.trans hr.symm

theorem agrees_of_filter_nil (h : Observes P keep fun l => view (g l)) {pages : List (List α)}
    (hP : ∀ a ∈ pages.flatten, P a) {k : κ} (hnil : (members key k pages.flatten).filter keep = []) :
    Agrees key g view k pages := by
  induction pages using List.reverseRecOn with
  | nil => rfl
  | append_singleton pages q ih =>
    have hpre : (members key k pages.flatten).filter keep = [] := by
      simp only [List.flatten_append,members_append,List.filter_append,
        List.append_eq_nil_iff] at hnil
      exact hnil.1
    by_cases hq : members key k q = []
    · refine (agrees_append_of_nil hq).mpr (ih (fun a ha => hP a ?_) hpre)
      rw [List.flatten_append]
      exact List.mem_append_left _ ha
    · exact (agrees_append_of_ne_nil h hP hq).mpr hpre

/-- The pages give what the whole sequence gives exactly when no group is broken. -/
theorem agrees_iff_unbroken (h : Observes P keep fun l => view (g l)) (pages : List (List α))
    (hP : ∀ a ∈ pages.flatten, P a) :
    (∀ k, Agrees key g view k pages) ↔ Unbroken key keep pages := by
  induction pages using List.reverseRecOn with
  | nil => exact ⟨fun _ => List.Pairwise.nil,fun _ _ => rfl⟩
  | append_singleton pages q ih =>
    have hpre : ∀ a ∈ pages.flatten, P a := fun a ha => hP a (by
      rw [List.flatten_append]
      exact List.mem_append_left _ ha)
    rw [unbroken_append,← ih hpre]
    constructor
    · refine fun hall => ⟨fun k => ?_,fun k hq => (agrees_append_of_ne_nil h hP hq).mp (hall k)⟩
      by_cases hq : members key k q = []
      · exact (agrees_append_of_nil hq).mp (hall k)
      · exact agrees_of_filter_nil h hpre ((agrees_append_of_ne_nil h hP hq).mp (hall k))
    · rintro ⟨hpages,hlast⟩ k
      by_cases hq : members key k q = []
      · exact (agrees_append_of_nil hq).mpr (hpages k)
      · exact (agrees_append_of_ne_nil h hP hq).mpr (hlast k hq)

end Iff

end PageMerge
