import KvdbClient.Attributes
import KvdbClient.ColumnFamilies

/-! `create_table` and `create_column_family` of the BigTable and HBase clients, by any number of
clients of one table: every request is executed among those of the others, and any of them may be
the last of its call. -/
namespace KvdbClient
namespace TableCreation

open Transition
open Vast.ColumnFamilies (ColumnFamilyConfig)

deriving instance DecidableEq for ColumnFamilyConfig

/-- `DEFAULT_COLUMN_FAMILIES`; ages are in microseconds. -/
def defaultColumnFamilies : List ColumnFamilyConfig :=
  [⟨['0'],none,none⟩,⟨['1'],some 1,none⟩,⟨['2'],none,none⟩,⟨['3'],none,some (365*86400*1000000)⟩,
    ⟨['4'],none,none⟩]

inductive Backend
  | bigTable
  | hbase
  deriving DecidableEq

/-- A table that exists, with the newest version and meta that are stored in it. -/
structure Table (W : Type) where
  families : List ColumnFamilyConfig
  version : Option Text
  tableMeta : Option W
  deriving DecidableEq

structure Create (W : Type) where
  tableMeta : W
  version : Text
  columnFamilies : Option (List ColumnFamilyConfig)
  deriving DecidableEq

def Create.families {W : Type} (c : Create W) : List ColumnFamilyConfig :=
  c.columnFamilies.getD defaultColumnFamilies

inductive Phase
  | checking
  | creating
  | families (left : List ColumnFamilyConfig)
  | readingVersion
  | writingVersion
  | writingMeta
  | returned
  | raised
  deriving DecidableEq

section Requests

variable {W : Type}

/-- The service stores cells only in families that the table has. -/
def Table.hasFamily (t : Table W) (familyId : Text) : Bool :=
  t.families.any fun f => f.familyId = familyId

/-- What the service makes of the next request of a call, and how the call goes on. -/
def advance (b : Backend) (t : Option (Table W)) (c : Create W) : Phase → Option (Table W) × Phase
  | .checking => (t,if t.isSome then .raised else .creating)
  | .creating =>
    match b, t with
    -- BigTable refuses to create a table that exists; the schema of HBase is replaced
    | .bigTable, none => (some ⟨[],none,none⟩,.families c.families)
    | .bigTable, some t => (some t,.raised)
    | .hbase, none => (some ⟨c.families,none,none⟩,.readingVersion)
    | .hbase, some t => (some { t with families := c.families },.readingVersion)
  | .families [] => (t,.readingVersion)
  | .families (f :: left) =>
    match t with
    | some t =>
      if t.hasFamily f.familyId then (some t,.raised)
      else (some { t with families := t.families ++ [f] },.families left)
    | none => (none,.raised)
  | .readingVersion =>
    match t with
    | some ⟨_,none,_⟩ => (t,.writingVersion)
    | _ => (t,.raised)
  | .writingVersion =>
    match t with
    | some t =>
      if t.hasFamily TableVersion.version.familyId then
        (some { t with version := some c.version },.writingMeta)
      else (some t,.raised)
    | none => (none,.raised)
  | .writingMeta =>
    match t with
    | some t =>
      if t.hasFamily TableMeta.metaColumn.familyId then
        (some { t with tableMeta := some c.tableMeta },.returned)
      else (some t,.raised)
    | none => (none,.raised)
  | .returned => (t,.returned)
  | .raised => (t,.raised)

/-- `create_column_family`: on HBase the schema it puts has the new family only. -/
def createColumnFamily (b : Backend) (f : ColumnFamilyConfig) (t : Option (Table W)) :
    Option (Table W) :=
  match b, t with
  | .bigTable, none => none
  | .bigTable, some t =>
    if t.hasFamily f.familyId then some t else some { t with families := t.families ++ [f] }
  | .hbase, none => some ⟨[f],none,none⟩
  | .hbase, some t => some { t with families := [f] }

end Requests

structure State (W : Type) where
  table : Option (Table W)
  calls : ℕ → Option (Create W × Phase)

/-- A request may fail before or after the service has executed it, which ends its call. -/
inductive Action (W : Type)
  | call (i : ℕ) (c : Create W)
  | request (i : ℕ)
  | fail (i : ℕ) (applied : Bool)
  | createColumnFamily (f : ColumnFamilyConfig)

section Machine

variable {W : Type}

def State.set (s : State W) (i : ℕ) (c : Create W) (t : Option (Table W)) (p : Phase) : State W :=
  ⟨t,Function.update s.calls i (some (c,p))⟩

def step (b : Backend) (s : State W) : Action W → Option (List Empty × State W)
  | .call i c =>
    match s.calls i with
    | none => some ([],s.set i c s.table .checking)
    | some _ => none
  | .request i => (s.calls i).map fun x =>
    ([],s.set i x.1 (advance b s.table x.1 x.2).1 (advance b s.table x.1 x.2).2)
  | .fail i applied => (s.calls i).map fun x =>
    ([],s.set i x.1 (if applied then (advance b s.table x.1 x.2).1 else s.table) .raised)
  | .createColumnFamily f => some ([],{ s with table := createColumnFamily b f s.table })

def machine (W : Type) (b : Backend) : Machine (State W) (Action W) Empty where
  init s := s.table = none ∧ ∀ i, s.calls i = none
  step := step b

def State.creates (s : State W) (i : ℕ) : Prop := (s.calls i).map Prod.snd = some .creating

instance (s : State W) (i : ℕ) : Decidable (s.creates i) := inferInstanceAs (Decidable (_ = _))

/-- On HBase no table appears between the check of a call and its creation of the table. -/
def createsNew (b : Backend) (s : State W) : Action W → Prop
  | .request i | .fail i true => b = .bigTable ∨ (s.creates i → s.table = none)
  | _ => True

instance (b : Backend) (s : State W) (a : Action W) : Decidable (createsNew b s a) :=
  match a with
  | .request i | .fail i true =>
    inferInstanceAs (Decidable (b = .bigTable ∨ (s.creates i → s.table = none)))
  | .fail _ false | .call .. | .createColumnFamily _ => inferInstanceAs (Decidable True)

/-- The call has created the table, and was not stopped since. -/
def Phase.past : Phase → Bool
  | .checking | .creating | .raised => false
  | .families _ | .readingVersion | .writingVersion | .writingMeta | .returned => true

def Phase.left : Phase → List ColumnFamilyConfig
  | .families left => left
  | _ => []

def Stores (c : Create W) (t : Table W) : Phase → Prop
  | .families _ | .readingVersion | .writingVersion => t.version = none ∧ t.tableMeta = none
  | .writingMeta => t.version = some c.version ∧ t.tableMeta = none
  | .returned => t.version = some c.version ∧ t.tableMeta = some c.tableMeta
  | .checking | .creating | .raised => True

def KeepsFamilies (b : Backend) (c : Create W) (t : Table W) (p : Phase) : Prop :=
  b = .bigTable → ∃ done, done ++ p.left = c.families ∧ done.Sublist t.families

structure Invariant (b : Backend) (s : State W) : Prop where
  sole : ∀ i j c d p q, s.calls i = some (c,p) → s.calls j = some (d,q) → p.past = true →
    q.past = true → i = j
  content : ∀ i c p, s.calls i = some (c,p) → p.past = true →
    ∃ t, s.table = some t ∧ Stores c t p ∧ KeepsFamilies b c t p

section Advance

variable {b : Backend} {c : Create W} {p : Phase}

/-- A call that is not past the creation leaves a table as it is, and stays so. -/
theorem advance_of_some {t : Table W} (hp : p.past = false) (hnew : b = .bigTable ∨ p ≠ .creating) :
    (advance b (some t) c p).1 = some t ∧ (advance b (some t) c p).2.past = false := by
  cases p with
  | checking | raised => exact ⟨rfl,rfl⟩
  | creating =>
    rcases hnew with rfl | hnew
    · exact ⟨rfl,rfl⟩
    · exact absurd rfl hnew
  | families _ | readingVersion | writingVersion | writingMeta | returned => cases hp

/-- Without a table a call gets past the creation by creating it. -/
theorem advance_of_none (hpast : (advance b none c p).2.past = true) (hp : p.past = false) :
    ∃ t, (advance b none c p).1 = some t ∧ Stores c t (advance b none c p).2 ∧
      KeepsFamilies b c t (advance b none c p).2 := by
  cases p with
  | creating =>
    cases b with
    | bigTable => exact ⟨_,rfl,⟨rfl,rfl⟩,fun _ => ⟨[],rfl,List.nil_sublist _⟩⟩
    | hbase => exact ⟨_,rfl,⟨rfl,rfl⟩,fun hb => by cases hb⟩
  | checking | raised => cases hpast
  | families _ | readingVersion | writingVersion | writingMeta | returned => cases hp

/-- A call past the creation goes on with what it finds stored, or raises. -/
theorem advance_of_past {t : Table W} (hp : p.past = true) (hs : Stores c t p)
    (hf : KeepsFamilies b c t p) :
    (advance b (some t) c p).2.past = false ∨
      ∃ u, (advance b (some t) c p).1 = some u ∧ Stores c u (advance b (some t) c p).2 ∧
        KeepsFamilies b c u (advance b (some t) c p).2 := by
  cases p with
  | checking | creating | raised => cases hp
  | returned => exact Or.inr ⟨t,rfl,hs,hf⟩
  | readingVersion =>
    obtain ⟨families,version,tableMeta⟩ := t
    obtain ⟨rfl,rfl⟩ : version = none ∧ tableMeta = none := hs
    exact Or.inr ⟨_,rfl,⟨rfl,rfl⟩,hf⟩
  | writingVersion =>
    rw [advance]
    split
    · exact Or.inr ⟨_,rfl,⟨rfl,hs.2⟩,hf⟩
    · exact Or.inl rfl
  | writingMeta =>
    rw [advance]
    split
    · exact Or.inr ⟨_,rfl,⟨hs.1,rfl⟩,hf⟩
    · exact Or.inl rfl
  | families left =>
    cases left with
    | nil => exact Or.inr ⟨t,rfl,hs,hf⟩
    | cons f left =>
      rw [advance]
      split
      · exact Or.inl rfl
      · refine Or.inr ⟨_,rfl,hs,fun hb => ?_⟩
        obtain ⟨done,happ,hsub⟩ := hf hb
        exact ⟨done ++ [f],by simpa [Phase.left] using happ,hsub.append (List.Sublist.refl _)⟩

end Advance

namespace Invariant

variable {b : Backend} {s u : State W} {i : ℕ} {c : Create W} {p : Phase}

theorem of_init (h : (machine W b).init s) : Invariant b s where
  sole i j c d p q hi := by simp [h.2] at hi
  content i c p hi := by simp [h.2] at hi

def Alone (s : State W) (i : ℕ) : Prop :=
  ∀ j d q, j ≠ i → s.calls j = some (d,q) → q.past = false

theorem alone_of_past (h : Invariant b s) (hi : s.calls i = some (c,p)) (hp : p.past = true) :
    Alone s i := by
  intro j d q hj hcall
  by_contra hq
  exact hj (h.sole j i d c q p hcall hi (by simpa using hq) hp)

theorem alone_of_none (h : Invariant b s) (ht : s.table = none) (i : ℕ) : Alone s i := by
  intro j d q _ hcall
  by_contra hq
  obtain ⟨t,ht',-⟩ := h.content j d q hcall (by simpa using hq)
  rw [ht] at ht'
  cases ht'

/-- A call that is not past the creation any more, or not yet, does not matter to the others, if
there are any. -/
theorem quit (h : Invariant b s) {t : Option (Table W)} (ht : t = s.table ∨ Alone s i)
    (hp : p.past = false) : Invariant b (s.set i c t p) where
  sole j k d e q r hj hk hq hr := by
    have hne : ∀ l (x : Create W × Phase), (s.set i c t p).calls l = some x → x.2.past = true →
        l ≠ i := fun l x hl hx => by
      rintro rfl
      simp only [State.set,Function.update_self,Option.some.injEq] at hl
      rw [← hl] at hx
      exact absurd hx (by simp [hp])
    have hji := hne j _ hj hq
    have hki := hne k _ hk hr
    simp only [State.set,Function.update_of_ne hji,Function.update_of_ne hki] at hj hk
    exact h.sole j k d e q r hj hk hq hr
  content j d q hj hq := by
    by_cases hji : j = i
    · subst hji
      simp only [State.set,Function.update_self,Option.some.injEq,Prod.mk.injEq] at hj
      rw [← hj.2,hp] at hq
      cases hq
    · simp only [State.set,Function.update_of_ne hji] at hj
      rcases ht with rfl | halone
      · exact h.content j d q hj hq
      · rw [halone j d q hji hj] at hq
        cases hq

theorem proceed (halone : Alone s i) {t : Table W} (hs : Stores c t p) (hf : KeepsFamilies b c t p) :
    Invariant b (s.set i c (some t) p) where
  sole j k d e q r hj hk hq hr := by
    have hone : ∀ l (x : Create W × Phase), (s.set i c (some t) p).calls l = some x →
        x.2.past = true → l = i := fun l x hl hx => by
      by_contra hli
      simp only [State.set,Function.update_of_ne hli] at hl
      rw [halone l x.1 x.2 hli hl] at hx
      cases hx
    exact (hone j _ hj hq).trans (hone k _ hk hr).symm
  content j d q hj hq := by
    by_cases hji : j = i
    · subst hji
      simp only [State.set,Function.update_self,Option.some.injEq,Prod.mk.injEq] at hj
      obtain ⟨rfl,rfl⟩ := hj
      exact ⟨t,rfl,hs,hf⟩
    · simp only [State.set,Function.update_of_ne hji] at hj
      rw [halone j d q hji hj] at hq
      cases hq

/-- The table after the request of a call, and whether that call has the table for itself. -/
theorem request (h : Invariant b s) (hi : s.calls i = some (c,p))
    (hnew : b = .bigTable ∨ (s.creates i → s.table = none)) :
    ((advance b s.table c p).1 = s.table ∨ Alone s i) ∧
      Invariant b (s.set i c (advance b s.table c p).1 (advance b s.table c p).2) := by
  cases hp : p.past with
  | true =>
    have halone := h.alone_of_past hi hp
    obtain ⟨t,ht,hs,hf⟩ := h.content i c p hi hp
    refine ⟨Or.inr halone,?_⟩
    rw [ht]
    rcases advance_of_past hp hs hf with hq | ⟨u,hu,hs,hf⟩
    · exact h.quit (Or.inr halone) hq
    · rw [hu]
      exact proceed halone hs hf
  | false =>
    cases ht : s.table with
    | none =>
      have halone := h.alone_of_none ht i
      refine ⟨Or.inr halone,?_⟩
      cases hq : (advance b none c p).2.past with
      | false => exact h.quit (Or.inr halone) hq
      | true =>
        obtain ⟨u,hu,hs,hf⟩ := advance_of_none hq hp
        rw [hu]
        exact proceed halone hs hf
    | some t =>
      have hnot : b = .bigTable ∨ p ≠ .creating := hnew.imp_right fun hn hpc => by
        rw [hn (by rw [State.creates,hi,hpc]; rfl)] at ht
        cases ht
      obtain ⟨hsame,hq⟩ := advance_of_some (c := c) (t := t) hp hnot
      exact ⟨Or.inl hsame,h.quit (Or.inl (hsame.trans ht.symm)) hq⟩

theorem createColumnFamily (h : Invariant b s) (f : ColumnFamilyConfig) :
    Invariant b { s with table := TableCreation.createColumnFamily b f s.table } where
  sole := h.sole
  content i c p hi hp := by
    obtain ⟨t,ht,hs,hf⟩ := h.content i c p hi hp
    rw [ht]
    cases b with
    | hbase => exact ⟨_,rfl,by cases p <;> exact hs,fun hb => by cases hb⟩
    | bigTable =>
      simp only [TableCreation.createColumnFamily]
      split
      · exact ⟨t,rfl,hs,hf⟩
      · refine ⟨_,rfl,by cases p <;> exact hs,fun hb => ?_⟩
        obtain ⟨done,happ,hsub⟩ := hf hb
        exact ⟨done,happ,hsub.trans (List.sublist_append_left _ _)⟩

theorem of_step (h : Invariant b s) {a : Action W} {es : List Empty} (hok : createsNew b s a)
    (hs : step b s a = some (es,u)) : Invariant b u := by
  cases a with
  | call i c =>
    simp only [step] at hs
    split at hs
    · cases hs
      exact h.quit (Or.inl rfl) rfl
    · cases hs
  | request i =>
    obtain ⟨⟨c,p⟩,hi,hsu⟩ := Option.map_eq_some_iff.mp hs
    cases hsu
    exact (h.request hi hok).2
  | fail i applied =>
    obtain ⟨⟨c,p⟩,hi,hsu⟩ := Option.map_eq_some_iff.mp hs
    cases hsu
    cases applied with
    | false => exact h.quit (Or.inl rfl) rfl
    | true => exact h.quit (h.request hi hok).1 rfl
  | createColumnFamily f =>
    cases hs
    exact h.createColumnFamily f

theorem of_reachable (h : Reachable (machine W b) (createsNew b) s) : Invariant b s :=
  Reachable.invariant h (fun _ => of_init) fun _ _ _ _ hi hok hs => hi.of_step hok hs

end Invariant

end Machine

section Runs

variable {W : Type} {b : Backend} {s u : State W}

/-- The table has a version and a meta, or lacks them, and no call is there to change that. -/
structure Settled (t : Table W) (s : State W) : Prop where
  stored : ∃ u, s.table = some u ∧ u.version = t.version ∧ u.tableMeta = t.tableMeta
  stopped : ∀ i c p, s.calls i = some (c,p) → p.past = false

theorem Settled.set {t : Table W} (h : Settled t s) (i : ℕ) (c : Create W) {p : Phase}
    (hp : p.past = false) : Settled t (s.set i c s.table p) where
  stored := h.stored
  stopped j d q hj := by
    by_cases hji : j = i
    · subst hji
      simp only [State.set,Function.update_self,Option.some.injEq,Prod.mk.injEq] at hj
      rw [← hj.2,hp]
    · simp only [State.set,Function.update_of_ne hji] at hj
      exact h.stopped j d q hj

theorem Settled.request {t : Table W} (h : Settled t s) {i : ℕ} {c : Create W} {p : Phase}
    (hi : s.calls i = some (c,p)) (hnew : b = .bigTable ∨ (s.creates i → s.table = none)) :
    (advance b s.table c p).1 = s.table ∧ (advance b s.table c p).2.past = false := by
  obtain ⟨u,hu,-⟩ := h.stored
  have hnot : b = .bigTable ∨ p ≠ .creating := hnew.imp_right fun hn hpc => by
    rw [hn (by rw [State.creates,hi,hpc]; rfl)] at hu
    cases hu
  rw [hu]
  exact advance_of_some (h.stopped i c p hi) hnot

theorem Settled.of_step {t : Table W} (h : Settled t s) {a : Action W} {es : List Empty}
    (hok : createsNew b s a) (hs : step b s a = some (es,u)) : Settled t u := by
  cases a with
  | call i c =>
    simp only [step] at hs
    split at hs
    · cases hs
      exact h.set i c rfl
    · cases hs
  | request i =>
    obtain ⟨⟨c,p⟩,hi,hsu⟩ := Option.map_eq_some_iff.mp hs
    cases hsu
    obtain ⟨hsame,hp⟩ := h.request hi hok
    rw [hsame]
    exact h.set i c hp
  | fail i applied =>
    obtain ⟨⟨c,p⟩,hi,hsu⟩ := Option.map_eq_some_iff.mp hs
    cases hsu
    cases applied with
    | false => exact h.set i c rfl
    | true =>
      have hsame := (h.request hi hok).1
      simp only [if_true,hsame]
      exact h.set i c rfl
  | createColumnFamily f =>
    cases hs
    obtain ⟨u,hu,hversion,hmeta⟩ := h.stored
    refine ⟨?_,h.stopped⟩
    rw [hu]
    cases b with
    | hbase => exact ⟨_,rfl,hversion,hmeta⟩
    | bigTable =>
      simp only [TableCreation.createColumnFamily]
      split
      · exact ⟨u,rfl,hversion,hmeta⟩
      · exact ⟨_,rfl,hversion,hmeta⟩

/-- However the requests of the clients interleave, and wherever they fail: at most one call of
`create_table` returns, its version and meta are then those of the table, and BigTable has all its
families. Once the call that created the table has failed no call ever returns, and the version and
the meta stay as they are. On HBase this takes that no table appears between a check and the
creation after it. -/
theorem createTable_sole (b : Backend) (h : Reachable (machine W b) (createsNew b) s) :
    (∀ i j c d, s.calls i = some (c,.returned) → s.calls j = some (d,.returned) → i = j) ∧
    (∀ i c, s.calls i = some (c,.returned) → ∃ t, s.table = some t ∧ t.version = some c.version ∧
      t.tableMeta = some c.tableMeta ∧ (b = .bigTable → c.families.Sublist t.families)) ∧
    ∀ t, s.table = some t → (∀ i c p, s.calls i = some (c,p) → p.past = false) →
      ∀ tr u, Exec (machine W b) (createsNew b) s tr u → Settled t u := by
  have hi := Invariant.of_reachable h
  refine ⟨fun i j c d hc hd => hi.sole i j c d _ _ hc hd rfl rfl,fun i c hc => ?_,
    fun t ht hstopped tr u hrun => ?_⟩
  · obtain ⟨t,ht,⟨hversion,hmeta⟩,hf⟩ := hi.content i c _ hc rfl
    refine ⟨t,ht,hversion,hmeta,fun hb => ?_⟩
    obtain ⟨done,happ,hsub⟩ := hf hb
    simp only [Phase.left,List.append_nil] at happ
    exact happ ▸ hsub
  · exact hrun.invariant (P := Settled t) ⟨⟨t,ht,rfl,rfl⟩,hstopped⟩ fun _ _ _ _ hi hok hs =>
      hi.of_step hok hs

end Runs

section Examples

def start : State Bool := ⟨none,fun _ => none⟩

theorem start_init (b : Backend) : (machine Bool b).init start := ⟨rfl,fun _ => rfl⟩

def first : Create Bool := ⟨true,['1'],some [⟨['0'],none,none⟩]⟩
def second : Create Bool := ⟨false,['2'],some [⟨['0'],some 1,none⟩]⟩

/-- Two clients check before either creates the table; the first of them is done. -/
theorem createTable_sole_two :
    ∃ s : State Bool, s.calls 0 = some (first,.returned) ∧ s.calls 1 = some (second,.raised) ∧
      ∃ t, s.table = some t ∧ t.version = some ['1'] ∧ t.tableMeta = some true := by
  obtain ⟨tr,s,hrun,hfirst,hsecond⟩ := exists_exec (machine Bool .bigTable) (createsNew .bigTable)
    (s := start) (P := fun _ s => s.calls 0 = some (first,.returned) ∧
      s.calls 1 = some (second,.raised))
    [.call 0 first,.call 1 second,.request 0,.request 1,.request 0,.request 1,.request 0,
      .createColumnFamily ⟨['5'],none,none⟩,.request 0,.request 0,.request 0,.request 0]
    (by decide +kernel)
  obtain ⟨t,ht,hversion,hmeta,-⟩ :=
    (createTable_sole .bigTable ⟨_,_,start_init _,hrun⟩).2.1 0 first hfirst
  exact ⟨s,hfirst,hsecond,t,ht,hversion,hmeta⟩

/-- Without the condition both calls may return on HBase, with the version of one and the meta of
the other. -/
theorem createTable_mixed :
    ¬ ∀ s : State Bool, Reachable (machine Bool .hbase) any s → ∀ i c,
      s.calls i = some (c,.returned) → ∃ t, s.table = some t ∧ t.version = some c.version ∧
        t.tableMeta = some c.tableMeta := by
  intro h
  obtain ⟨tr,s,hrun,hfirst,htable⟩ := exists_exec (machine Bool .hbase) any (s := start)
    (P := fun _ s => s.calls 0 = some (first,.returned) ∧
      s.table.map (fun t => t.version) = some (some ['2']))
    [.call 0 first,.call 1 second,.request 0,.request 1,.request 0,.request 1,.request 0,.request 1,
      .request 0,.request 1,.request 1,.request 0] (by decide +kernel)
  obtain ⟨t,ht,hversion,-⟩ := h s ⟨_,_,start_init _,hrun⟩ 0 first hfirst
  rw [ht,Option.map_some,hversion] at htable
  exact absurd htable (by decide)

end Examples

end TableCreation
end KvdbClient
