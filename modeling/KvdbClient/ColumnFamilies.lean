import KvdbClient.Dict
import KvdbClient.StoredCells
import KvdbClient.Transition
import KvdbClient.VastReads

/-! Registrations of column families by clients of one VAST table: `create_column_family` reads the
meta, deletes its row and writes the new meta in three transactions. -/
namespace KvdbClient
namespace Vast.ColumnFamilies

open Transition

/-- `ColumnFamilyConfig`; the age is in microseconds. -/
structure ColumnFamilyConfig where
  familyId : Text
  maxVersions : Option ℤ
  maxAge : Option ℤ

/-- The `gc_rule` argument: `None`, a configuration, or an object with one attribute or the other. -/
inductive GcRule
  | none
  | config (c : ColumnFamilyConfig)
  | rule (maxNumVersions maxAge : Option ℤ)

inductive Call
  | family (familyId : Text) (gcRule : GcRule)
  | config (c : ColumnFamilyConfig)

abbrev Options := Dict Text ℤ

/-- A value of the meta: a dictionary of families with their options, or anything else. -/
inductive MetaValue (W : Type)
  | families (d : Dict Text Options)
  | other (w : W)

abbrev Meta (W : Type) := Dict Text (MetaValue W)

def familiesKey : Text := "_vast_column_families".toList
def maxVersionsKey : Text := "max_versions".toList
def maxAgeKey : Text := "max_age_seconds".toList

namespace Call

def familyId : Call → Text
  | family familyId _ => familyId
  | config c => c.familyId

def gcRule : Call → GcRule
  | family _ gcRule => gcRule
  | config c => .config c

end Call

/-- `entry`: the options that are given; the age is cut to seconds. -/
def options (maxVersions maxAge : Option ℤ) : Options :=
  let entry := match maxVersions with
    | some n => Dict.empty.set maxVersionsKey n
    | none => .empty
  match maxAge with
  | some age => entry.set maxAgeKey (age.tdiv 1000000)
  | none => entry

def GcRule.entry : GcRule → Options
  | none => options .none .none
  | config c => options c.maxVersions c.maxAge
  | rule maxNumVersions maxAge => options maxNumVersions maxAge

section Meta

variable {W : Type}

/-- The updated meta; it raises if what is stored as the families is no dictionary. -/
def update (tableMeta : Meta W) (c : Call) : Option (Meta W) :=
  match tableMeta.get? familiesKey with
  | none => some (tableMeta.set familiesKey (.families (Dict.empty.set c.familyId c.gcRule.entry)))
  | some (.families d) => some (tableMeta.set familiesKey (.families (d.set c.familyId c.gcRule.entry)))
  | some (.other _) => none

def familiesOf (tableMeta : Meta W) : Dict Text Options :=
  match tableMeta.get? familiesKey with
  | some (.families d) => d
  | _ => .empty

/-- `read_table_meta`: the newest cell of the row. -/
def readTableMeta (row : List (Cell (Meta W))) : Option (Meta W) :=
  ((row.insertionSort fun x y => y.timestamp ≤ x.timestamp).head?).map Cell.value

end Meta

/-- Where a call is: before its read, before its delete and before its write, with the meta that it
is going to write, or at its end. -/
inductive Pc (W : Type)
  | idle
  | deleting (updated : Meta W)
  | writing (updated : Meta W)
  | returned
  | raised

namespace Pc

variable {W : Type}

def isReturned : Pc W → Bool
  | returned => true
  | _ => false

/-- Between the read and the write. -/
def busy : Pc W → Bool
  | deleting _ | writing _ => true
  | _ => false

end Pc

structure State (ι W : Type) where
  row : List (Cell (Meta W))
  pc : ι → Pc W

inductive Action (ι : Type)
  | read (i : ι)
  | delete (i : ι)
  | write (i : ι) (now : ℤ)

section Machine

variable {ι W : Type} [DecidableEq ι] (calls : ι → Call)

def State.setPc (s : State ι W) (i : ι) (p : Pc W) : State ι W :=
  {s with pc := Function.update s.pc i p}

/-- Without a meta the call returns at once. -/
def afterRead (c : Call) : Option (Meta W) → Pc W
  | none => .returned
  | some tableMeta =>
    match update tableMeta c with
    | some updated => .deleting updated
    | none => .raised

def step (s : State ι W) : Action ι → Option (List Empty × State ι W)
  | .read i =>
    match s.pc i with
    | .idle => some ([],s.setPc i (afterRead (calls i) (readTableMeta s.row)))
    | _ => none
  | .delete i =>
    match s.pc i with
    | .deleting updated => some ([],State.setPc {s with row := []} i (.writing updated))
    | _ => none
  | .write i now =>
    match s.pc i with
    | .writing updated =>
      let row := s.row ++ [⟨updated,getVastCompatibleTimeStamp now false⟩]
      some ([],State.setPc {s with row := row} i .returned)
    | _ => none

def machine (initial : Meta W) : Machine (State ι W) (Action ι) Empty where
  init s := readTableMeta s.row = some initial ∧ ∀ i, s.pc i = .idle
  step := step calls

/-- No call reads the meta while another one is between its read and its write. -/
def sequential (s : State ι W) : Action ι → Prop
  | .read _ => ∀ j, (s.pc j).busy = false
  | _ => True

/-- The meta has the families of the calls that are done, and all else as before. -/
structure Registered (initial : Meta W) (done : ι → Prop) (tableMeta : Meta W) : Prop where
  families : ∀ i, done i →
    (familiesOf tableMeta).get? (calls i).familyId = some (calls i).gcRule.entry
  others : ∀ f, (∀ i, done i → (calls i).familyId ≠ f) →
    (familiesOf tableMeta).get? f = (familiesOf initial).get? f
  entries : ∀ k, k ≠ familiesKey → tableMeta.get? k = initial.get? k

variable {calls}

theorem update_spec {tableMeta updated : Meta W} {c : Call} (h : update tableMeta c = some updated) :
    (∀ f, (familiesOf updated).get? f =
      if c.familyId = f then some c.gcRule.entry else (familiesOf tableMeta).get? f) ∧
    ∀ k, k ≠ familiesKey → updated.get? k = tableMeta.get? k := by
  obtain ⟨d,hd,rfl⟩ : ∃ d, familiesOf tableMeta = d ∧
      updated = tableMeta.set familiesKey (.families (d.set c.familyId c.gcRule.entry)) := by
    rw [update] at h
    rw [familiesOf]
    split at h
    next hget => exact ⟨_,by rw [hget],(Option.some.inj h).symm⟩
    next hget => exact ⟨_,by rw [hget],(Option.some.inj h).symm⟩
    next => cases h
  refine ⟨fun f => ?_,fun k hk => ?_⟩
  · rw [familiesOf,Dict.get?_set,if_pos rfl,hd,Dict.get?_set]
  · rw [Dict.get?_set,if_neg (Ne.symm hk)]

theorem Registered.update {initial tableMeta updated : Meta W} {done : ι → Prop}
    (hdistinct : Function.Injective fun i => (calls i).familyId)
    (h : Registered calls initial done tableMeta) {i : ι}
    (hupdate : update tableMeta (calls i) = some updated) :
    Registered calls initial (fun j => done j ∨ j = i) updated := by
  obtain ⟨hfamilies,hentries⟩ := update_spec hupdate
  refine ⟨fun j hj => ?_,fun f hf => ?_,fun k hk => (hentries k hk).trans (h.entries k hk)⟩
  · by_cases hji : j = i
    · rw [hfamilies,hji,if_pos rfl]
    · rw [hfamilies,if_neg fun heq => hji (hdistinct heq.symm)]
      exact h.families j (hj.resolve_right hji)
  · rw [hfamilies,if_neg (hf i (Or.inr rfl))]
    exact h.others f fun j hj => hf j (Or.inl hj)

omit [DecidableEq ι] in
theorem Registered.congr {initial tableMeta : Meta W} {done done' : ι → Prop}
    (h : Registered calls initial done tableMeta) (hiff : ∀ i, done i ↔ done' i) :
    Registered calls initial done' tableMeta := by
  obtain rfl : done = done' := funext fun i => propext (hiff i)
  exact h

/-- One call at most is between its read and its write, with a meta that adds its family to the
stored one; the row is empty only while that call is about to write. -/
structure Inv (calls : ι → Call) (initial : Meta W) (s : State ι W) : Prop where
  alone : ∀ i j, (s.pc i).busy = true → (s.pc j).busy = true → i = j
  stored : (∀ i m, s.pc i ≠ .writing m) → ∃ m, readTableMeta s.row = some m ∧
    Registered calls initial (fun i => (s.pc i).isReturned = true) m
  cleared : ∀ i m, s.pc i = .writing m → s.row = []
  pending : ∀ i m, s.pc i = .deleting m ∨ s.pc i = .writing m →
    Registered calls initial (fun j => (s.pc j).isReturned = true ∨ j = i) m

@[simp] theorem setPc_row (s : State ι W) (i : ι) (p : Pc W) : (s.setPc i p).row = s.row := rfl

@[simp] theorem setPc_self (s : State ι W) (i : ι) (p : Pc W) : (s.setPc i p).pc i = p := by
  simp [State.setPc]

theorem setPc_of_ne (s : State ι W) {i j : ι} (p : Pc W) (h : j ≠ i) : (s.setPc i p).pc j = s.pc j := by
  simp [State.setPc,h]

variable {initial : Meta W} {s : State ι W} {i : ι} {m : Meta W}

omit [DecidableEq ι] in
theorem inv_init (hread : readTableMeta s.row = some initial) (hidle : ∀ i, s.pc i = .idle) :
    Inv calls initial s where
  alone i j hi := by simp [hidle,Pc.busy] at hi
  stored _ := ⟨initial,hread,⟨fun i hi => by simp [hidle,Pc.isReturned] at hi,fun _ _ => rfl,
    fun _ _ => rfl⟩⟩
  cleared i m hm := by simp [hidle] at hm
  pending i m hm := by simp [hidle] at hm

/-- A read while no call is busy finds a meta, and its call will add its family to it. -/
theorem Inv.read (hdistinct : Function.Injective fun i => (calls i).familyId)
    (h : Inv calls initial s) (hpc : s.pc i = .idle) (hnone : ∀ j, (s.pc j).busy = false) :
    Inv calls initial (s.setPc i (afterRead (calls i) (readTableMeta s.row))) := by
  have hnot : ∀ j m, s.pc j ≠ .deleting m ∧ s.pc j ≠ .writing m := fun j m => by
    constructor <;> (intro hj; simpa [hj,Pc.busy] using hnone j)
  obtain ⟨stored,hstored,hregistered⟩ := h.stored fun j m => (hnot j m).2
  have hreturned : ∀ p : Pc W, p.isReturned = false → ∀ j,
      (s.pc j).isReturned = true ↔ ((s.setPc i p).pc j).isReturned = true := fun p hp j => by
    by_cases hj : j = i
    · rw [hj,hpc,setPc_self,hp]
      exact Iff.rfl
    · rw [setPc_of_ne s p hj]
  rw [hstored,afterRead]
  cases hupdate : update stored (calls i) with
  | none =>
    have hother : ∀ j m, (s.setPc i .raised).pc j ≠ .deleting m ∧
        (s.setPc i .raised).pc j ≠ .writing m := fun j m => by
      by_cases hj : j = i
      · simp [hj]
      · rw [setPc_of_ne s _ hj]
        exact hnot j m
    refine ⟨fun j k hj => ?_,fun _ => ⟨stored,hstored,hregistered.congr (hreturned _ rfl)⟩,
      fun j m hm => absurd hm (hother j m).2,fun j m hm => ?_⟩
    · by_cases hji : j = i
      · simp [hji,Pc.busy] at hj
      · rw [setPc_of_ne s _ hji,hnone j] at hj
        cases hj
    · exact absurd hm (not_or.mpr (hother j m))
  | some updated =>
    have hbusy : ∀ j, ((s.setPc i (.deleting updated)).pc j).busy = true → j = i := fun j hj => by
      by_contra hji
      rw [setPc_of_ne s _ hji,hnone j] at hj
      cases hj
    refine ⟨fun j k hj hk => (hbusy j hj).trans (hbusy k hk).symm,
      fun _ => ⟨stored,hstored,hregistered.congr (hreturned _ rfl)⟩,fun j m hm => ?_,fun j m hm => ?_⟩
    · have hji : j = i := hbusy j (by rw [hm]; rfl)
      rw [hji,setPc_self] at hm
      cases hm
    · have hji : j = i := hbusy j (by rcases hm with hm | hm <;> rw [hm] <;> rfl)
      rw [hji,setPc_self] at hm
      obtain hm | hm := hm
      · obtain rfl := Pc.deleting.inj hm
        rw [hji]
        refine (hregistered.update hdistinct hupdate).congr fun k => ?_
        rw [hreturned (.deleting updated) rfl k]
      · cases hm

theorem Inv.delete (h : Inv calls initial s) (hpc : s.pc i = .deleting m) :
    Inv calls initial (State.setPc {s with row := []} i (.writing m)) := by
  have hbusy : ∀ j, ((State.setPc {s with row := []} i (.writing m)).pc j).busy = true → j = i :=
    fun j hj => by
      by_contra hji
      rw [setPc_of_ne _ _ hji] at hj
      exact hji (h.alone j i hj (by rw [hpc]; rfl))
  have hreturned : ∀ j, ((s.pc j).isReturned = true ∨ j = i) ↔
      (((State.setPc {s with row := []} i (.writing m)).pc j).isReturned = true ∨ j = i) := fun j => by
    by_cases hj : j = i
    · simp [hj]
    · rw [setPc_of_ne _ _ hj]
  refine ⟨fun j k hj hk => (hbusy j hj).trans (hbusy k hk).symm,
    fun hnone => absurd (setPc_self _ i _) (hnone i m),fun _ _ _ => rfl,fun j m' hm => ?_⟩
  have hji : j = i := hbusy j (by rcases hm with hm | hm <;> rw [hm] <;> rfl)
  rw [hji,setPc_self] at hm
  obtain hm | hm := hm
  · cases hm
  · obtain rfl := Pc.writing.inj hm
    rw [hji]
    exact (h.pending i m (Or.inl hpc)).congr hreturned

theorem Inv.write (h : Inv calls initial s) (hpc : s.pc i = .writing m) (ts : ℤ) :
    Inv calls initial (State.setPc {s with row := s.row ++ [⟨m,ts⟩]} i .returned) := by
  have hother : ∀ j, j ≠ i → (s.pc j).busy = false := fun j hj => by
    by_contra hbusy
    exact hj (h.alone j i (by simpa using hbusy) (by rw [hpc]; rfl))
  have hnone : ∀ j, ((State.setPc {s with row := s.row ++ [⟨m,ts⟩]} i .returned).pc j).busy = false :=
    fun j => by
      by_cases hj : j = i
      · simp [hj,Pc.busy]
      · rw [setPc_of_ne _ _ hj]
        exact hother j hj
  refine ⟨fun j k hj => ?_,fun _ => ⟨m,?_,?_⟩,fun j m' hm => ?_,fun j m' hm => ?_⟩
  · rw [hnone j] at hj
    cases hj
  · rw [setPc_row,h.cleared i m hpc]
    rfl
  · refine (h.pending i m (Or.inr hpc)).congr fun j => ?_
    by_cases hj : j = i
    · simp [hj,Pc.isReturned]
    · rw [setPc_of_ne _ _ hj]
      simp [hj]
  · have hj := hnone j
    rw [hm] at hj
    cases hj
  · have hj := hnone j
    rcases hm with hm | hm <;> (rw [hm] at hj; cases hj)

theorem Inv.step (hdistinct : Function.Injective fun i => (calls i).familyId)
    (h : Inv calls initial s) {a : Action ι} (hok : sequential s a) {es : List Empty}
    {t : State ι W} (hstep : step calls s a = some (es,t)) : Inv calls initial t := by
  cases a with
  | read i =>
    simp only [ColumnFamilies.step] at hstep
    split at hstep
    next hpc =>
      obtain ⟨-,rfl⟩ := Prod.mk.inj (Option.some.inj hstep)
      exact h.read hdistinct hpc hok
    next => cases hstep
  | delete i =>
    simp only [ColumnFamilies.step] at hstep
    split at hstep
    next m hpc =>
      obtain ⟨-,rfl⟩ := Prod.mk.inj (Option.some.inj hstep)
      exact h.delete hpc
    next => cases hstep
  | write i now =>
    simp only [ColumnFamilies.step] at hstep
    split at hstep
    next m hpc =>
      obtain ⟨-,rfl⟩ := Prod.mk.inj (Option.some.inj hstep)
      exact h.write hpc _
    next => cases hstep

/-- Where no call is between its read and its write, the stored meta has the families of all calls
that have returned, if no call has read it while another one was. -/
theorem createColumnFamily_registered (hdistinct : Function.Injective fun i => (calls i).familyId)
    (h : Reachable (machine calls initial) sequential s) (hdone : ∀ i, (s.pc i).busy = false) :
    ∃ m, readTableMeta s.row = some m ∧
      Registered calls initial (fun i => (s.pc i).isReturned = true) m := by
  have hinv : Inv calls initial s := h.invariant (fun s hs => inv_init hs.1 hs.2)
    fun t a es u ht hok hstep => ht.step hdistinct hok hstep
  refine hinv.stored fun i m hm => ?_
  have hi := hdone i
  rw [hm] at hi
  cases hi

end Machine

section Example

def twoCalls : Fin 2 → Call
  | 0 => .family ['5'] .none
  | 1 => .config ⟨['6'],some 2,none⟩

def start : State (Fin 2) Unit := ⟨[⟨.empty,0⟩],fun _ => .idle⟩

instance (s : State (Fin 2) Unit) (a : Action (Fin 2)) : Decidable (sequential s a) :=
  match a with
  | .read _ => inferInstanceAs (Decidable (∀ j, (s.pc j).busy = false))
  | .delete _ => isTrue trivial
  | .write _ _ => isTrue trivial

theorem createColumnFamily_one_after_the_other :
    ∃ s : State (Fin 2) Unit, (∀ i, (s.pc i).isReturned = true) ∧
      ∃ m, readTableMeta s.row = some m ∧
        Registered twoCalls .empty (fun i => (s.pc i).isReturned = true) m := by
  obtain ⟨tr,s,hrun,hreturned,hidle⟩ := exists_exec (machine twoCalls .empty) sequential (s := start)
    (P := fun _ s => (∀ i, (s.pc i).isReturned = true) ∧ ∀ i, (s.pc i).busy = false)
    [.read 0,.delete 0,.write 0 1000,.read 1,.delete 1,.write 1 2000] (by decide +kernel)
  exact ⟨s,hreturned,createColumnFamily_registered (by decide)
    ⟨start,tr,⟨rfl,fun _ => rfl⟩,hrun⟩ hidle⟩

/-- Both calls read before either writes: the later write loses the family of the other call. -/
theorem createColumnFamily_lost :
    ¬ ∀ s, Reachable (machine twoCalls (.empty : Meta Unit)) any s →
      (∀ i, (s.pc i).isReturned = true) → ∃ m, readTableMeta s.row = some m ∧
        Registered twoCalls .empty (fun i => (s.pc i).isReturned = true) m := by
  intro h
  obtain ⟨tr,s,hrun,hreturned,hlost⟩ := exists_exec (machine twoCalls .empty) any (s := start)
    (P := fun _ s => (∀ i, (s.pc i).isReturned = true) ∧ ((readTableMeta s.row).map fun m =>
      ((familiesOf m).get? ['5']).isSome) = some false)
    [.read 0,.read 1,.delete 0,.delete 1,.write 0 1000,.write 1 2000] (by decide +kernel)
  obtain ⟨m,hm,hregistered⟩ := h s ⟨start,tr,⟨rfl,fun _ => rfl⟩,hrun⟩ hreturned
  have hfamily := hregistered.families 0 (hreturned 0)
  rw [hm,Option.map_some,Option.some.injEq] at hlost
  rw [show (twoCalls 0).familyId = ['5'] from rfl] at hfamily
  rw [hfamily] at hlost
  cases hlost

end Example

end Vast.ColumnFamilies
end KvdbClient
