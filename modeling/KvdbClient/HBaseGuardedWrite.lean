import KvdbClient.HBaseIndefiniteLock
import KvdbClient.HBaseWrites

/-! Bulk writes that first renew the root locks of their operation, over the requests of the HBase
client: `SimpleClient.write` and `renew_locks` in `base.py`, `_write_rows` in `hbase/client.py`. A
renewal is a single request here. -/
namespace KvdbClient
namespace HBase
namespace GuardedWrite

open Lease Transition

instance (vs : Versions) (op : ℕ) : Decidable (Owned vs op) := inferInstanceAs (Decidable (_ ∧ _))

/-- A renewal as `renew_locks` sees it, and whether the operation owned the lock when the server
executed it. -/
structure Renewal where
  rootId : ℕ
  result : Bool
  owned : Bool
  deriving DecidableEq

/-- A write that has rows to store has blocks, and attempts left for the first of them. -/
inductive Phase
  | renewing
  | storing (blocks : List (List Mutation)) (attempts : ℕ)
  | raised

structure Write where
  rows : List Mutation
  blockSize : ℕ
  positive : 0 < blockSize
  rootIds : List ℕ
  operationId : ℕ
  pending : List ℕ
  renewals : List Renewal
  phase : Phase

def Write.blocks (x : Write) : List (List Mutation) := chunked x.blockSize x.rows

/-- `write` renews locks only when it is given both roots and an operation. -/
def write (rows : List Mutation) (rootIds : Option (List ℕ)) (operationId : Option ℕ)
    {blockSize : ℕ} (positive : 0 < blockSize) : Write :=
  match rootIds, operationId with
  | some roots, some op => ⟨rows,blockSize,positive,roots,op,roots,[],.renewing⟩
  | _, _ => ⟨rows,blockSize,positive,[],0,[],[],.storing (chunked blockSize rows) 5⟩

structure State where
  locks : HBase.State
  writes : ℕ → Option Write

/-- The renewals of a write run on a thread pool, so they are executed in any order; all requests
are executed among those of other calls and writes. -/
inductive Action
  | lock (a : HBase.Action)
  | write (w : ℕ) (rows : List Mutation) (rootIds : Option (List ℕ)) (operationId : Option ℕ)
      (blockSize : ℕ) (positive : 0 < blockSize)
  | renew (w n : ℕ) (fault : Fault)
  | proceed (w : ℕ)
  | put (w : ℕ) (attempt : Attempt)

inductive Event
  | stored (w : ℕ) (block : List Mutation)
  | lockingError (w : ℕ)

def State.set (s : State) (w : ℕ) (x : Write) : State :=
  { s with writes := Function.update s.writes w (some x) }

/-- `renew_lock` of one root, and what its future holds: an exception counts as a failure. -/
def renewLock (now : ℤ) (t : Table) (operationId rootId : ℕ) (fault : Fault) : Bool × Table :=
  let r := serve now t (Stage.renew.request (uint64String rootId) operationId)
  match fault with
  | .none => (r.1.success,r.2)
  | .before => (false,t)
  | .after => (false,r.2)

def renew (s : State) (w : ℕ) (x : Write) (n rootId : ℕ) (fault : Fault) : State :=
  let r := renewLock s.locks.now s.locks.table x.operationId rootId fault
  let owned := decide (Owned (s.locks.table (uint64String rootId) Concurrency.lock.toColumn)
    x.operationId)
  { s with locks := { s.locks with table := r.2 } }.set w
    { x with pending := x.pending.eraseIdx n, renewals := ⟨rootId,r.1,owned⟩ :: x.renewals }

/-- Once every future of `renew_locks` is done, the write stores its rows or raises. -/
def proceed (s : State) (w : ℕ) (x : Write) : List Event × State :=
  if x.renewals.all (·.result) then ([],s.set w { x with phase := .storing x.blocks 5 })
  else ([.lockingError w],s.set w { x with phase := .raised })

def putBlock (now : ℤ) (t : Table) (block : List Mutation) : Table :=
  (buildCellsetJson block).foldl (fun t c =>
    t.set c.rowKey c.column ((t c.rowKey c.column).insertCell ⟨c.value,(c.stamped now).1.ts⟩)) t

/-- An attempt of the first block that is left; without an answer the same block is tried again. -/
def put (s : State) (w : ℕ) (x : Write) (block : List Mutation) (blocks : List (List Mutation))
    (n : ℕ) (attempt : Attempt) : List Event × State :=
  let stored := { s with locks := { s.locks with table := putBlock s.locks.now s.locks.table block } }
  match attempt with
  | .lost => ([],s.set w { x with phase := .storing (block :: blocks) n })
  | .unanswered => ([.stored w block],stored.set w { x with phase := .storing (block :: blocks) n })
  | .answered => ([.stored w block],stored.set w { x with phase := .storing blocks 5 })

def step (lockExpiry : ℤ) (s : State) : Action → Option (List Event × State)
  | .lock a => (HBase.step lockExpiry s.locks a).map fun r => ([],{ s with locks := r.2 })
  | .write w rows rootIds operationId _ positive =>
    match s.writes w with
    | none => some ([],s.set w (GuardedWrite.write rows rootIds operationId positive))
    | some _ => none
  | .renew w n fault =>
    (s.writes w).bind fun x => x.pending[n]?.map fun root => ([],renew s w x n root fault)
  | .proceed w =>
    (s.writes w).bind fun x =>
      match x.phase, x.pending with
      | .renewing, [] => some (GuardedWrite.proceed s w x)
      | _, _ => none
  | .put w attempt =>
    (s.writes w).bind fun x =>
      match x.phase with
      | .storing (block :: blocks) (n+1) => some (GuardedWrite.put s w x block blocks n attempt)
      | _ => none

def machine (lockExpiry : ℤ) : Machine State Action Event where
  init s := (HBase.machine lockExpiry).init s.locks ∧ ∀ w, s.writes w = none
  step := step lockExpiry

def leavesLocks (_ : State) : Action → Prop
  | .write _ rows _ _ _ _ => ∀ m ∈ rows, ∀ e ∈ m.cells.entries, ¬ LockColumn e.1
  | _ => True

instance (s : State) (a : Action) : Decidable (leavesLocks s a) :=
  match a with
  | .lock _ | .renew .. | .proceed _ | .put .. => inferInstanceAs (Decidable True)
  | .write _ rows _ _ _ _ =>
    inferInstanceAs (Decidable (∀ m ∈ rows, ∀ e ∈ m.cells.entries, ¬ (_ ∨ _)))

def Event.write : Event → ℕ
  | .stored w _ | .lockingError w => w

def Stored (tr : List Event) (w : ℕ) : Prop := ∃ block, .stored w block ∈ tr

/-- The blocks are stored in order: all before those that are left, and perhaps the next one. -/
def StoresInOrder (tr : List Event) (w : ℕ) (x : Write) (blocks : List (List Mutation)) : Prop :=
  ∃ done, done ++ blocks = x.blocks ∧ (∀ b ∈ done, .stored w b ∈ tr) ∧
    ∀ b, .stored w b ∈ tr → b ∈ done ∨ blocks.head? = some b

/-- A write stores rows only after every renewal answered `True`, and raises otherwise. -/
def PhaseSound (tr : List Event) (w : ℕ) (x : Write) : Prop :=
  match x.phase with
  | .renewing => ¬ Stored tr w ∧ .lockingError w ∉ tr
  | .storing blocks _ => x.pending = [] ∧ (∀ r ∈ x.renewals, r.result = true) ∧
      .lockingError w ∉ tr ∧ StoresInOrder tr w x blocks
  | .raised => x.pending = [] ∧ (∃ r ∈ x.renewals, r.result = false) ∧ ¬ Stored tr w ∧
      .lockingError w ∈ tr

structure Sound (tr : List Event) (w : ℕ) (x : Write) : Prop where
  perm : (x.renewals.map (·.rootId) ++ x.pending).Perm x.rootIds
  owned : ∀ r ∈ x.renewals, r.result = true → r.owned = true
  leaves : ∀ m ∈ x.rows, ∀ e ∈ m.cells.entries, ¬ LockColumn e.1
  phase : PhaseSound tr w x

structure Invariant (tr : List Event) (s : State) : Prop where
  locks : SingleOwner s.locks.table
  fresh : ∀ w, s.writes w = none → ∀ e ∈ tr, e.write ≠ w
  sound : ∀ w x, s.writes w = some x → Sound tr w x

section Trace

variable {tr es : List Event} {w : ℕ}

theorem mem_append_of_write {e : Event} (h : ∀ e ∈ es, e.write ≠ w) (he : e.write = w) :
    e ∈ tr ++ es ↔ e ∈ tr := by
  rw [List.mem_append,or_iff_left]
  exact fun hm => h e hm he

theorem Sound.extend {x : Write} (h : Sound tr w x) (hes : ∀ e ∈ es, e.write ≠ w) :
    Sound (tr ++ es) w x := by
  have hstored : ∀ b, .stored w b ∈ tr ++ es ↔ .stored w b ∈ tr := fun b =>
    mem_append_of_write hes rfl
  have herror : .lockingError w ∈ tr ++ es ↔ .lockingError w ∈ tr := mem_append_of_write hes rfl
  refine ⟨h.perm,h.owned,h.leaves,?_⟩
  have hp := h.phase
  unfold PhaseSound at hp ⊢
  simpa only [Stored,StoresInOrder,hstored,herror] using hp

theorem storesInOrder_nil (h : ¬ Stored tr w) (x : Write) : StoresInOrder tr w x x.blocks :=
  ⟨[],rfl,by simp,fun b hb => absurd ⟨b,hb⟩ h⟩

theorem write_sound (h : ∀ e ∈ tr, e.write ≠ w) {rows : List Mutation}
    (hrows : ∀ m ∈ rows, ∀ e ∈ m.cells.entries, ¬ LockColumn e.1) (rootIds : Option (List ℕ))
    (operationId : Option ℕ) {blockSize : ℕ} (positive : 0 < blockSize) :
    Sound tr w (write rows rootIds operationId positive) := by
  have herror : .lockingError w ∉ tr := fun hm => h _ hm rfl
  have hstored : ¬ Stored tr w := fun ⟨_,hm⟩ => h _ hm rfl
  cases rootIds with
  | none =>
    exact ⟨by simp [write],by simp [write],hrows,by simp [write],by simp [write],herror,
      storesInOrder_nil hstored _⟩
  | some roots =>
    cases operationId with
    | none =>
      exact ⟨by simp [write],by simp [write],hrows,by simp [write],by simp [write],herror,
        storesInOrder_nil hstored _⟩
    | some op => exact ⟨by simp [write],by simp [write],hrows,hstored,herror⟩

end Trace

/-- A renewal keeps the single owner, and succeeds only if that is the operation. -/
theorem renewLock_spec {now : ℤ} {t : Table} (h : SingleOwner t) (op rootId : ℕ) (fault : Fault) :
    SingleOwner (renewLock now t op rootId fault).2 ∧
      ((renewLock now t op rootId fault).1 = true →
        Owned (t (uint64String rootId) Concurrency.lock.toColumn) op) := by
  have hserved := h.request now (uint64String rootId) op .renew
  cases fault with
  | before => exact ⟨h,fun hr => by simp [renewLock] at hr⟩
  | after => exact ⟨hserved,fun hr => by simp [renewLock] at hr⟩
  | none =>
    refine ⟨hserved,fun hr => ?_⟩
    rcases serve_putOwn now t (uint64String rootId) Concurrency.lock.toColumn (uint64String op) with
      ⟨he,-⟩ | ⟨-,n,hn,hv⟩
    · simp [renewLock,Stage.request,he] at hr
    · refine ⟨fun hnil => by simp [hnil] at hn,fun v hmem => ?_⟩
      exact (h _ _ (Or.inl rfl) _ ⟨v,hmem,rfl⟩ _ (Versions.newest_mem hn)).trans hv

theorem singleOwner_putBlock {t : Table} (h : SingleOwner t) (now : ℤ) {block : List Mutation}
    (hblock : ∀ m ∈ block, ∀ e ∈ m.cells.entries, ¬ LockColumn e.1) :
    SingleOwner (putBlock now t block) := by
  have hcells : ∀ c ∈ buildCellsetJson block, ¬ LockColumn c.column := fun c hc => by
    obtain ⟨m,hm,hc⟩ := List.mem_flatMap.mp hc
    obtain ⟨e,he,rfl⟩ := List.mem_map.mp hc
    exact hblock m hm e he
  rw [GuardedWrite.putBlock]
  generalize buildCellsetJson block = cells at hcells
  induction cells generalizing t with
  | nil => exact h
  | cons c cells ih =>
    refine ih (h.set fun hc => absurd hc (hcells c List.mem_cons_self)) fun d hd =>
      hcells d (List.mem_cons_of_mem c hd)

section Steps

variable {tr : List Event} {w n : ℕ} {x : Write}

theorem PhaseSound.renewing_of_pending (h : PhaseSound tr w x) {root : ℕ}
    (hroot : x.pending[n]? = some root) : x.phase = .renewing := by
  unfold PhaseSound at h
  cases hp : x.phase with
  | renewing => rfl
  | storing _ _ | raised =>
    simp only [hp] at h
    simp [h.1] at hroot

theorem Sound.renew (h : Sound tr w x) {root : ℕ} (hroot : x.pending[n]? = some root)
    {r : Renewal} (hid : r.rootId = root) (hr : r.result = true → r.owned = true) :
    Sound tr w { x with pending := x.pending.eraseIdx n, renewals := r :: x.renewals } where
  perm := by
    obtain ⟨hn,rfl⟩ := List.getElem?_eq_some_iff.mp hroot
    refine List.Perm.trans ?_ h.perm
    simp only [List.map_cons,hid,List.cons_append]
    exact List.perm_middle.symm.trans ((List.getElem_cons_eraseIdx_perm hn).append_left _)
  owned := by
    intro r' hr'
    rcases List.mem_cons.mp hr' with rfl | hr'
    · exact hr
    · exact h.owned r' hr'
  leaves := h.leaves
  phase := by
    have hp := h.phase
    have hren := hp.renewing_of_pending hroot
    simpa only [PhaseSound,hren] using hp

theorem Sound.proceed (h : Sound tr w x) (hp : x.phase = .renewing) (hnil : x.pending = []) :
    if x.renewals.all (·.result) then Sound (tr ++ []) w { x with phase := .storing x.blocks 5 }
    else Sound (tr ++ [.lockingError w]) w { x with phase := .raised } := by
  have hsound := h.phase
  simp only [PhaseSound,hp] at hsound
  split
  · rename_i hall
    rw [List.append_nil]
    exact ⟨h.perm,h.owned,h.leaves,hnil,by simpa using hall,hsound.2,storesInOrder_nil hsound.1 x⟩
  · rename_i hall
    refine ⟨h.perm,h.owned,h.leaves,hnil,by simpa using hall,?_,by simp⟩
    rintro ⟨block,hm⟩
    exact hsound.1 ⟨block,by simpa using hm⟩

theorem StoresInOrder.store {block : List Mutation} {blocks : List (List Mutation)}
    (h : StoresInOrder tr w x (block :: blocks)) :
    StoresInOrder (tr ++ [.stored w block]) w x (block :: blocks) ∧
      StoresInOrder (tr ++ [.stored w block]) w x blocks := by
  obtain ⟨done,happ,hdone,hall⟩ := h
  have hnew : ∀ b, .stored w b ∈ tr ++ [.stored w block] → b ∈ done ∨ b = block := fun b hb => by
    rcases List.mem_append.mp hb with hb | hb
    · exact (hall b hb).imp_right fun he => (Option.some.inj he).symm
    · rw [List.mem_singleton] at hb
      cases hb
      exact Or.inr rfl
  refine ⟨⟨done,happ,fun b hb => List.mem_append_left _ (hdone b hb),fun b hb =>
      (hnew b hb).imp_right fun he => by rw [he]; rfl⟩,
    ⟨done ++ [block],by simpa using happ,fun b hb => ?_,fun b hb => Or.inl ?_⟩⟩
  · rcases List.mem_append.mp hb with hb | hb
    · exact List.mem_append_left _ (hdone b hb)
    · rw [List.mem_singleton.mp hb]
      exact List.mem_append_right _ List.mem_cons_self
  · rcases hnew b hb with hb | rfl
    · exact List.mem_append_left _ hb
    · exact List.mem_append_right _ List.mem_cons_self

theorem Sound.put (h : Sound tr w x) {block : List Mutation} {blocks : List (List Mutation)}
    (hp : x.phase = .storing (block :: blocks) (n+1)) (attempt : Attempt) :
    match attempt with
    | .lost => Sound tr w { x with phase := .storing (block :: blocks) n }
    | .unanswered =>
      Sound (tr ++ [.stored w block]) w { x with phase := .storing (block :: blocks) n }
    | .answered => Sound (tr ++ [.stored w block]) w { x with phase := .storing blocks 5 } := by
  have hsound := h.phase
  simp only [PhaseSound,hp] at hsound
  obtain ⟨hnil,hall,herror,horder⟩ := hsound
  have herror' : .lockingError w ∉ tr ++ [.stored w block] := by simpa using herror
  cases attempt with
  | lost => exact ⟨h.perm,h.owned,h.leaves,hnil,hall,herror,horder⟩
  | unanswered => exact ⟨h.perm,h.owned,h.leaves,hnil,hall,herror',horder.store.1⟩
  | answered => exact ⟨h.perm,h.owned,h.leaves,hnil,hall,herror',horder.store.2⟩

theorem Sound.leaves_block (h : Sound tr w x) {block : List Mutation}
    {blocks : List (List Mutation)} (hp : x.phase = .storing (block :: blocks) (n+1)) :
    ∀ m ∈ block, ∀ e ∈ m.cells.entries, ¬ LockColumn e.1 := by
  have hsound := h.phase
  simp only [PhaseSound,hp] at hsound
  obtain ⟨-,-,-,done,happ,-⟩ := hsound
  intro m hm
  refine h.leaves m ?_
  rw [← flatten_chunked x.positive x.rows]
  refine List.mem_flatten.mpr ⟨block,?_,hm⟩
  have hmem : block ∈ x.blocks := happ ▸ List.mem_append_right done List.mem_cons_self
  exact hmem

end Steps

namespace Invariant

variable {lockExpiry : ℤ} {tr es : List Event} {s : State}

theorem set (h : Invariant tr s) {locks : HBase.State} {w : ℕ} {x : Write}
    (hl : SingleOwner locks.table) (hes : ∀ e ∈ es, e.write = w) (hx : Sound (tr ++ es) w x) :
    Invariant (tr ++ es) ({ s with locks := locks }.set w x) where
  locks := hl
  fresh w' hw' e he := by
    have hne : w' ≠ w := by
      rintro rfl
      simp [State.set] at hw'
    simp only [State.set,Function.update_of_ne hne] at hw'
    rcases List.mem_append.mp he with he | he
    · exact h.fresh w' hw' e he
    · exact fun heq => hne (heq.symm.trans (hes e he))
  sound w' x' hx' := by
    by_cases hne : w' = w
    · subst hne
      simp only [State.set,Function.update_self,Option.some.injEq] at hx'
      exact hx' ▸ hx
    · simp only [State.set,Function.update_of_ne hne] at hx'
      exact (h.sound w' x' hx').extend fun e he heq => hne (heq.symm.trans (hes e he))

theorem of_init (h : (machine lockExpiry).init s) : Invariant [] s where
  locks := singleOwner_of_init h.1
  fresh w hw := by simp
  sound w x hx := by simp [h.2] at hx

theorem of_step (h : Invariant tr s) {a : Action} {u : State} (hok : leavesLocks s a)
    (hs : step lockExpiry s a = some (es,u)) : Invariant (tr ++ es) u := by
  cases a with
  | lock a =>
    obtain ⟨⟨les,locks⟩,hl,hsu⟩ := Option.map_eq_some_iff.mp hs
    cases hsu
    simpa using (⟨singleOwner_of_step h.locks hl,h.fresh,h.sound⟩ :
      Invariant tr { s with locks := locks })
  | write w rows rootIds operationId blockSize positive =>
    simp only [step] at hs
    split at hs
    · rename_i hw
      cases hs
      exact h.set h.locks (by simp)
        (by simpa using write_sound (h.fresh w hw) hok rootIds operationId positive)
    · exact absurd hs (by simp)
  | renew w n fault =>
    obtain ⟨x,hx,hs⟩ := Option.bind_eq_some_iff.mp hs
    obtain ⟨root,hroot,hsu⟩ := Option.map_eq_some_iff.mp hs
    cases hsu
    obtain ⟨hl,hown⟩ := renewLock_spec h.locks x.operationId root fault
    have hlocks : SingleOwner ({ s.locks with table := _ } : HBase.State).table := hl
    refine h.set hlocks (by simp) ?_
    simpa using (h.sound w x hx).renew hroot rfl fun hr => decide_eq_true (hown hr)
  | proceed w =>
    obtain ⟨x,hx,hs⟩ := Option.bind_eq_some_iff.mp hs
    split at hs
    · rename_i hp hnil
      have hsound := (h.sound w x hx).proceed hp hnil
      simp only [GuardedWrite.proceed] at hs
      split at hs
      · rename_i hall
        cases hs
        exact h.set h.locks (by simp) (by simpa [hall] using hsound)
      · rename_i hall
        cases hs
        exact h.set h.locks (by simp [Event.write]) (by simpa [hall] using hsound)
    · exact absurd hs (by simp)
  | put w attempt =>
    obtain ⟨x,hx,hs⟩ := Option.bind_eq_some_iff.mp hs
    split at hs
    · rename_i block blocks n hp
      have hsound := (h.sound w x hx).put hp attempt
      have hlocks : SingleOwner ({ s.locks with table := _ } : HBase.State).table :=
        singleOwner_putBlock h.locks s.locks.now ((h.sound w x hx).leaves_block hp)
      cases attempt with
      | lost =>
        cases hs
        exact h.set h.locks (by simp) (by simpa using hsound)
      | unanswered | answered =>
        cases hs
        exact h.set hlocks (by simp [Event.write]) hsound
    · exact absurd hs (by simp)

theorem of_exec {s₀ : State} (hinit : (machine lockExpiry).init s₀)
    (hrun : Exec (machine lockExpiry) leavesLocks s₀ tr s) : Invariant tr s :=
  hrun.induct (P := Invariant) (of_init hinit) fun _ _ _ _ _ _ hi hok hs => hi.of_step hok hs

end Invariant

/-- Every root of the write was renewed, each time while the operation alone owned its lock. -/
def Write.Owned (x : Write) : Prop :=
  (x.renewals.map (·.rootId)).Perm x.rootIds ∧
    ∀ r ∈ x.renewals, r.result = true ∧ r.owned = true

theorem Sound.owned_of_results {tr : List Event} {w : ℕ} {x : Write} (h : Sound tr w x)
    (hnil : x.pending = []) (hall : ∀ r ∈ x.renewals, r.result = true) : x.Owned :=
  ⟨by simpa [hnil] using h.perm,fun r hr => ⟨hall r hr,h.owned r hr (hall r hr)⟩⟩

/-- In every run of lock requests and bulk writes, with responses lost anywhere, a write that has
stored a block owned the lock of each of its roots when it was renewed, with no condition on the
renewals. Its blocks are stored in order; one that did not own a lock raises and stores nothing. -/
theorem write_owned (lockExpiry : ℤ) {s₀ s : State} {tr : List Event}
    (hinit : (machine lockExpiry).init s₀) (hrun : Exec (machine lockExpiry) leavesLocks s₀ tr s)
    {w : ℕ} {x : Write} (hx : s.writes w = some x) :
    (Stored tr w → x.Owned ∧ .lockingError w ∉ tr) ∧
    (∃ rest, StoresInOrder tr w x rest) ∧
    (x.pending = [] → ¬ x.Owned → ¬ Stored tr w ∧ (.lockingError w ∈ tr ∨
      ∃ u, step lockExpiry s (.proceed w) = some ([.lockingError w],u) ∧ u.locks = s.locks)) := by
  have h := (Invariant.of_exec hinit hrun).sound w x hx
  have hp := h.phase
  cases hphase : x.phase with
  | renewing =>
    simp only [PhaseSound,hphase] at hp
    refine ⟨fun hs => absurd hs hp.1,⟨_,storesInOrder_nil hp.1 x⟩,fun hnil hno => ⟨hp.1,Or.inr ?_⟩⟩
    have hall : ¬ (x.renewals.all (·.result)) = true := fun hall =>
      hno (h.owned_of_results hnil (by simpa using hall))
    refine ⟨s.set w { x with phase := .raised },?_,rfl⟩
    have hproceed : GuardedWrite.proceed s w x = _ := if_neg hall
    simp [step,hx,hphase,hnil,hproceed]
  | storing blocks n =>
    simp only [PhaseSound,hphase] at hp
    obtain ⟨hnil,hall,herror,horder⟩ := hp
    have howned := h.owned_of_results hnil hall
    exact ⟨fun _ => ⟨howned,herror⟩,⟨blocks,horder⟩,fun _ hno => absurd howned hno⟩
  | raised =>
    simp only [PhaseSound,hphase] at hp
    obtain ⟨-,-,hno,herror⟩ := hp
    exact ⟨fun hs => absurd hs hno,⟨_,storesInOrder_nil hno x⟩,fun _ _ => ⟨hno,Or.inl herror⟩⟩

def start : State := ⟨HBase.start,fun _ => none⟩

theorem start_init (lockExpiry : ℤ) : (machine lockExpiry).init start :=
  ⟨HBase.start_init lockExpiry,fun _ => rfl⟩

def twoPuts : List Mutation :=
  [mutateRow [97] (Dict.empty.set Hierarchy.newParent [1]) (some 5000),
    mutateRow [98] (Dict.empty.set Hierarchy.newParent [2]) none]

def locker (operationId : ℕ) : Caller := ⟨operationId,uint64String 7,0⟩

def Event.stores (w : ℕ) : Event → Bool
  | .stored w' _ => w' = w
  | .lockingError _ => false

theorem stored_iff {tr : List Event} {w : ℕ} : tr.any (Event.stores w) = true ↔ Stored tr w := by
  rw [List.any_eq_true]
  constructor
  · rintro ⟨e,he,hw⟩
    cases e with
    | stored w' block =>
      obtain rfl : w' = w := of_decide_eq_true hw
      exact ⟨block,he⟩
    | lockingError w' => cases hw
  · rintro ⟨block,hb⟩
    exact ⟨_,hb,decide_eq_true rfl⟩

instance (tr : List Event) (w : ℕ) : Decidable (Stored tr w) := decidable_of_iff _ stored_iff

theorem write_owned_stored :
    ∃ tr s x, Stored tr 0 ∧ s.writes 0 = some x ∧ x.rootIds = [7] ∧ x.Owned ∧
      Exec (machine threeMinutes) leavesLocks start tr s := by
  obtain ⟨tr,s,hrun,hstored,hroots⟩ := exists_exec (machine threeMinutes) leavesLocks (s := start)
    (P := fun tr s => Stored tr 0 ∧ (s.writes 0).map (fun x => x.rootIds) = some [7])
    [.lock (.start (locker 1) (.lockRoot 7)),.lock (.serve (locker 1)),.lock (.resume (locker 1)),
      .lock (.serve (locker 1)),.lock (.resume (locker 1)),.lock (.tick 1000),
      .write 0 twoPuts (some [7]) (some 1) 1 (by decide),.renew 0 0 .none,.proceed 0,
      .put 0 .lost,.put 0 .answered,.put 0 .unanswered] (by decide +kernel)
  obtain ⟨x,hx,hroots⟩ := Option.map_eq_some_iff.mp hroots
  exact ⟨tr,s,x,hstored,hx,hroots,((write_owned threeMinutes (start_init _) hrun hx).1 hstored).1,hrun⟩

/-- An operation whose lock expired and was taken over stores nothing. -/
example : (execute (machine threeMinutes) leavesLocks start
    [.lock (.start (locker 1) (.lockRoot 7)),.lock (.serve (locker 1)),.lock (.resume (locker 1)),
      .lock (.serve (locker 1)),.lock (.resume (locker 1)),.lock (.tick 181000000),
      .lock (.start (locker 2) (.lockRoot 7)),.lock (.serve (locker 2)),.lock (.resume (locker 2)),
      .lock (.serve (locker 2)),.lock (.resume (locker 2)),.lock (.serve (locker 2)),
      .lock (.resume (locker 2)),.lock (.serve (locker 2)),
      .write 0 twoPuts (some [7]) (some 1) 1 (by decide),.renew 0 0 .none,.proceed 0]).any
    (fun r => (r.2.writes 0).any fun x => x.renewals = [⟨7,false,false⟩]) = true := by
  decide +kernel

end GuardedWrite
end HBase
end KvdbClient
