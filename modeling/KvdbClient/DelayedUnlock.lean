import KvdbClient.BigTableLocks
import KvdbClient.Transition

/-! Lock and unlock requests that arrive late: the client fixes the cutoff and the timestamp of a
request when it issues it, the server executes the request whenever it arrives. -/
namespace KvdbClient
namespace BigTable
namespace Delayed

open Lease Transition

structure Message where
  operationId : ℕ
  call : LockCall
  issued : ℤ
  deriving DecidableEq

structure State where
  now : ℤ
  table : Table
  inFlight : List Message

inductive Action
  | tick (elapsed : ℕ)
  | issue (operationId : ℕ) (c : LockCall)
  | execute (n : ℕ)

/-- A lock version that a request of an operation removed, and when. -/
structure Removal where
  operationId : ℕ
  cell : Cell
  time : ℤ
  deriving DecidableEq

def Message.run (lockExpiry : ℤ) (t : Table) (m : Message) : Bool × Table :=
  exec lockExpiry m.issued t m.operationId m.call

/-- The lock versions that are gone once the message is executed. -/
def removals (lockExpiry : ℤ) (s : State) (m : Message) : List Removal :=
  ((s.table m.call.rowKey).lockCells.filter fun x =>
    x ∉ ((m.run lockExpiry s.table).2 m.call.rowKey).cells).map (⟨m.operationId,·,s.now⟩)

def step (lockExpiry : ℤ) (s : State) : Action → Option (List Removal × State)
  | .tick d => some ([],{ s with now := s.now + d })
  | .issue op c =>
    if c.role = .acquire ∨ c.role = .release then
      some ([],{ s with inFlight := s.inFlight ++ [⟨op,c,s.now⟩] })
    else none
  | .execute n => s.inFlight[n]?.map fun m =>
    (removals lockExpiry s m,
      { s with table := (m.run lockExpiry s.table).2, inFlight := s.inFlight.eraseIdx n })

def machine (lockExpiry : ℤ) : Machine State Action Removal where
  init s := (∀ k, lockGrants (s.table k) = ∅) ∧ s.inFlight = []
  step := step lockExpiry

/-- The removed version was the remover's own, or expired. -/
def Removal.Harmless (lockExpiry : ℤ) (r : Removal) : Prop :=
  r.cell.value = uint64String r.operationId ∨
    r.cell.timestampMicros < timeCutoff r.time lockExpiry

/-- No version of the unlocking operation is at or past the cutoff the message carries, or the
row is uncontested when it arrives. -/
def UnlockSafe (lockExpiry : ℤ) (s : State) (m : Message) : Prop :=
  (∀ x ∈ (s.table m.call.rowKey).lockCells, x.value = uint64String m.operationId →
    x.timestampMicros < timeCutoff m.issued lockExpiry) ∨
  Uncontested lockExpiry s.now m.operationId (s.table m.call.rowKey)

instance (lockExpiry : ℤ) (s : State) (m : Message) : Decidable (UnlockSafe lockExpiry s m) :=
  inferInstanceAs (Decidable (_ ∨ _))

def unlocksSafe (lockExpiry : ℤ) (s : State) : Action → Prop
  | .execute n => ∀ m ∈ s.inFlight[n]?, m.call.role = .release → UnlockSafe lockExpiry s m
  | _ => True

instance (lockExpiry : ℤ) (s : State) (a : Action) : Decidable (unlocksSafe lockExpiry s a) :=
  match a with
  | .execute n => inferInstanceAs (Decidable (∀ m ∈ s.inFlight[n]?, _))
  | .tick _ => inferInstanceAs (Decidable True)
  | .issue _ _ => inferInstanceAs (Decidable True)

theorem mem_removals {lockExpiry : ℤ} {s : State} {m : Message} {r : Removal} :
    r ∈ removals lockExpiry s m ↔
      ∃ x ∈ (s.table m.call.rowKey).lockCells,
        x ∉ ((m.run lockExpiry s.table).2 m.call.rowKey).cells ∧
          r = ⟨m.operationId,x,s.now⟩ := by
  simp only [removals,List.mem_map,List.mem_filter,decide_eq_true_eq]
  constructor
  · rintro ⟨x,⟨hx,hgone⟩,rfl⟩
    exact ⟨x,hx,hgone,rfl⟩
  · rintro ⟨x,hx,hgone,rfl⟩
    exact ⟨x,⟨hx,hgone⟩,rfl⟩

/-- Live lock versions have one owner, and requests were issued in the past. -/
structure Invariant (lockExpiry : ℤ) (s : State) : Prop where
  exclusive : ∀ k, Exclusive (timeCutoff s.now lockExpiry) (lockGrants (s.table k))
  issued : ∀ m ∈ s.inFlight, m.issued ≤ s.now
  role : ∀ m ∈ s.inFlight, m.call.role = .acquire ∨ m.call.role = .release

namespace Invariant

variable {lockExpiry : ℤ} {s : State}

theorem of_init (h : (machine lockExpiry).init s) : Invariant lockExpiry s where
  exclusive k g hg := by simp [h.1 k] at hg
  issued m hm := by simp [h.2] at hm
  role m hm := by simp [h.2] at hm

theorem exclusive_update (h : Invariant lockExpiry s) {k : Bytes} {r : Row}
    (hr : Exclusive (timeCutoff s.now lockExpiry) (lockGrants r)) (k' : Bytes) :
    Exclusive (timeCutoff s.now lockExpiry) (lockGrants (Function.update s.table k r k')) := by
  by_cases hk : k' = k
  · subst hk
    simpa only [Function.update_self] using hr
  · simpa only [Function.update_of_ne hk] using h.exclusive k'

theorem exclusive_run (h : Invariant lockExpiry s) {m : Message} (hm : m ∈ s.inFlight) (k : Bytes) :
    Exclusive (timeCutoff s.now lockExpiry) (lockGrants ((m.run lockExpiry s.table).2 k)) := by
  rcases h.role m hm with hrole | hrole
  · rcases exec_acquire lockExpiry m.issued s.table m.operationId hrole with he | ⟨he,hidle,-⟩
    · simpa only [Message.run,he] using h.exclusive k
    · simp only [Message.run,he]
      -- A row without a version live at the earlier cutoff has none live now.
      have hun : Unopposed (timeCutoff s.now lockExpiry) (uint64String m.operationId)
          (insert (grantOf m.operationId m.issued) (lockGrants (s.table m.call.rowKey))) :=
        (unopposed_of_idle hidle (grantOf m.operationId m.issued).owner).insert.mono
          (timeCutoff_mono lockExpiry (h.issued m hm))
      exact h.exclusive_update (hun.subset (Row.grants_setCell_subset _ _)).exclusive k
  · rcases exec_release lockExpiry m.issued s.table m.operationId hrole with ⟨he,-⟩ | ⟨he,-⟩
    · simpa only [Message.run,he] using h.exclusive k
    · simp only [Message.run,he]
      refine h.exclusive_update (fun g hg => ?_) k
      simp [Row.grants_deleteColumn_self] at hg

theorem of_step (h : Invariant lockExpiry s) {a : Action} {es : List Removal} {u : State}
    (hs : step lockExpiry s a = some (es,u)) : Invariant lockExpiry u := by
  cases a with
  | tick d =>
    cases hs
    exact ⟨fun k => (h.exclusive k).mono (timeCutoff_mono lockExpiry (by simp)),
      fun m hm => (h.issued m hm).trans (by simp),h.role⟩
  | issue op c =>
    simp only [step] at hs
    split at hs
    · rename_i hrole
      cases hs
      refine ⟨h.exclusive,fun m hm => ?_,fun m hm => ?_⟩
      · rcases List.mem_append.mp hm with hm | hm
        · exact h.issued m hm
        · simp [List.mem_singleton.mp hm]
      · rcases List.mem_append.mp hm with hm | hm
        · exact h.role m hm
        · simpa [List.mem_singleton.mp hm] using hrole
    · exact absurd hs (by simp)
  | execute n =>
    obtain ⟨m,hm,hsu⟩ := Option.map_eq_some_iff.mp hs
    cases hsu
    exact ⟨h.exclusive_run (List.mem_of_getElem? hm),
      fun m' hm' => h.issued m' (List.mem_of_mem_eraseIdx hm'),
      fun m' hm' => h.role m' (List.mem_of_mem_eraseIdx hm')⟩

theorem of_reachable {ok : State → Action → Prop} (h : Reachable (machine lockExpiry) ok s) :
    Invariant lockExpiry s :=
  Reachable.invariant h (fun _ => of_init) fun _ _ _ _ hi _ hs => hi.of_step hs

/-- An unlock is safe iff every lock version it removes is its own or expired. -/
theorem harmless_iff (h : Invariant lockExpiry s) {m : Message}
    (hrole : m.call.role = .release) :
    (∀ r ∈ removals lockExpiry s m, r.Harmless lockExpiry) ↔ UnlockSafe lockExpiry s m := by
  rcases exec_release lockExpiry m.issued s.table m.operationId hrole with
    ⟨he,hno⟩ | ⟨he,g,⟨x,hx,hcol,rfl⟩,hown,hl⟩
  · refine ⟨fun _ => Or.inl fun x hx hv => ?_,fun _ r hr => ?_⟩
    · by_contra hlt
      exact hno ⟨_,Row.lockGrant_of_mem hx,hv,not_lt.mp hlt⟩
    · obtain ⟨x,hx,hgone,-⟩ := mem_removals.mp hr
      simp only [Message.run,he] at hgone
      exact absurd (Row.mem_lockCells.mp hx).1 hgone
  · have hgone : ∀ y ∈ (s.table m.call.rowKey).lockCells,
        (⟨m.operationId,y,s.now⟩ : Removal) ∈ removals lockExpiry s m := by
      refine fun y hy => mem_removals.mpr ⟨y,hy,?_,rfl⟩
      simp only [Message.run,he,Function.update_self,Row.mem_deleteColumn]
      exact fun hc => hc.2 (Row.mem_lockCells.mp hy).2
    have hxl : x ∈ (s.table m.call.rowKey).lockCells := Row.mem_lockCells.mpr ⟨hx,hcol⟩
    constructor
    · intro hall
      obtain ⟨n,hn,hnew⟩ := Row.exists_newest (List.ne_nil_of_mem hxl)
      exact Or.inr ⟨n,hn,hnew,hall _ (hgone n hn)⟩
    · rintro (hlt | hun) r hr
      · exact absurd (hlt x hxl hown) (not_lt.mpr hl)
      · obtain ⟨y,hy,-,rfl⟩ := mem_removals.mp hr
        by_cases hlive : y.timestampMicros < timeCutoff s.now lockExpiry
        · exact Or.inr hlive
        · exact Or.inl (hun.unopposed (h.exclusive _) _ (Row.lockGrant_of_mem hy)
            (not_lt.mp hlive))

theorem harmless_of_acquire (h : Invariant lockExpiry s) {m : Message} (hm : m ∈ s.inFlight)
    (hrole : m.call.role = .acquire) {r : Removal} (hr : r ∈ removals lockExpiry s m) :
    r.Harmless lockExpiry := by
  obtain ⟨x,hx,hgone,rfl⟩ := mem_removals.mp hr
  rcases exec_acquire lockExpiry m.issued s.table m.operationId hrole with he | ⟨-,hidle,-⟩
  · simp only [Message.run,he] at hgone
    exact absurd (Row.mem_lockCells.mp hx).1 hgone
  · have hlt : x.timestampMicros < timeCutoff m.issued lockExpiry :=
      not_le.mp (hidle _ (Row.lockGrant_of_mem hx))
    exact Or.inr (hlt.trans_le (timeCutoff_mono lockExpiry (h.issued m hm)))

theorem harmless_of_step (h : Invariant lockExpiry s) {a : Action} {es : List Removal} {u : State}
    (hok : unlocksSafe lockExpiry s a) (hs : step lockExpiry s a = some (es,u)) {r : Removal}
    (hr : r ∈ es) : r.Harmless lockExpiry := by
  cases a with
  | tick d => cases hs; simp at hr
  | issue op c =>
    simp only [step] at hs
    split at hs
    · cases hs; simp at hr
    · exact absurd hs (by simp)
  | execute n =>
    obtain ⟨m,hm,hsu⟩ := Option.map_eq_some_iff.mp hs
    cases hsu
    rcases h.role m (List.mem_of_getElem? hm) with hrole | hrole
    · exact h.harmless_of_acquire (List.mem_of_getElem? hm) hrole hr
    · exact (h.harmless_iff hrole).mpr (hok m hm hrole) r hr

end Invariant

/-- Runs of safe unlocks remove no live version of another operation, and in any run an unlock in
flight removes none exactly when it is safe. -/
theorem unlock_harmless (lockExpiry : ℤ) :
    (∀ s₀ tr s, (machine lockExpiry).init s₀ →
      Exec (machine lockExpiry) (unlocksSafe lockExpiry) s₀ tr s →
      ∀ r ∈ tr, r.Harmless lockExpiry) ∧
    ∀ s m, Reachable (machine lockExpiry) any s → m ∈ s.inFlight → m.call.role = .release →
      ((∀ r ∈ removals lockExpiry s m, r.Harmless lockExpiry) ↔ UnlockSafe lockExpiry s m) := by
  refine ⟨fun s₀ tr s hinit hrun => ?_,fun s m h hm hrole =>
    (Invariant.of_reachable h).harmless_iff hrole⟩
  refine hrun.induct (P := fun tr _ => ∀ r ∈ tr, r.Harmless lockExpiry) (by simp) ?_
  intro tr t a es u hrun ih hok hs r hr
  rcases List.mem_append.mp hr with hr | hr
  · exact ih r hr
  · exact (Invariant.of_reachable ⟨s₀,tr,hinit,hrun⟩).harmless_of_step hok hs hr

def start : State := ⟨0,fun _ => Row.empty,[]⟩

theorem start_init (lockExpiry : ℤ) : (machine lockExpiry).init start := by
  refine ⟨fun k => ?_,rfl⟩
  simp [start,Row.empty,Row.grants]

/-- An unlock that arrives ten seconds late, after its issuer's lock has expired and another
operation has locked the row, removes the lock of that operation. -/
theorem unlock_removes_live_lock :
    ¬ ∀ s₀ tr s, (machine threeMinutes).init s₀ → Exec (machine threeMinutes) any s₀ tr s →
      ∀ r ∈ tr, r.Harmless threeMinutes := by
  intro h
  obtain ⟨tr,s,hrun,hmem⟩ := exists_exec (machine threeMinutes) any (s := start)
    (P := fun tr _ => (⟨1,lockCell Concurrency.lock 2 181000000,181000000⟩ : Removal) ∈ tr)
    [.issue 1 (.lockByRowKey sampleKey),.execute 0,.tick 171000000,.issue 1 (.unlockByRowKey sampleKey),
      .tick 10000000,.issue 2 (.lockByRowKey sampleKey),.execute 1,.execute 0] (by decide +kernel)
  rcases h _ _ _ (start_init _) hrun _ hmem with hown | hlt
  · exact absurd (uint64String_injective hown) (by decide)
  · exact absurd hlt (by decide)

end Delayed
end BigTable
end KvdbClient
