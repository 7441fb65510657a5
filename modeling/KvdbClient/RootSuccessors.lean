import KvdbClient.ReplacedRoots

/-! The successors of roots over runs of guarded writes on BigTable. Two operations that write at the
same time could both give a root a successor, and its history would fork; the renewals of `write` keep
them from it as long as rows are stored before the lock of their operation ends. -/
namespace KvdbClient
namespace BigTable
namespace GuardedWrite

open Lease Transition

def RowMutationEntry.Replaces (entry : RowMutationEntry) (rootId : ℕ) : Prop :=
  entry.rowKey = serializeUint64 rootId false false ∧
    ∃ c ∈ entry.mutations, c.column = Hierarchy.newParent

/-- The write is still renewing, or has rows left to store. -/
def Write.InFlight (x : Write) : Prop := x.phase = .renewing ∨ x.phase.remaining ≠ []

/-- On top of `guarded`: temporal locks are those of the roots, no operation unlocks a root while a
write of its own names it, and a write that replaces a root names it and stores the row before the
time of the operation's last acquire or renewal of the root expires. -/
def disciplined (lockExpiry : ℤ) (s : State) (a : Action) : Prop :=
  guarded lockExpiry s a ∧ match a with
    | .lock (.call i c) =>
      (c.role = .acquire ∨ c.role = .renew → c.temporalOnRoot = true) ∧
      (c.role = .release → ∀ w x, s.writes w = some x → x.operationId = i.operationId → x.InFlight →
        ∀ r ∈ x.rootIds, serializeUint64 r false false ≠ i.rowKey)
    | .store w n => ∀ x ∈ s.writes w, ∀ entry ∈ x.phase.remaining[n]?, ∀ r, entry.Replaces r →
      r ∈ x.rootIds ∧ ∀ t ∈ s.locks.hold x.operationId (serializeUint64 r false false),
        s.locks.now ≤ t + lockExpiry
    | _ => True

/-- The root is replaced, and who still holds it is among the operations. -/
structure Closed (lockExpiry : ℤ) (s : State) (rootId : ℕ) (ops : Set ℕ) : Prop where
  replaced : Replaced s.locks.table rootId
  holders : ∀ op, Holds lockExpiry s.locks op (serializeUint64 rootId false false) → op ∈ ops

section Locks

variable {lockExpiry : ℤ} {l : BigTable.State} {rootId : ℕ}

theorem locksRoot_of_rowKey {c : LockCall} (hroot : c.temporalOnRoot = true)
    (hrole : c.role = .acquire ∨ c.role = .renew)
    (hk : c.rowKey = serializeUint64 rootId false false) : LocksRoot rootId c := by
  cases c with
  | lockRoot r =>
    obtain rfl : r = rootId := uint64String_injective hk
    exact Or.inl rfl
  | renewLock r =>
    obtain rfl : r = rootId := uint64String_injective hk
    exact Or.inr (Or.inr rfl)
  | unlockRoot r => rcases hrole with h | h <;> cases h
  | _ => cases hroot

theorem holds_of_call (h : Replaced l.table rootId) {i : Caller} {c : LockCall}
    (hk : c.rowKey = i.rowKey) (hroot : c.role = .acquire ∨ c.role = .renew → c.temporalOnRoot = true)
    {op : ℕ} (hh : Holds lockExpiry (l.call lockExpiry i c).2 op (serializeUint64 rootId false false)) :
    Holds lockExpiry l op (serializeUint64 rootId false false) := by
  by_cases hsame : op = i.operationId ∧ serializeUint64 rootId false false = i.rowKey
  · have hkey : c.rowKey = serializeUint64 rootId false false := hk.trans hsame.2.symm
    cases hrole : c.role with
    | acquire =>
      rwa [call_of_replaced h i
        (locksRoot_of_rowKey (hroot (Or.inl hrole)) (Or.inl hrole) hkey)] at hh
    | renew =>
      rwa [call_of_replaced h i
        (locksRoot_of_rowKey (hroot (Or.inr hrole)) (Or.inr hrole) hkey)] at hh
    | acquireIndefinite | releaseIndefinite =>
      simpa only [Holds,State.call,hrole,holdAfter,setEntry_eq_self] using hh
    | release =>
      obtain ⟨t,ht,hnow⟩ := hh
      obtain ⟨rfl,hrow⟩ := hsame
      simp only [State.call,hrole,hrow,setEntry_self] at ht
      cases hres : (exec lockExpiry l.now l.table i.operationId c).1 with
      | true => simp [hres,holdAfter] at ht
      | false =>
        rw [hres] at ht
        exact ⟨t,hrow ▸ ht,hnow⟩
  · obtain ⟨t,ht,hnow⟩ := hh
    exact ⟨t,(setEntry_of_ne hsame).symm.trans ht,hnow⟩

theorem hold_ne_none_of_call {i : Caller} {c : LockCall} {op : ℕ} {k : Bytes}
    (h : l.hold op k ≠ none) (hrelease : c.role = .release → ¬ (op = i.operationId ∧ k = i.rowKey)) :
    (l.call lockExpiry i c).2.hold op k ≠ none := by
  by_cases hsame : op = i.operationId ∧ k = i.rowKey
  · obtain ⟨rfl,rfl⟩ := hsame
    simp only [State.call,setEntry_self]
    cases hrole : c.role with
    | acquire | renew =>
      cases (exec lockExpiry l.now l.table i.operationId c).1 with
      | true => exact Option.some_ne_none _
      | false => exact h
    | acquireIndefinite | releaseIndefinite => exact h
    | release => exact absurd ⟨rfl,rfl⟩ (hrelease hrole)
  · simpa only [State.call,setEntry_of_ne hsame] using h

theorem renewLock_eq_self_or (l : BigTable.State) (op root : ℕ) (fault : Fault) :
    (renewLock lockExpiry l op root fault).2 = l ∨ (renewLock lockExpiry l op root fault).2 =
      (l.call lockExpiry (rootCaller op root) (.renewLock root)).2 := by
  cases fault with
  | before => exact Or.inl rfl
  | none | after => exact Or.inr rfl

end Locks

section Steps

variable {lockExpiry : ℤ} {s u : State} {tr es : List Event} {a : Action} {rootId : ℕ}

theorem Closed.of_step {ops : Set ℕ} (h : Closed lockExpiry s rootId ops)
    (hok : disciplined lockExpiry s a) (hs : step lockExpiry s a = some (es,u)) :
    Closed lockExpiry u rootId ops := by
  refine ⟨replaced_step h.replaced hs,fun op hh => h.holders op ?_⟩
  cases a with
  | lock a =>
    obtain ⟨⟨les,locks⟩,hl,hsu⟩ := Option.map_eq_some_iff.mp hs
    cases hsu
    cases a with
    | tick d =>
      cases hl
      obtain ⟨t,ht,hnow⟩ := hh
      exact ⟨t,ht,by simp only at hnow; omega⟩
    | call i c =>
      obtain ⟨hk,-,rfl⟩ := step_call hl
      exact holds_of_call h.replaced hk hok.2.1 hh
  | write w rows rootIds operationId =>
    simp only [step] at hs
    split at hs <;> cases hs
    exact hh
  | renew w n fault =>
    obtain ⟨x,-,hs⟩ := Option.bind_eq_some_iff.mp hs
    obtain ⟨root,-,hsu⟩ := Option.map_eq_some_iff.mp hs
    cases hsu
    change Holds lockExpiry (renewLock lockExpiry s.locks x.operationId root fault).2 op _ at hh
    rcases renewLock_eq_self_or s.locks x.operationId root fault with he | he
    · rwa [he] at hh
    · rw [he] at hh
      exact holds_of_call h.replaced rfl (fun _ => rfl) hh
  | proceed w =>
    obtain ⟨x,-,hs⟩ := Option.bind_eq_some_iff.mp hs
    split at hs
    · simp only [GuardedWrite.proceed] at hs
      split at hs <;> cases hs <;> exact hh
    · cases hs
  | store w n =>
    obtain ⟨x,-,hs⟩ := Option.bind_eq_some_iff.mp hs
    obtain ⟨entry,-,hsu⟩ := Option.map_eq_some_iff.mp hs
    cases hsu
    exact hh

theorem replaced_of_store (t : Table) {entry : RowMutationEntry} (h : entry.Replaces rootId) :
    Replaced (entry.store t) rootId := by
  obtain ⟨hkey,c,hc,hcolumn⟩ := h
  have hcells : ∀ (cells : List Cell) (r : Row), c ∈ cells →
      ∃ g ∈ (cells.foldl Row.setCell r).grants Hierarchy.newParent, g.stamp = c.timestampMicros := by
    intro cells
    induction cells with
    | nil => exact fun r hc => absurd hc List.not_mem_nil
    | cons d cells ih =>
      intro r hc
      rcases List.mem_cons.mp hc with rfl | hc
      · exact foldl_exists_grant cells ⟨_,hcolumn ▸ Row.setCell_grant r c,rfl⟩
      · exact ih _ hc
  rw [replaced_iff]
  refine ⟨c.timestampMicros,?_⟩
  rw [replacements,Set.mem_ofPred_eq,RowMutationEntry.store,hkey,Function.update_self]
  exact hcells _ _ hc

theorem replaces_of_replaced {t : Table} {entry : RowMutationEntry}
    (h : Replaced (entry.store t) rootId) : Replaced t rootId ∨ entry.Replaces rootId := by
  have hcells : ∀ (cells : List Cell) (r : Row),
      ((cells.foldl Row.setCell r).grants Hierarchy.newParent).Nonempty →
        (r.grants Hierarchy.newParent).Nonempty ∨ ∃ c ∈ cells, c.column = Hierarchy.newParent := by
    intro cells
    induction cells with
    | nil => exact fun r hr => Or.inl hr
    | cons c cells ih =>
      intro r hr
      rcases ih _ hr with hr | ⟨d,hd,hcolumn⟩
      · by_cases hc : c.column = Hierarchy.newParent
        · exact Or.inr ⟨c,List.mem_cons_self,hc⟩
        · rw [Row.grants_setCell_of_ne hc] at hr
          exact Or.inl hr
      · exact Or.inr ⟨d,List.mem_cons_of_mem _ hd,hcolumn⟩
  rw [Replaced,RowMutationEntry.store] at h
  by_cases hk : serializeUint64 rootId false false = entry.rowKey
  · rw [hk,Function.update_self] at h
    exact (hcells _ _ h).imp (fun h => by rwa [Replaced,hk]) fun h => ⟨hk.symm,h⟩
  · rw [Function.update_of_ne hk] at h
    exact Or.inl h

/-- Nobody takes a hold from a write in flight of a root that it renewed. -/
def HoldsRenewed (s : State) : Prop :=
  ∀ w x, s.writes w = some x → x.InFlight → ∀ r ∈ x.renewals, r.result = true →
    s.locks.hold x.operationId (serializeUint64 r.rootId false false) ≠ none

def operation (s : State) (w : ℕ) : Option ℕ := (s.writes w).map (·.operationId)

theorem operation_set {l : BigTable.State} {w : ℕ} {x y : Write} (hx : s.writes w = some x)
    (hop : y.operationId = x.operationId) (w' : ℕ) :
    operation ({ s with locks := l }.set w y) w' = operation s w' := by
  by_cases hne : w' = w
  · subst hne
    simp [operation,State.set,hx,hop]
  · simp [operation,State.set,Function.update_of_ne hne]

theorem operation_of_step (hs : step lockExpiry s a = some (es,u)) {w op : ℕ}
    (h : operation s w = some op) : operation u w = some op := by
  rw [← h]
  cases a with
  | lock a =>
    obtain ⟨⟨les,locks⟩,-,hsu⟩ := Option.map_eq_some_iff.mp hs
    cases hsu
    rfl
  | write w' rows rootIds operationId =>
    simp only [step] at hs
    split at hs
    · rename_i hw
      cases hs
      have hne : w ≠ w' := by
        rintro rfl
        simp [operation,hw] at h
      simp [operation,State.set,Function.update_of_ne hne]
    · cases hs
  | renew w' n fault =>
    obtain ⟨x,hx,hs⟩ := Option.bind_eq_some_iff.mp hs
    obtain ⟨root,-,hsu⟩ := Option.map_eq_some_iff.mp hs
    cases hsu
    exact operation_set hx (by rfl) w
  | proceed w' =>
    obtain ⟨x,hx,hs⟩ := Option.bind_eq_some_iff.mp hs
    split at hs
    · simp only [GuardedWrite.proceed] at hs
      split at hs <;> cases hs <;> exact operation_set hx (by rfl) w
    · cases hs
  | store w' n =>
    obtain ⟨x,hx,hs⟩ := Option.bind_eq_some_iff.mp hs
    obtain ⟨entry,-,hsu⟩ := Option.map_eq_some_iff.mp hs
    cases hsu
    exact operation_set hx (by rfl) w

theorem HoldsRenewed.set (h : HoldsRenewed s) {l : BigTable.State} {w : ℕ} {y : Write}
    (hl : ∀ op k, s.locks.hold op k ≠ none → l.hold op k ≠ none)
    (hy : y.InFlight → ∀ r ∈ y.renewals, r.result = true →
      l.hold y.operationId (serializeUint64 r.rootId false false) ≠ none) :
    HoldsRenewed ({ s with locks := l }.set w y) := by
  intro w' x' hx' hflight r hr hresult
  by_cases hne : w' = w
  · subst hne
    simp only [State.set,Function.update_self,Option.some.injEq] at hx'
    subst hx'
    exact hy hflight r hr hresult
  · simp only [State.set,Function.update_of_ne hne] at hx'
    exact hl _ _ (h w' x' hx' hflight r hr hresult)

theorem renewLock_hold (l : BigTable.State) (op root : ℕ) (fault : Fault)
    (h : (renewLock lockExpiry l op root fault).1 = true) :
    (renewLock lockExpiry l op root fault).2.hold op (serializeUint64 root false false) ≠ none := by
  cases fault with
  | before | after => cases h
  | none =>
    have hcall : (exec lockExpiry l.now l.table op (.renewLock root)).1 = true := h
    simp [renewLock,State.call,rootCaller,hcall,LockCall.role,holdAfter]

theorem HoldsRenewed.of_step (h : HoldsRenewed s) (hsound : Invariant lockExpiry tr s)
    (hok : disciplined lockExpiry s a) (hs : step lockExpiry s a = some (es,u)) :
    HoldsRenewed u := by
  cases a with
  | lock a =>
    obtain ⟨⟨les,locks⟩,hl,hsu⟩ := Option.map_eq_some_iff.mp hs
    cases hsu
    cases a with
    | tick d =>
      cases hl
      exact h
    | call i c =>
      obtain ⟨-,-,rfl⟩ := step_call hl
      intro w x hx hflight r hr hresult
      refine hold_ne_none_of_call (h w x hx hflight r hr hresult) fun hrole => ?_
      rintro ⟨hop,hrow⟩
      have hmem : r.rootId ∈ x.rootIds := (hsound.sound w x hx).perm.subset
        (List.mem_append_left _ (List.mem_map_of_mem hr))
      exact hok.2.2 hrole w x hx hop hflight r.rootId hmem hrow
  | write w rows rootIds operationId =>
    simp only [step] at hs
    split at hs
    · cases hs
      refine h.set (fun _ _ hh => hh) fun _ r hr => ?_
      have hnil : (write rows rootIds operationId).renewals = [] := by
        cases rootIds <;> cases operationId <;> rfl
      rw [hnil] at hr
      cases hr
    · cases hs
  | renew w n fault =>
    obtain ⟨x,hx,hs⟩ := Option.bind_eq_some_iff.mp hs
    obtain ⟨root,-,hsu⟩ := Option.map_eq_some_iff.mp hs
    cases hsu
    have hkept : ∀ op k, s.locks.hold op k ≠ none →
        (renewLock lockExpiry s.locks x.operationId root fault).2.hold op k ≠ none := by
      intro op k hh
      rcases renewLock_eq_self_or s.locks x.operationId root fault with he | he
      · rwa [he]
      · rw [he]
        exact hold_ne_none_of_call hh fun hrole => by cases hrole
    refine h.set hkept fun hflight r hr hresult => ?_
    rcases List.mem_cons.mp hr with rfl | hr
    · exact renewLock_hold s.locks x.operationId root fault hresult
    · exact hkept _ _ (h w x hx hflight r hr hresult)
  | proceed w =>
    obtain ⟨x,hx,hs⟩ := Option.bind_eq_some_iff.mp hs
    split at hs
    · rename_i hphase
      have hx' := h w x hx (Or.inl hphase.1)
      simp only [GuardedWrite.proceed] at hs
      split at hs <;> cases hs <;> exact h.set (fun _ _ hh => hh) fun _ => hx'
    · cases hs
  | store w n =>
    obtain ⟨x,hx,hs⟩ := Option.bind_eq_some_iff.mp hs
    obtain ⟨entry,hentry,hsu⟩ := Option.map_eq_some_iff.mp hs
    cases hsu
    have hflight : x.InFlight := Or.inr fun hnil => by simp [hnil] at hentry
    exact h.set (fun _ _ hh => hh) fun _ => h w x hx hflight

/-- The step that stores a row, and who holds a root that the row replaces. -/
theorem store_of_stored (hs : step lockExpiry s a = some (es,u)) {w : ℕ} {entry : RowMutationEntry}
    (hmem : .stored w entry ∈ es) : ∃ n x, a = .store w n ∧ s.writes w = some x ∧
      x.phase.remaining[n]? = some entry ∧ es = [.stored w entry] ∧
      u.locks = { s.locks with table := entry.store s.locks.table } := by
  cases a with
  | lock a =>
    obtain ⟨⟨les,locks⟩,-,hsu⟩ := Option.map_eq_some_iff.mp hs
    cases hsu
    cases hmem
  | write w rows rootIds operationId =>
    simp only [step] at hs
    split at hs <;> cases hs
    cases hmem
  | renew w n fault =>
    obtain ⟨x,-,hs⟩ := Option.bind_eq_some_iff.mp hs
    obtain ⟨root,-,hsu⟩ := Option.map_eq_some_iff.mp hs
    cases hsu
    cases hmem
  | proceed w =>
    obtain ⟨x,-,hs⟩ := Option.bind_eq_some_iff.mp hs
    split at hs
    · simp only [GuardedWrite.proceed] at hs
      split at hs <;> cases hs <;> simp at hmem
    · cases hs
  | store w' n =>
    obtain ⟨x,hx,hs⟩ := Option.bind_eq_some_iff.mp hs
    obtain ⟨entry',hentry,hsu⟩ := Option.map_eq_some_iff.mp hs
    cases hsu
    obtain ⟨rfl,rfl⟩ : w = w' ∧ entry = entry' := by simpa using hmem
    exact ⟨n,x,rfl,hx,hentry,rfl,rfl⟩

/-- The renewals of a write that stores rows, and the times, make its operation the holder. -/
theorem holds_of_store (hsound : Invariant lockExpiry tr s) (hrenewed : HoldsRenewed s) {w n : ℕ}
    {x : Write} {entry : RowMutationEntry} (hok : disciplined lockExpiry s (.store w n))
    (hx : s.writes w = some x) (hentry : x.phase.remaining[n]? = some entry)
    (hrep : entry.Replaces rootId) :
    Holds lockExpiry s.locks x.operationId (serializeUint64 rootId false false) := by
  obtain ⟨hmem,htime⟩ := hok.2 x hx entry hentry rootId hrep
  have hsx := hsound.sound w x hx
  have hphase := hsx.phase
  cases hp : x.phase with
  | renewing | raised => simp [hp,Phase.remaining] at hentry
  | storing remaining =>
    simp only [PhaseSound,hp] at hphase
    have hperm := hsx.perm
    rw [hphase.1,List.append_nil] at hperm
    obtain ⟨r,hr,rfl⟩ := List.mem_map.mp (hperm.mem_iff.mpr hmem)
    have hflight : x.InFlight := Or.inr fun hnil => by simp [hnil] at hentry
    obtain ⟨t,ht⟩ := Option.ne_none_iff_exists'.mp
      (hrenewed w x hx hflight r hr (hphase.2.1 r hr))
    exact ⟨t,ht,htime t ht⟩

/-- Every root has successors of one operation at most, which is the only one that may still hold
it, and the roots that were replaced before have none from the run. -/
structure Undivided (lockExpiry : ℤ) (s₀ : State) (tr : List Event) (s : State) : Prop where
  sound : Invariant lockExpiry tr s
  renewed : HoldsRenewed s
  before : ∀ r, Replaced s₀.locks.table r → Closed lockExpiry s r ∅
  cause : ∀ r, Replaced s.locks.table r → Replaced s₀.locks.table r ∨
    ∃ w entry, .stored w entry ∈ tr ∧ entry.Replaces r
  after : ∀ w entry r, .stored w entry ∈ tr → entry.Replaces r →
    ∃ op, operation s w = some op ∧ Closed lockExpiry s r {op}
  fresh : ∀ w entry r, .stored w entry ∈ tr → entry.Replaces r → ¬ Replaced s₀.locks.table r
  once : ∀ w w' entry entry' r, .stored w entry ∈ tr → .stored w' entry' ∈ tr → entry.Replaces r →
    entry'.Replaces r → operation s w = operation s w'

namespace Undivided

variable {s₀ : State}

theorem of_init (h : (machine lockExpiry).init s) : Undivided lockExpiry s [] s where
  sound := Invariant.of_init h
  renewed w x hx := by simp [h.2] at hx
  before r hr := ⟨hr,fun op hh => by
    obtain ⟨t,ht,-⟩ := hh
    simp [h.1.2] at ht⟩
  cause r hr := Or.inl hr
  after w entry r hw := by cases hw
  fresh w entry r hw := by cases hw
  once w w' entry entry' r hw := by cases hw

theorem of_step (h : Undivided lockExpiry s₀ tr s) (hok : disciplined lockExpiry s a)
    (hs : step lockExpiry s a = some (es,u)) : Undivided lockExpiry s₀ (tr ++ es) u := by
  have hold : ∀ w entry r, .stored w entry ∈ tr → entry.Replaces r →
      ∃ op, operation s w = some op ∧ operation u w = some op ∧ Closed lockExpiry s r {op} :=
    fun w entry r hw hrep => by
      obtain ⟨op,hop,hclosed⟩ := h.after w entry r hw hrep
      exact ⟨op,hop,operation_of_step hs hop,hclosed⟩
  -- A row that is stored now finds its operation holding the roots that it replaces.
  have hnew : ∀ w entry r, .stored w entry ∈ es → entry.Replaces r → ∃ op, operation u w = some op ∧
      Holds lockExpiry s.locks op (serializeUint64 r false false) ∧ Closed lockExpiry u r {op} ∧
      es = [.stored w entry] := fun w entry r hw hrep => by
    obtain ⟨n,x,rfl,hx,hentry,hes,hlocks⟩ := store_of_stored hs hw
    have hholds := holds_of_store h.sound h.renewed hok hx hentry hrep
    refine ⟨x.operationId,operation_of_step hs (by simp [operation,hx]),hholds,⟨?_,fun p hp => ?_⟩,hes⟩
    · rw [hlocks]
      exact replaced_of_store s.locks.table hrep
    · rw [hlocks] at hp
      exact h.sound.locks.mutualExclusion _ _ _ hp hholds
  have hmixed : ∀ w w' entry entry' r, .stored w entry ∈ tr → .stored w' entry' ∈ es →
      entry.Replaces r → entry'.Replaces r → operation u w = operation u w' := by
    intro w w' entry entry' r hw hw' hrep hrep'
    obtain ⟨op,-,hop,hclosed⟩ := hold w entry r hw hrep
    obtain ⟨op',hop',hholds,-,-⟩ := hnew w' entry' r hw' hrep'
    rw [hop,hop',hclosed.holders op' hholds]
  refine ⟨h.sound.of_step hok.1 hs,h.renewed.of_step h.sound hok hs,
    fun r hr => (h.before r hr).of_step hok hs,fun r hr => ?_,?_,?_,?_⟩
  · have hcause : Replaced s.locks.table r ∨ ∃ w entry, .stored w entry ∈ es ∧ entry.Replaces r := by
      rcases replacements_step_cases hs with heq | ⟨w,entry,hw,heq⟩
      · rw [replaced_iff,heq r,← replaced_iff] at hr
        exact Or.inl hr
      · rw [heq] at hr
        exact (replaces_of_replaced hr).imp id fun hrep => ⟨w,entry,hw,hrep⟩
    rcases hcause with hr | ⟨w,entry,hw,hrep⟩
    · exact (h.cause r hr).imp id fun ⟨w,entry,hw,hrep⟩ =>
        ⟨w,entry,List.mem_append_left _ hw,hrep⟩
    · exact Or.inr ⟨w,entry,List.mem_append_right _ hw,hrep⟩
  · intro w entry r hw hrep
    rcases List.mem_append.mp hw with hw | hw
    · obtain ⟨op,-,hop,hclosed⟩ := hold w entry r hw hrep
      exact ⟨op,hop,hclosed.of_step hok hs⟩
    · obtain ⟨op,hop,-,hclosed,-⟩ := hnew w entry r hw hrep
      exact ⟨op,hop,hclosed⟩
  · intro w entry r hw hrep hreplaced
    rcases List.mem_append.mp hw with hw | hw
    · exact h.fresh w entry r hw hrep hreplaced
    · obtain ⟨op,-,hholds,-⟩ := hnew w entry r hw hrep
      exact (h.before r hreplaced).holders op hholds
  · intro w w' entry entry' r hw hw' hrep hrep'
    rcases List.mem_append.mp hw with hw | hw <;> rcases List.mem_append.mp hw' with hw' | hw'
    · obtain ⟨op,hs₁,hu₁,-⟩ := hold w entry r hw hrep
      obtain ⟨op',hs₂,hu₂,-⟩ := hold w' entry' r hw' hrep'
      rw [hu₁,hu₂,← hs₁,← hs₂]
      exact h.once w w' entry entry' r hw hw' hrep hrep'
    · exact hmixed w w' entry entry' r hw hw' hrep hrep'
    · exact (hmixed w' w entry' entry r hw' hw hrep' hrep).symm
    · obtain ⟨-,-,-,-,hes⟩ := hnew w entry r hw hrep
      obtain ⟨rfl,-⟩ : w' = w ∧ entry' = entry := by simpa [hes] using hw'
      rfl

end Undivided

end Steps

/-- In a disciplined run a root that gets a successor had none before and has one ever after, and one
operation stores all of them: its history does not fork. While an operation holds a root, only the
operation itself can have replaced it. -/
theorem successors_once (lockExpiry : ℤ) {s₀ s : State} {tr : List Event}
    (hinit : (machine lockExpiry).init s₀)
    (hrun : Exec (machine lockExpiry) (disciplined lockExpiry) s₀ tr s) (rootId : ℕ) :
    (∀ w entry, .stored w entry ∈ tr → entry.Replaces rootId →
      ¬ Replaced s₀.locks.table rootId ∧ Replaced s.locks.table rootId ∧
      ∃ op, ∀ w' entry', .stored w' entry' ∈ tr → entry'.Replaces rootId →
        operation s w' = some op) ∧
    ∀ op, Holds lockExpiry s.locks op (serializeUint64 rootId false false) →
      Replaced s.locks.table rootId →
        ∃ w entry, .stored w entry ∈ tr ∧ entry.Replaces rootId ∧ operation s w = some op := by
  have h := hrun.induct (P := Undivided lockExpiry s₀) (Undivided.of_init hinit)
    fun _ _ _ _ _ _ hi hok hs => hi.of_step hok hs
  refine ⟨fun w entry hw hrep => ?_,fun op hholds hreplaced => ?_⟩
  · obtain ⟨op,hop,hclosed⟩ := h.after w entry rootId hw hrep
    refine ⟨h.fresh w entry rootId hw hrep,hclosed.replaced,op,fun w' entry' hw' hrep' => ?_⟩
    exact (h.once w' w entry' entry rootId hw' hw hrep' hrep).trans hop
  · rcases h.cause rootId hreplaced with hbefore | ⟨w,entry,hw,hrep⟩
    · cases (h.before rootId hbefore).holders op hholds
    · obtain ⟨op',hop',hclosed⟩ := h.after w entry rootId hw hrep
      obtain rfl : op = op' := hclosed.holders op hholds
      exact ⟨w,entry,hw,hrep,hop'⟩

/-- Nothing is unlocked, and rows are those of roots that are named and held. -/
def keepsRoots (lockExpiry : ℤ) (s : State) (a : Action) : Prop :=
  guarded lockExpiry s a ∧ match a with
    | .lock (.call _ c) => c.temporalOnRoot = true ∧ c.role ≠ .release
    | .store w n => ∀ x ∈ s.writes w, ∀ entry ∈ x.phase.remaining[n]?,
      entry.rowKey ∈ x.rootIds.map (serializeUint64 · false false) ∧
      ∀ t ∈ s.locks.hold x.operationId entry.rowKey, s.locks.now ≤ t + lockExpiry
    | _ => True

instance (lockExpiry : ℤ) (s : State) (a : Action) : Decidable (keepsRoots lockExpiry s a) :=
  match a with
  | .lock (.call _ c) => inferInstanceAs (Decidable (guarded lockExpiry s _ ∧
      c.temporalOnRoot = true ∧ c.role ≠ .release))
  | .lock (.tick _) => inferInstanceAs (Decidable (guarded lockExpiry s _ ∧ True))
  | .write .. => inferInstanceAs (Decidable (guarded lockExpiry s _ ∧ True))
  | .renew .. => inferInstanceAs (Decidable (guarded lockExpiry s _ ∧ True))
  | .proceed _ => inferInstanceAs (Decidable (guarded lockExpiry s _ ∧ True))
  | .store w n => inferInstanceAs (Decidable (guarded lockExpiry s _ ∧
      ∀ x ∈ s.writes w, ∀ entry ∈ x.phase.remaining[n]?, _ ∧ ∀ t ∈ s.locks.hold _ _, _))

theorem disciplined_of_keepsRoots {lockExpiry : ℤ} {s : State} {a : Action}
    (h : keepsRoots lockExpiry s a) : disciplined lockExpiry s a := by
  refine ⟨h.1,?_⟩
  cases a with
  | lock a =>
    cases a with
    | tick d => trivial
    | call i c => exact ⟨fun _ => h.2.1,fun hrole => absurd hrole h.2.2⟩
  | write | renew | proceed => trivial
  | store w n =>
    intro x hx e he r hrep
    obtain ⟨hmem,htime⟩ := h.2 x hx e he
    obtain ⟨r',hr',hkey⟩ := List.mem_map.mp hmem
    obtain rfl : r' = r := uint64String_injective (hkey.trans hrep.1)
    exact ⟨hr',hrep.1 ▸ htime⟩

/-- The second operation comes for the root that the first one has just replaced. -/
theorem successors_once_two : ∃ tr s, .stored 0 entry ∈ tr ∧
    Exec (machine threeMinutes) (disciplined threeMinutes) start tr s ∧
    Replaced s.locks.table 7 ∧
    ∀ w' entry', .stored w' entry' ∈ tr → entry'.Replaces 7 → operation s w' = some 1 := by
  obtain ⟨tr,s,hrun,hstored,hop⟩ := exists_exec (machine threeMinutes) (keepsRoots threeMinutes)
    (s := start) (P := fun tr s => .stored 0 entry ∈ tr ∧ operation s 0 = some 1)
    [.lock (.call (rootCaller 1 7) (.lockRoot 7)),.lock (.tick 1000),
      .write 0 [entry] (some [7]) (some 1),.renew 0 0 .none,.proceed 0,.store 0 0,
      .lock (.call (rootCaller 2 7) (.lockRoot 7)),.write 1 [entry] (some [7]) (some 2),
      .renew 1 0 .none] (by decide +kernel)
  have hrun' := hrun.weaken fun _ _ => disciplined_of_keepsRoots
  have hrep : entry.Replaces 7 := ⟨rfl,_,List.mem_cons_self,rfl⟩
  obtain ⟨-,hreplaced,op,hall⟩ := (successors_once threeMinutes (start_init _) hrun' 7).1 0 entry
    hstored hrep
  obtain rfl : op = 1 := Option.some.inj ((hall 0 entry hstored hrep).symm.trans hop)
  exact ⟨tr,s,hstored,hrun',hreplaced,hall⟩

/-- Renewals alone do not keep the history from forking: a write may pause before it stores its rows
until another operation has taken over the root and replaced it. -/
theorem successors_fork : ¬ ∀ s₀ tr s w w', (machine threeMinutes).init s₀ →
    Exec (machine threeMinutes) (guarded threeMinutes) s₀ tr s → .stored w entry ∈ tr →
    .stored w' entry ∈ tr → operation s w = operation s w' := by
  intro h
  obtain ⟨tr,s,hrun,hw,hw',hne⟩ := exists_exec (machine threeMinutes) (guarded threeMinutes)
    (s := start) (P := fun tr s => .stored 0 entry ∈ tr ∧ .stored 1 entry ∈ tr ∧
      operation s 0 ≠ operation s 1)
    [.lock (.call (rootCaller 1 7) (.lockRoot 7)),.write 0 [entry] (some [7]) (some 1),
      .renew 0 0 .none,.proceed 0,.lock (.tick 181000000),
      .lock (.call (rootCaller 2 7) (.lockRoot 7)),.write 1 [entry] (some [7]) (some 2),
      .renew 1 0 .none,.proceed 1,.store 1 0,.store 0 0] (by decide +kernel)
  exact hne (h _ _ _ 0 1 (start_init _) hrun hw hw')

end GuardedWrite
end BigTable
end KvdbClient
