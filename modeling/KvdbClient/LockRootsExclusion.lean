import KvdbClient.LockRoots

/-! `lock_roots` and `lock_roots_indefinitely` are all-or-nothing, and calls of the same kind
exclude each other. -/
namespace KvdbClient
namespace BigTable
namespace LockRoots

open Lease Transition

/-- The entry of `Locked` that a request of `op` for a kind on a row is about. -/
def Target (op : ℕ) (kind : LockKind) (k : Bytes) (op' : ℕ) (kind' : LockKind) (k' : Bytes) : Prop :=
  op' = op ∧ kind' = kind ∧ k' = k

section Requests

variable {lockExpiry now : ℤ} {t : Table} {k : Bytes}

theorem exclusion_update (h : Exclusion lockExpiry now t) {r : Row}
    (ht : Exclusive (timeCutoff now lockExpiry) (lockGrants r))
    (hi : SoleOwner (indefiniteGrants r)) :
    Exclusion lockExpiry now (Function.update t k r) where
  temporal k' := by
    by_cases hk : k' = k
    · subst hk
      simpa only [Function.update_self] using ht
    · simpa only [Function.update_of_ne hk] using h.temporal k'
  indefinite k' := by
    by_cases hk : k' = k
    · subst hk
      simpa only [Function.update_self] using hi
    · simpa only [Function.update_of_ne hk] using h.indefinite k'

theorem locked_update_of_ne {r : Row} {kind : LockKind} {op : ℕ} {k' : Bytes} (hk : k' ≠ k) :
    Locked lockExpiry now (Function.update t k r) kind op k' ↔
      Locked lockExpiry now t kind op k' := by
  cases kind <;> simp only [Locked,Function.update_of_ne hk]

/-- Only the row of a request changes, and there only the entries that its own column gives. -/
theorem locked_update_of_grants {r : Row} {kind kind' : LockKind} {op op' : ℕ} {k' : Bytes}
    (hother : kind' ≠ kind → (Locked lockExpiry now (fun _ => r) kind' op' k ↔
      Locked lockExpiry now t kind' op' k))
    (hsame : op' ≠ op → (Locked lockExpiry now (fun _ => r) kind op' k ↔
      Locked lockExpiry now t kind op' k))
    (hne : ¬ Target op kind k op' kind' k') :
    Locked lockExpiry now (Function.update t k r) kind' op' k' ↔
      Locked lockExpiry now t kind' op' k' := by
  by_cases hk : k' = k
  · subst hk
    have hrow : Locked lockExpiry now (Function.update t k' r) kind' op' k' ↔
        Locked lockExpiry now (fun _ => r) kind' op' k' := by
      cases kind' <;> simp only [Locked,Function.update_self]
    rw [hrow]
    by_cases hkind : kind' = kind
    · subst hkind
      exact hsame fun ho => hne ⟨ho,rfl,rfl⟩
    · exact hother hkind
  · exact locked_update_of_ne hk

theorem locked_temporal_of_eq {r : Row} (h : lockGrants r = lockGrants (t k)) {op : ℕ} :
    Locked lockExpiry now (fun _ => r) .temporal op k ↔ Locked lockExpiry now t .temporal op k := by
  simp only [Locked,h]

theorem locked_indefinite_of_eq {r : Row} (h : indefiniteGrants r = indefiniteGrants (t k))
    {op : ℕ} :
    Locked lockExpiry now (fun _ => r) .indefinite op k ↔
      Locked lockExpiry now t .indefinite op k := by
  simp only [Locked,h]

structure Granted (lockExpiry now : ℤ) (op : ℕ) (kind : LockKind) (k : Bytes) (t u : Table) :
    Prop where
  exclusion : Exclusion lockExpiry now u
  locked : Locked lockExpiry now u kind op k
  others : ∀ op' kind' k', ¬ Target op kind k op' kind' k' →
    (Locked lockExpiry now u kind' op' k' ↔ Locked lockExpiry now t kind' op' k')
  free : kind = .temporal → ∀ op', ¬ Locked lockExpiry now t .indefinite op' k

theorem granted_temporal (he : 0 ≤ lockExpiry) (h : Exclusion lockExpiry now t) (op : ℕ)
    (hidle : ∀ g ∈ lockGrants (t k), ¬ Live (timeCutoff now lockExpiry) g)
    (hnone : indefiniteGrants (t k) = ∅) :
    Granted lockExpiry now op .temporal k t
      (Function.update t k ((t k).setCell (lockCell Concurrency.lock op now))) := by
  have hun : Unopposed (timeCutoff now lockExpiry) (uint64String op)
      (insert (grantOf op now) (lockGrants (t k))) :=
    (unopposed_of_idle hidle (grantOf op now).owner).insert
  have hunopposed := hun.subset (Row.grants_setCell_subset (t k) (lockCell Concurrency.lock op now))
  have hindef : indefiniteGrants ((t k).setCell (lockCell Concurrency.lock op now)) =
      indefiniteGrants (t k) := Row.grants_setCell_of_ne lock_ne_indefiniteLock
  refine ⟨exclusion_update h hunopposed.exclusive (hindef ▸ h.indefinite k),?_,
    fun op' kind' k' => locked_update_of_grants (fun hkind => ?_) (fun hop => ?_),fun _ op' => ?_⟩
  · refine ⟨grantOf op now,?_,rfl,timeCutoff_le_getValidTimestamp (by omega)⟩
    simp only [Function.update_self]
    exact Row.setCell_grant _ _
  · cases kind' with
    | temporal => exact absurd rfl hkind
    | indefinite => exact locked_indefinite_of_eq hindef
  · constructor
    · rintro ⟨g,hg,hown,hl⟩
      exact absurd (uint64String_injective (hown.symm.trans (hunopposed g hg hl))) hop
    · rintro ⟨g,hg,-,hl⟩
      exact absurd hl (hidle g hg)
  · rintro ⟨g,hg,-⟩
    simp [hnone] at hg

theorem granted_indefinite (h : Exclusion lockExpiry now t) (op : ℕ)
    (hnone : indefiniteGrants (t k) = ∅) :
    Granted lockExpiry now op .indefinite k t
      (Function.update t k ((t k).setCell (lockCell Concurrency.indefiniteLock op now))) := by
  have hgrants : indefiniteGrants ((t k).setCell (lockCell Concurrency.indefiniteLock op now)) =
      {grantOf op now} := Row.grants_setCell_of_empty hnone
  have htemp : lockGrants ((t k).setCell (lockCell Concurrency.indefiniteLock op now)) =
      lockGrants (t k) := Row.grants_setCell_of_ne lock_ne_indefiniteLock.symm
  refine ⟨exclusion_update h (htemp ▸ h.temporal k) ?_,?_,
    fun op' kind' k' => locked_update_of_grants (fun hkind => ?_) (fun hop => ?_),by simp⟩
  · rw [hgrants]
    exact soleOwner_singleton _
  · refine ⟨grantOf op now,?_,rfl⟩
    simp only [Function.update_self]
    exact Row.setCell_grant _ _
  · cases kind' with
    | temporal => exact locked_temporal_of_eq htemp
    | indefinite => exact absurd rfl hkind
  · constructor
    · rintro ⟨g,hg,hown⟩
      rw [hgrants] at hg
      obtain rfl := Set.mem_singleton_iff.mp hg
      exact absurd (uint64String_injective hown).symm hop
    · rintro ⟨g,hg,-⟩
      simp [hnone] at hg

/-- A lock request that answers `False` changes nothing, one that answers `True` is granted. -/
theorem exec_lock (he : 0 ≤ lockExpiry) (h : Exclusion lockExpiry now t) (op : ℕ) (kind : LockKind)
    (r : ℕ) :
    exec lockExpiry now t op (kind.lock r) = (false,t) ∨
    (exec lockExpiry now t op (kind.lock r)).1 = true ∧
      Granted lockExpiry now op kind (rootKey r) t (exec lockExpiry now t op (kind.lock r)).2 := by
  cases kind with
  | temporal =>
    rcases exec_acquire (c := .lockRoot r) lockExpiry now t op rfl with hx | ⟨hx,hidle,hguard⟩
    · exact Or.inl hx
    · refine Or.inr ⟨congrArg Prod.fst hx,?_⟩
      simp only [LockKind.lock,hx]
      exact granted_temporal he h op hidle (hguard rfl)
  | indefinite =>
    rcases exec_acquireIndefinite (c := .lockRootIndefinitely r) lockExpiry now t op rfl with
      hx | ⟨hx,hnone⟩
    · exact Or.inl hx
    · refine Or.inr ⟨congrArg Prod.fst hx,?_⟩
      simp only [LockKind.lock,hx]
      exact granted_indefinite h op hnone

/-- What an unlock request of an operation does, whatever it answers. -/
structure Released (lockExpiry now : ℤ) (op : ℕ) (kind : LockKind) (k : Bytes) (t u : Table) :
    Prop where
  exclusion : Exclusion lockExpiry now u
  unlocked : ¬ Locked lockExpiry now u kind op k
  others : ∀ op' kind' k', ¬ Target op kind k op' kind' k' →
    (Locked lockExpiry now u kind' op' k' ↔ Locked lockExpiry now t kind' op' k')

theorem released_temporal (h : Exclusion lockExpiry now t) (op : ℕ)
    (hown : ∃ g ∈ lockGrants (t k), g.owner = uint64String op ∧ Live (timeCutoff now lockExpiry) g) :
    Released lockExpiry now op .temporal k t
      (Function.update t k ((t k).deleteColumn Concurrency.lock.toColumn)) := by
  obtain ⟨g,hg,hgo,hl⟩ := hown
  have hindef : indefiniteGrants ((t k).deleteColumn Concurrency.lock.toColumn) =
      indefiniteGrants (t k) := Row.grants_deleteColumn_of_ne lock_ne_indefiniteLock
  have hempty : lockGrants ((t k).deleteColumn Concurrency.lock.toColumn) = ∅ :=
    Row.grants_deleteColumn_self _ _
  refine ⟨exclusion_update h (fun a ha => by simp [hempty] at ha) (hindef ▸ h.indefinite k),?_,
    fun op' kind' k' => locked_update_of_grants (fun hkind => ?_) (fun hop => ?_)⟩
  · rintro ⟨a,ha,-⟩
    simp [Function.update_self,hempty] at ha
  · cases kind' with
    | temporal => exact absurd rfl hkind
    | indefinite => exact locked_indefinite_of_eq hindef
  · constructor
    · rintro ⟨a,ha,-⟩
      simp [hempty] at ha
    · rintro ⟨a,ha,hao,hal⟩
      have howner := h.temporal k a ha g hg hal hl
      rw [hao,hgo] at howner
      exact absurd (uint64String_injective howner) hop

theorem released_indefinite (h : Exclusion lockExpiry now t) (op : ℕ)
    (hown : ∃ g ∈ indefiniteGrants (t k), g.owner = uint64String op) :
    Released lockExpiry now op .indefinite k t
      (Function.update t k ((t k).deleteColumn Concurrency.indefiniteLock.toColumn)) := by
  obtain ⟨g,hg,hgo⟩ := hown
  have htemp : lockGrants ((t k).deleteColumn Concurrency.indefiniteLock.toColumn) =
      lockGrants (t k) := Row.grants_deleteColumn_of_ne lock_ne_indefiniteLock.symm
  have hempty : indefiniteGrants ((t k).deleteColumn Concurrency.indefiniteLock.toColumn) = ∅ :=
    Row.grants_deleteColumn_self _ _
  refine ⟨exclusion_update h (htemp ▸ h.temporal k) (fun a ha => by simp [hempty] at ha),?_,
    fun op' kind' k' => locked_update_of_grants (fun hkind => ?_) (fun hop => ?_)⟩
  · rintro ⟨a,ha,-⟩
    simp [Function.update_self,hempty] at ha
  · cases kind' with
    | temporal => exact locked_temporal_of_eq htemp
    | indefinite => exact absurd rfl hkind
  · constructor
    · rintro ⟨a,ha,-⟩
      simp [hempty] at ha
    · rintro ⟨a,ha,hao⟩
      have howner := h.indefinite k a ha g hg
      rw [hao,hgo] at howner
      exact absurd (uint64String_injective howner) hop

theorem exec_unlock (h : Exclusion lockExpiry now t) (op : ℕ) (kind : LockKind) (r : ℕ) :
    Released lockExpiry now op kind (rootKey r) t
      (exec lockExpiry now t op (kind.unlock r)).2 := by
  cases kind with
  | temporal =>
    rcases exec_release (c := .unlockRoot r) lockExpiry now t op rfl with ⟨hx,hno⟩ | ⟨hx,hown⟩
    · simp only [LockKind.unlock,hx]
      exact ⟨h,hno,fun _ _ _ _ => Iff.rfl⟩
    · simp only [LockKind.unlock,hx]
      exact released_temporal h op hown
  | indefinite =>
    rcases exec_releaseIndefinite (c := .unlockIndefinitelyLockedRoot r) lockExpiry now t op rfl with
      ⟨hx,hno⟩ | ⟨hx,hown⟩
    · simp only [LockKind.unlock,hx]
      exact ⟨h,hno,fun _ _ _ _ => Iff.rfl⟩
    · simp only [LockKind.unlock,hx]
      exact released_indefinite h op hown

end Requests

section Calls

theorem rootsOfTry_sorted {f : ℕ → Option (List ℕ)} {l rs : List ℕ} {n : ℕ}
    (h : rootsOfTry f l n = some rs) (hn : 0 < n) : rs.Pairwise (· < ·) := by
  obtain ⟨m,rfl⟩ := Nat.exists_eq_succ_of_ne_zero hn.ne'
  obtain ⟨prev,-,hnext⟩ := Option.bind_eq_some_iff.mp h
  obtain ⟨new,-,rfl⟩ := Option.map_eq_some_iff.mp hnext
  exact npUnique_sorted new

/-- What a call holds at each point of its code, `held` being the rows its operation has locked. -/
def PhaseSound (x : Call) (held : Bytes → Prop) : Prop :=
  match x.phase with
  | .locking => (x.pending ++ x.results.map (·.1)).Perm x.rootIds ∧
      (∀ k, held k → ∃ p ∈ x.results, k = rootKey p.1) ∧
      ∀ p ∈ x.results, p.2 = true → held (rootKey p.1)
  | .unlocking => ∀ k, held k → ∃ r ∈ x.pending, k = rootKey r
  | .returned true => ∀ k, held k ↔ ∃ r ∈ x.rootIds, k = rootKey r
  | .returned false | .raised => ∀ k, ¬ held k
  | .releasing => True

/-- Between calls and tries the roots are those of the last try. -/
structure TrySound (x : Call) : Prop where
  roots : rootsOfTry x.futureRootIds x.requested x.tries = some x.rootIds
  bounded : x.tries ≤ x.maxTries
  once : x.kind = .indefinite → x.maxTries = 1

structure Sound (x : Call) (held : Bytes → Prop) : Prop extends TrySound x where
  begun : x.phase = .returned false ∨ x.phase = .raised ∨ 0 < x.tries
  phase : PhaseSound x held

variable {x : Call} {held held' : Bytes → Prop}

theorem Sound.congr (h : Sound x held) (hh : ∀ k, held' k ↔ held k) : Sound x held' := by
  have : held' = held := funext fun k => propext (hh k)
  exact this ▸ h

theorem TrySound.beginTry (h : TrySound x) (hlt : x.tries < x.maxTries) (hno : ∀ k, ¬ held k) :
    Sound (beginTry x) held := by
  unfold LockRoots.beginTry
  split
  · exact ⟨⟨h.roots,h.bounded,h.once⟩,Or.inr (Or.inl rfl),hno⟩
  · rename_i roots hroots
    refine ⟨⟨by simp only [rootsOfTry,h.roots,Option.bind_some,hroots],hlt,h.once⟩,
      Or.inr (Or.inr x.tries.succ_pos),?_⟩
    exact ⟨by simp,fun k hk => absurd hk (hno k),by simp⟩

theorem lockRoots_sound (rootIds : List ℕ) (future : ℕ → Option (List ℕ)) (maxTries : ℕ)
    (hno : ∀ k, ¬ held k) : Sound (lockRoots rootIds future maxTries) held := by
  simp only [lockRoots]
  split
  · exact TrySound.beginTry ⟨rfl,Nat.zero_le _,by simp⟩ ‹_› hno
  · exact ⟨⟨rfl,Nat.zero_le _,by simp⟩,Or.inl rfl,hno⟩

theorem lockRootsIndefinitely_sound (rootIds : List ℕ) (future : ℕ → Option (List ℕ))
    (hno : ∀ k, ¬ held k) : Sound (lockRootsIndefinitely rootIds future) held :=
  TrySound.beginTry ⟨rfl,Nat.zero_le _,fun _ => rfl⟩ Nat.one_pos hno

theorem Sound.lock (h : Sound x held) (hp : x.phase = .locking) {n root : ℕ} {result : Bool}
    (hroot : x.pending[n]? = some root)
    (hheld : ∀ k, held' k → held k ∨ k = rootKey root) (hkeep : ∀ k, held k → held' k)
    (hgot : result = true → held' (rootKey root)) :
    Sound { x with pending := x.pending.eraseIdx n, results := x.results ++ [(root,result)] }
      held' := by
  have hphase := h.phase
  simp only [PhaseSound,hp] at hphase
  obtain ⟨hperm,hin,htrue⟩ := hphase
  refine ⟨⟨h.roots,h.bounded,h.once⟩,h.begun,?_⟩
  simp only [PhaseSound,hp]
  refine ⟨?_,fun k hk => ?_,fun p hp' hr => ?_⟩
  · obtain ⟨hn,rfl⟩ := List.getElem?_eq_some_iff.mp hroot
    refine List.Perm.trans ?_ hperm
    rw [List.map_append,← List.append_assoc]
    have hlast : ∀ l : List ℕ, (l ++ [x.pending[n]]).Perm ([x.pending[n]] ++ l) := fun l =>
      List.perm_append_comm
    refine (hlast _).trans ?_
    rw [← List.append_assoc]
    exact (List.getElem_cons_eraseIdx_perm hn).append_right _
  · rcases hheld k hk with hk | rfl
    · obtain ⟨p,hp',hkp⟩ := hin k hk
      exact ⟨p,List.mem_append_left _ hp',hkp⟩
    · exact ⟨(root,result),by simp,rfl⟩
  · rcases List.mem_append.mp hp' with hp' | hp'
    · exact hkeep _ (htrue p hp' hr)
    · obtain rfl := List.mem_singleton.mp hp'
      exact hgot hr

theorem Sound.judge (h : Sound x held) (hp : x.phase = .locking) (hnil : x.pending = []) :
    Sound (judge x) held := by
  have hphase := h.phase
  simp only [PhaseSound,hp,hnil,List.nil_append] at hphase
  obtain ⟨hperm,hin,htrue⟩ := hphase
  have hbegun : 0 < x.tries := by simpa [hp] using h.begun
  have hroots : ∀ p ∈ x.results, p.1 ∈ x.rootIds := fun p hp' =>
    hperm.subset (List.mem_map_of_mem hp')
  unfold LockRoots.judge
  split
  · rename_i hall
    refine ⟨⟨h.roots,h.bounded,h.once⟩,Or.inr (Or.inr hbegun),fun k => ⟨fun hk => ?_,?_⟩⟩
    · obtain ⟨p,hp',rfl⟩ := hin k hk
      exact ⟨p.1,hroots p hp',rfl⟩
    · rintro ⟨r,hr,rfl⟩
      obtain ⟨p,hp',rfl⟩ := List.mem_map.mp (hperm.symm.subset hr)
      exact htrue p hp' (List.all_eq_true.mp hall p hp')
  · refine ⟨⟨h.roots,h.bounded,h.once⟩,Or.inr (Or.inr hbegun),fun k hk => ?_⟩
    obtain ⟨p,hp',rfl⟩ := hin k hk
    exact ⟨p.1,hroots p hp',rfl⟩

theorem Sound.unlock (h : Sound x held) (hp : x.phase = .unlocking) {n root : ℕ}
    (hroot : x.pending[n]? = some root)
    (hheld : ∀ k, held' k → held k ∧ k ≠ rootKey root) :
    Sound { x with pending := x.pending.eraseIdx n } held' := by
  have hphase := h.phase
  simp only [PhaseSound,hp] at hphase
  refine ⟨⟨h.roots,h.bounded,h.once⟩,h.begun,?_⟩
  simp only [PhaseSound,hp]
  intro k hk
  obtain ⟨hold,hne⟩ := hheld k hk
  obtain ⟨r,hr,rfl⟩ := hphase k hold
  obtain ⟨hn,hget⟩ := List.getElem?_eq_some_iff.mp hroot
  have hmem := (List.getElem_cons_eraseIdx_perm hn).symm.subset hr
  rcases List.mem_cons.mp hmem with rfl | hmem
  · exact absurd (congrArg rootKey hget) hne
  · exact ⟨r,hmem,rfl⟩

theorem Sound.retry (h : Sound x held) (hp : x.phase = .unlocking) (hnil : x.pending = []) :
    Sound (retry x) held := by
  have hphase := h.phase
  simp only [PhaseSound,hp,hnil] at hphase
  have hno : ∀ k, ¬ held k := fun k hk => by simpa using hphase k hk
  unfold LockRoots.retry
  split
  · exact h.toTrySound.beginTry ‹_› hno
  · exact ⟨⟨h.roots,h.bounded,h.once⟩,Or.inl rfl,hno⟩

theorem Sound.release (h : Sound x held) (hp : x.phase = .returned true ∨ x.phase = .releasing)
    (held' : Bytes → Prop) : Sound { x with phase := .releasing } held' := by
  have hbegun : 0 < x.tries := by
    rcases hp with hp | hp <;> simpa [hp] using h.begun
  exact ⟨⟨h.roots,h.bounded,h.once⟩,Or.inr (Or.inr hbegun),trivial⟩

end Calls

structure Invariant (lockExpiry : ℤ) (callers : ℕ → Bool) (s : State) : Prop where
  exclusion : Exclusion lockExpiry s.now s.table
  idle : ∀ op, callers op = true → s.calls op = none → ∀ kind k, ¬ s.Locked lockExpiry kind op k
  sound : ∀ op x, s.calls op = some x → Sound x (s.Locked lockExpiry x.kind op)

/-- What a step of an operation does to the locks of the others, and of its own kind over an
indefinite lock. -/
structure StepSound (lockExpiry : ℤ) (op : ℕ) (s u : State) : Prop where
  others : ∀ op', op' ≠ op → ∀ kind k, u.Locked lockExpiry kind op' k ↔ s.Locked lockExpiry kind op' k
  free : ∀ k, u.Locked lockExpiry .temporal op k → ¬ s.Locked lockExpiry .temporal op k →
    ∀ op', ¬ s.Locked lockExpiry .indefinite op' k

namespace Invariant

variable {lockExpiry : ℤ} {callers : ℕ → Bool} {s : State}

theorem of_init (h : (machine lockExpiry callers).init s) : Invariant lockExpiry callers s where
  exclusion := h.1
  idle op hop _ := h.2.1 op hop
  sound op x hx := by simp [h.2.2] at hx

theorem set (h : Invariant lockExpiry callers s) {t : Table} {op : ℕ} {x : Call}
    (ht : Exclusion lockExpiry s.now t)
    (hothers : ∀ op', op' ≠ op → ∀ kind k,
      Locked lockExpiry s.now t kind op' k ↔ s.Locked lockExpiry kind op' k)
    (hx : Sound x (Locked lockExpiry s.now t x.kind op)) :
    Invariant lockExpiry callers ({ s with table := t }.set op x) where
  exclusion := ht
  idle op' hop' hnone kind k hl := by
    have hne : op' ≠ op := by
      rintro rfl
      simp [State.set] at hnone
    simp only [State.set,Function.update_of_ne hne] at hnone
    exact h.idle op' hop' hnone kind k ((hothers op' hne kind k).mp hl)
  sound op' x' hx' := by
    by_cases hne : op' = op
    · subst hne
      simp only [State.set,Function.update_self,Option.some.injEq] at hx'
      exact hx' ▸ hx
    · simp only [State.set,Function.update_of_ne hne] at hx'
      exact (h.sound op' x' hx').congr fun k => hothers op' hne x'.kind k

theorem keep (h : Invariant lockExpiry callers s) (op : ℕ) {x : Call}
    (hx : Sound x (s.Locked lockExpiry x.kind op)) :
    Invariant lockExpiry callers (s.set op x) ∧ StepSound lockExpiry op s (s.set op x) :=
  ⟨h.set h.exclusion (fun _ _ _ _ => Iff.rfl) hx,
    ⟨fun _ _ _ _ => Iff.rfl,fun _ hu hs => absurd hu hs⟩⟩

/-- An operation that holds nothing makes its call. -/
theorem call (h : Invariant lockExpiry callers s) {op : ℕ} (hcaller : callers op = true)
    (hfirst : (s.calls op).isNone = true) {x : Call}
    (hx : ∀ held : Bytes → Prop, (∀ k, ¬ held k) → Sound x held) :
    Invariant lockExpiry callers (s.set op x) ∧ StepSound lockExpiry op s (s.set op x) :=
  h.keep op (hx _ (h.idle op hcaller (Option.isNone_iff_eq_none.mp hfirst) x.kind))

theorem tick (h : Invariant lockExpiry callers s) {d : ℕ} (hok : noneExpires lockExpiry s (.tick d)) :
    Invariant lockExpiry callers { s with now := s.now + d } ∧
      ∀ op kind k, State.Locked lockExpiry { s with now := s.now + d } kind op k ↔
        s.Locked lockExpiry kind op k := by
  have hcut : timeCutoff s.now lockExpiry ≤ timeCutoff (s.now + d) lockExpiry :=
    timeCutoff_mono lockExpiry (by simp)
  have hlocked : ∀ op kind k, State.Locked lockExpiry { s with now := s.now + d } kind op k ↔
      s.Locked lockExpiry kind op k := by
    intro op kind k
    cases kind with
    | indefinite => exact Iff.rfl
    | temporal =>
      constructor
      · rintro ⟨g,hg,hown,hl⟩
        exact ⟨g,hg,hown,hl.antitone hcut⟩
      · rintro ⟨g,⟨x,hx,hcol,rfl⟩,hown,hl⟩
        exact ⟨_,⟨x,hx,hcol,rfl⟩,hown,hok k x (Row.mem_lockCells.mpr ⟨hx,hcol⟩) hl⟩
  refine ⟨⟨⟨fun k => (h.exclusion.temporal k).mono hcut,h.exclusion.indefinite⟩,?_,?_⟩,hlocked⟩
  · intro op hop hnone kind k hl
    exact h.idle op hop hnone kind k ((hlocked op kind k).mp hl)
  · intro op x hx
    exact (h.sound op x hx).congr fun k => hlocked op x.kind k

/-- A lock request was granted, or changed nothing. -/
theorem lockRequest_spec (he : 0 ≤ lockExpiry) (h : Invariant lockExpiry callers s) (op : ℕ)
    (kind : LockKind) (r : ℕ) (fault : Fault) :
    ((lockRequest lockExpiry s op kind r fault).1 = true →
      Locked lockExpiry s.now (lockRequest lockExpiry s op kind r fault).2 kind op (rootKey r)) ∧
    ((lockRequest lockExpiry s op kind r fault).2 = s.table ∨
      Granted lockExpiry s.now op kind (rootKey r) s.table
        (lockRequest lockExpiry s op kind r fault).2) := by
  rcases exec_lock he h.exclusion op kind r with hx | ⟨hx,hg⟩
  · cases fault <;> simp [lockRequest,hx]
  · cases fault with
    | none => exact ⟨fun _ => hg.locked,Or.inr hg⟩
    | before => exact ⟨by simp [lockRequest],Or.inl rfl⟩
    | after => exact ⟨by simp [lockRequest],Or.inr hg⟩

theorem lock (he : 0 ≤ lockExpiry) (h : Invariant lockExpiry callers s) {op n root : ℕ} {x : Call}
    (hx : s.calls op = some x) (hp : x.phase = .locking) (hroot : x.pending[n]? = some root)
    (fault : Fault) :
    Invariant lockExpiry callers (LockRoots.lock lockExpiry s op x n root fault) ∧
      StepSound lockExpiry op s (LockRoots.lock lockExpiry s op x n root fault) := by
  obtain ⟨hgot,hsame | hg⟩ := h.lockRequest_spec he op x.kind root fault
  · have hsound := (h.sound op x hx).lock hp hroot
      (fun k (hk : s.Locked lockExpiry x.kind op k) => Or.inl hk) (fun k hk => hk) (hsame ▸ hgot)
    simp only [LockRoots.lock,hsame]
    exact h.keep op hsound
  · have hother : ∀ op', op' ≠ op → ∀ kind k,
        Locked lockExpiry s.now (lockRequest lockExpiry s op x.kind root fault).2 kind op' k ↔
          s.Locked lockExpiry kind op' k := fun op' hne kind k =>
      hg.others op' kind k fun htarget => hne htarget.1
    refine ⟨h.set hg.exclusion hother ((h.sound op x hx).lock hp hroot (fun k hk => ?_)
      (fun k hk => ?_) hgot),hother,fun k hu hs op' => ?_⟩
    · by_cases hk' : k = rootKey root
      · exact Or.inr hk'
      · exact Or.inl ((hg.others op x.kind k fun htarget => hk' htarget.2.2).mp hk)
    · by_cases hk' : k = rootKey root
      · exact hk' ▸ hg.locked
      · exact (hg.others op x.kind k fun htarget => hk' htarget.2.2).mpr hk
    · by_cases htarget : Target op x.kind (rootKey root) op .temporal k
      · exact htarget.2.2 ▸ hg.free htarget.2.1.symm op'
      · exact absurd ((hg.others op .temporal k htarget).mp hu) hs

theorem unlockWith (h : Invariant lockExpiry callers s) {op : ℕ} (root : ℕ) {x y : Call}
    (hy : ∀ held', (∀ k, held' k → s.Locked lockExpiry x.kind op k ∧ k ≠ rootKey root) →
      Sound y held') (hkind : y.kind = x.kind) :
    Invariant lockExpiry callers
        ({ s with table := (exec lockExpiry s.now s.table op (x.kind.unlock root)).2 }.set op y) ∧
      StepSound lockExpiry op s
        ({ s with table := (exec lockExpiry s.now s.table op (x.kind.unlock root)).2 }.set op y) := by
  have hr := exec_unlock h.exclusion op x.kind root
  have hother : ∀ op', op' ≠ op → ∀ kind k,
      Locked lockExpiry s.now (exec lockExpiry s.now s.table op (x.kind.unlock root)).2 kind op' k ↔
        s.Locked lockExpiry kind op' k := fun op' hne kind k =>
    hr.others op' kind k fun htarget => hne htarget.1
  refine ⟨h.set hr.exclusion hother (hy _ fun k hk => ?_),hother,fun k hu hs => absurd ?_ hs⟩
  · rw [hkind] at hk
    by_cases hk' : k = rootKey root
    · exact absurd (hk' ▸ hk) hr.unlocked
    · exact ⟨(hr.others op x.kind k fun htarget => hk' htarget.2.2).mp hk,hk'⟩
  · by_cases htarget : Target op x.kind (rootKey root) op .temporal k
    · obtain ⟨-,hk,rfl⟩ := htarget
      exact absurd (hk ▸ hu) hr.unlocked
    · exact (hr.others op .temporal k htarget).mp hu

theorem of_step (he : 0 ≤ lockExpiry) (h : Invariant lockExpiry callers s) {a : Action}
    {es : List Unit} {u : State} (hok : noneExpires lockExpiry s a)
    (hs : step lockExpiry callers s a = some (es,u)) :
    Invariant lockExpiry callers u ∧
      (a.operation = none ∧ (∀ op kind k, u.Locked lockExpiry kind op k ↔
          s.Locked lockExpiry kind op k) ∨
        ∃ op, a.operation = some op ∧ StepSound lockExpiry op s u) := by
  cases a with
  | tick d =>
    cases hs
    exact ⟨(h.tick hok).1,Or.inl ⟨rfl,(h.tick hok).2⟩⟩
  | lockRoots op rootIds future maxTries =>
    simp only [step] at hs
    split at hs
    · rename_i hop
      cases hs
      obtain ⟨hi,hst⟩ := h.call hop.1 hop.2 fun _ => lockRoots_sound rootIds future maxTries
      exact ⟨hi,Or.inr ⟨op,rfl,hst⟩⟩
    · exact absurd hs (by simp)
  | lockRootsIndefinitely op rootIds future =>
    simp only [step] at hs
    split at hs
    · rename_i hop
      cases hs
      obtain ⟨hi,hst⟩ := h.call hop.1 hop.2 fun _ => lockRootsIndefinitely_sound rootIds future
      exact ⟨hi,Or.inr ⟨op,rfl,hst⟩⟩
    · exact absurd hs (by simp)
  | lock op n fault =>
    obtain ⟨x,hx,hs⟩ := Option.bind_eq_some_iff.mp hs
    split at hs
    · rename_i hp
      obtain ⟨root,hroot,hsu⟩ := Option.map_eq_some_iff.mp hs
      cases hsu
      obtain ⟨hi,hst⟩ := h.lock he hx hp hroot fault
      exact ⟨hi,Or.inr ⟨op,rfl,hst⟩⟩
    · exact absurd hs (by simp)
  | judge op =>
    obtain ⟨x,hx,hs⟩ := Option.bind_eq_some_iff.mp hs
    split at hs
    · rename_i hp
      cases hs
      obtain ⟨hi,hst⟩ := h.keep op (by rw [kind_judge]; exact (h.sound op x hx).judge hp.1 hp.2)
      exact ⟨hi,Or.inr ⟨op,rfl,hst⟩⟩
    · exact absurd hs (by simp)
  | unlock op n =>
    obtain ⟨x,hx,hs⟩ := Option.bind_eq_some_iff.mp hs
    split at hs
    · rename_i hp
      obtain ⟨root,hroot,hsu⟩ := Option.map_eq_some_iff.mp hs
      cases hsu
      obtain ⟨hi,hst⟩ := h.unlockWith root (x := x)
        (y := { x with pending := x.pending.eraseIdx n })
        (fun _ hheld => (h.sound op x hx).unlock hp hroot hheld) rfl
      exact ⟨hi,Or.inr ⟨op,rfl,hst⟩⟩
    · exact absurd hs (by simp)
  | retry op =>
    obtain ⟨x,hx,hs⟩ := Option.bind_eq_some_iff.mp hs
    split at hs
    · rename_i hp
      cases hs
      obtain ⟨hi,hst⟩ := h.keep op (by rw [kind_retry]; exact (h.sound op x hx).retry hp.1 hp.2)
      exact ⟨hi,Or.inr ⟨op,rfl,hst⟩⟩
    · exact absurd hs (by simp)
  | release op n =>
    obtain ⟨x,hx,hs⟩ := Option.bind_eq_some_iff.mp hs
    split at hs
    · rename_i hp
      obtain ⟨root,-,hsu⟩ := Option.map_eq_some_iff.mp hs
      cases hsu
      obtain ⟨hi,hst⟩ := h.unlockWith root (x := x) (y := { x with phase := .releasing })
        (fun held' _ => (h.sound op x hx).release hp held') rfl
      exact ⟨hi,Or.inr ⟨op,rfl,hst⟩⟩
    · exact absurd hs (by simp)

theorem of_reachable (he : 0 ≤ lockExpiry)
    (h : Reachable (machine lockExpiry callers) (noneExpires lockExpiry) s) :
    Invariant lockExpiry callers s :=
  Reachable.invariant h (fun _ => of_init) fun _ _ _ _ hi hok hs => (hi.of_step he hok hs).1

theorem disjoint (h : Invariant lockExpiry callers s) {op op' : ℕ} {x x' : Call} (hne : op ≠ op')
    (hx : s.calls op = some x) (hx' : s.calls op' = some x') (hp : x.phase = .returned true)
    (hp' : x'.phase = .returned true) (hkind : x.kind = x'.kind) :
    x.rootIds.Disjoint x'.rootIds := by
  intro r hr hr'
  have hphase := (h.sound op x hx).phase
  have hphase' := (h.sound op' x' hx').phase
  simp only [PhaseSound,hp] at hphase
  simp only [PhaseSound,hp'] at hphase'
  have hl := (hphase (rootKey r)).mpr ⟨r,hr,rfl⟩
  have hl' := (hphase' (rootKey r)).mpr ⟨r,hr',rfl⟩
  rw [← hkind] at hl'
  cases hk : x.kind with
  | temporal =>
    rw [hk] at hl hl'
    obtain ⟨g,hg,hown,hlive⟩ := hl
    obtain ⟨g',hg',hown',hlive'⟩ := hl'
    have := h.exclusion.temporal _ g hg g' hg' hlive hlive'
    rw [hown,hown'] at this
    exact hne (uint64String_injective this)
  | indefinite =>
    rw [hk] at hl hl'
    obtain ⟨g,hg,hown⟩ := hl
    obtain ⟨g',hg',hown'⟩ := hl'
    have := h.exclusion.indefinite _ g hg g' hg'
    rw [hown,hown'] at this
    exact hne (uint64String_injective this)

end Invariant

/-- A call that returned `True` holds exactly its roots, calls of one kind that returned `True`
have disjoint roots, and a call that returned `False` holds nothing. No step changes the locks of
another operation, and a temporal lock is never taken over an indefinite one. -/
theorem lockRoots_exclusive (lockExpiry : ℤ) (he : 0 ≤ lockExpiry) (callers : ℕ → Bool) {s : State}
    (h : Reachable (machine lockExpiry callers) (noneExpires lockExpiry) s) :
    (∀ op x, s.calls op = some x → x.phase = .returned true →
      x.rootIds.Pairwise (· < ·) ∧ 0 < x.tries ∧
      rootsOfTry x.futureRootIds x.requested x.tries = some x.rootIds ∧
      ∀ k, s.Locked lockExpiry x.kind op k ↔ ∃ r ∈ x.rootIds, k = rootKey r) ∧
    (∀ op op' x x', op ≠ op' → s.calls op = some x → s.calls op' = some x' →
      x.phase = .returned true → x'.phase = .returned true → x.kind = x'.kind →
      x.rootIds.Disjoint x'.rootIds) ∧
    (∀ op x, s.calls op = some x → x.phase = .returned false →
      ∀ k, ¬ s.Locked lockExpiry x.kind op k) ∧
    ∀ a es u, noneExpires lockExpiry s a → step lockExpiry callers s a = some (es,u) →
      (∀ op, a.operation ≠ some op → ∀ kind k,
        u.Locked lockExpiry kind op k ↔ s.Locked lockExpiry kind op k) ∧
      ∀ op k, u.Locked lockExpiry .temporal op k → ¬ s.Locked lockExpiry .temporal op k →
        ∀ op', ¬ s.Locked lockExpiry .indefinite op' k := by
  have hi := Invariant.of_reachable he h
  refine ⟨fun op x hx hp => ?_,fun op op' x x' hne hx hx' hp hp' hk =>
    hi.disjoint hne hx hx' hp hp' hk,fun op x hx hp => ?_,fun a es u hok hs => ?_⟩
  · have hsound := hi.sound op x hx
    have hphase := hsound.phase
    have htries : 0 < x.tries := by simpa [hp] using hsound.begun
    simp only [PhaseSound,hp] at hphase
    exact ⟨rootsOfTry_sorted hsound.roots htries,htries,hsound.roots,hphase⟩
  · have hphase := (hi.sound op x hx).phase
    simpa only [PhaseSound,hp] using hphase
  · rcases (hi.of_step he hok hs).2 with ⟨-,hall⟩ | ⟨mover,hmover,hst⟩
    · exact ⟨fun op _ kind k => hall op kind k,fun op k hu hs' => absurd ((hall op _ k).mp hu) hs'⟩
    · refine ⟨fun op hop kind k => hst.others op (fun heq => hop (heq ▸ hmover)) kind k,
        fun op k hu hs' => ?_⟩
      by_cases hop : op = mover
      · subst hop
        exact hst.free k hu hs'
      · exact absurd ((hst.others op hop _ k).mp hu) hs'

def start : State := ⟨0,fun _ => Row.empty,fun _ => none⟩

theorem start_init (lockExpiry : ℤ) (callers : ℕ → Bool) :
    (machine lockExpiry callers).init start := by
  have hgrants : ∀ col, Row.empty.grants col = ∅ := fun col => by simp [Row.empty,Row.grants]
  refine ⟨⟨fun k g hg => ?_,fun k g hg => ?_⟩,fun op _ kind k hl => ?_,fun _ => rfl⟩
  · simp [start,hgrants] at hg
  · simp [start,hgrants] at hg
  · cases kind <;> simp [State.Locked,Locked,start,hgrants] at hl

def untimed (_ : State) (a : Action) : Prop := a.operation.isSome = true

instance (s : State) (a : Action) : Decidable (untimed s a) :=
  inferInstanceAs (Decidable (_ = true))

theorem noneExpires_of_untimed (lockExpiry : ℤ) (s : State) (a : Action) (h : untimed s a) :
    noneExpires lockExpiry s a := by
  cases a with
  | tick d => exact absurd h (by simp [untimed,Action.operation])
  | _ => trivial

def State.outcome (s : State) (op : ℕ) : Option (Phase × List ℕ) :=
  (s.calls op).map fun x => (x.phase,x.rootIds)

/-- Root 8 has become 9 and 7. The second call fails on root 9, and its rollback releases root 5,
whose lock request raised after it had taken effect. -/
theorem lockRoots_exclusive_rollback :
    ∃ s : State, s.outcome 1 = some (.returned true,[7,9]) ∧ s.outcome 2 = some (.returned false,[5,9]) ∧
      (∀ k, s.Locked threeMinutes .temporal 1 k ↔ ∃ r ∈ [7,9], k = rootKey r) ∧
      ∀ k, ¬ s.Locked threeMinutes .temporal 2 k := by
  obtain ⟨tr,s,hrun,h₁,h₂,hk₁,hk₂⟩ := exists_exec (machine threeMinutes fun _ => true) untimed (s := start)
    (P := fun _ s => s.outcome 1 = some (.returned true,[7,9]) ∧
      s.outcome 2 = some (.returned false,[5,9]) ∧
      (s.calls 1).map (·.kind) = some .temporal ∧ (s.calls 2).map (·.kind) = some .temporal)
    [.lockRoots 1 [8,7] (fun r => if r = 8 then some [9,7] else some []) 1,.lock 1 1 .none,
      .lockRoots 2 [9,5] (fun _ => some []) 1,.lock 2 0 .after,.lock 1 0 .none,.judge 1,
      .lock 2 0 .none,.judge 2,.unlock 2 1,.unlock 2 0,.retry 2] (by decide +kernel)
  have h := lockRoots_exclusive threeMinutes (by decide) (fun _ => true)
    ⟨_,_,start_init _ _,hrun.weaken (noneExpires_of_untimed threeMinutes)⟩
  obtain ⟨x,hx,hout⟩ := Option.map_eq_some_iff.mp h₁
  obtain ⟨y,hy,hout'⟩ := Option.map_eq_some_iff.mp h₂
  simp only [Prod.mk.injEq] at hout hout'
  simp only [hx,hy,Option.map_some,Option.some.injEq] at hk₁ hk₂
  refine ⟨s,h₁,h₂,?_,?_⟩
  · have hheld := (h.1 1 x hx hout.1).2.2.2
    rwa [hk₁,hout.2] at hheld
  · have hfree := h.2.2.1 2 y hy hout'.1
    rwa [hk₂] at hfree

/-- An indefinite lock request does not look at the temporal column, so it may take a root that
another operation holds temporally. -/
theorem lockRootsIndefinitely_over_temporal :
    ¬ ∀ s, Reachable (machine threeMinutes fun _ => true) (noneExpires threeMinutes) s →
      ∀ op op' x x', op ≠ op' → s.calls op = some x → s.calls op' = some x' →
        x.phase = .returned true → x'.phase = .returned true → x.rootIds.Disjoint x'.rootIds := by
  intro h
  obtain ⟨tr,s,hrun,h₁,h₂⟩ := exists_exec (machine threeMinutes fun _ => true) untimed (s := start)
    (P := fun _ s => s.outcome 1 = some (.returned true,[7]) ∧
      s.outcome 2 = some (.returned true,[7]))
    [.lockRoots 1 [7] (fun _ => some []) 1,.lock 1 0 .none,.judge 1,
      .lockRootsIndefinitely 2 [7] (fun _ => some []),.lock 2 0 .none,.judge 2]
    (by decide +kernel)
  obtain ⟨x,hx,hout⟩ := Option.map_eq_some_iff.mp h₁
  obtain ⟨y,hy,hout'⟩ := Option.map_eq_some_iff.mp h₂
  simp only [Prod.mk.injEq] at hout hout'
  have hdisj := h s ⟨_,_,start_init _ _,hrun.weaken (noneExpires_of_untimed threeMinutes)⟩ 1 2 x y
    (by decide) hx hy hout.1 hout'.1
  exact hdisj (a := 7) (by simp [hout.2]) (by simp [hout'.2])

end LockRoots
end BigTable
end KvdbClient
