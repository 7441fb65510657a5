import KvdbClient.LockRoots

/-! The attempts of one `lock_roots` call, for any pattern of refused and granted locks. -/
namespace KvdbClient
namespace BigTable
namespace LockRoots

section Attempts

variable (lock : ℕ → ℕ → Bool)

/-- Every lock request of the try is answered. Tries are counted from one. -/
def answered (x : Call) : Call :=
  { x with pending := [], results := x.rootIds.map fun r => (r,lock x.tries r) }

/-- The tries that are left, each judged by its answers and followed by the next when some root
was not locked and all are unlocked again. -/
def runTries : ℕ → Call → Call
  | 0, x => x
  | n+1, x =>
    if x.phase = .locking then
      let y := judge (answered lock x)
      if y.phase = .unlocking then runTries n (retry { y with pending := [] }) else y
    else x

def lockRootsAlone (rootIds : List ℕ) (futureRootIds : ℕ → Option (List ℕ)) (maxTries : ℕ) : Call :=
  runTries lock maxTries (lockRoots rootIds futureRootIds maxTries)

def failedTry (x : Call) : Call := { answered lock x with phase := .unlocking }

@[simp] theorem failedTry_rootIds (x : Call) : (failedTry lock x).rootIds = x.rootIds := rfl
@[simp] theorem failedTry_tries (x : Call) : (failedTry lock x).tries = x.tries := rfl
@[simp] theorem failedTry_maxTries (x : Call) : (failedTry lock x).maxTries = x.maxTries := rfl
@[simp] theorem failedTry_futureRootIds (x : Call) :
    (failedTry lock x).futureRootIds = x.futureRootIds := rfl

def newTry (x : Call) (roots : List ℕ) : Call :=
  { x with rootIds := roots, tries := x.tries+1, pending := roots, results := [], phase := .locking }

variable (rootIds : List ℕ) (futureRootIds : ℕ → Option (List ℕ)) (maxTries : ℕ)

def AllLocked (i : ℕ) : Prop :=
  ∃ roots, rootsOfTry futureRootIds rootIds i = some roots ∧ ∀ r ∈ roots, lock i r = true

/-- The call returns `True` at the first try that locks all its roots, or `False` when there is no
such try among those it may make. -/
def ReturnsAtFirst (x : Call) : Prop :=
  (∃ i, 1 ≤ i ∧ i ≤ maxTries ∧ AllLocked lock rootIds futureRootIds i ∧
    (∀ j, 1 ≤ j → j < i → ¬ AllLocked lock rootIds futureRootIds j) ∧
    x.phase = .returned true ∧ x.tries = i ∧ rootsOfTry futureRootIds rootIds i = some x.rootIds) ∨
  (∀ i, 1 ≤ i → i ≤ maxTries → ¬ AllLocked lock rootIds futureRootIds i) ∧
    x.phase = .returned false ∧ x.tries = maxTries ∧
    rootsOfTry futureRootIds rootIds maxTries = some x.rootIds

/-- The roots of a try that failed, like all before it, are in the map when there is another. -/
def EntriesFrom (first : ℕ) : Prop :=
  ∀ i, first ≤ i → i < maxTries →
    (∀ j, 1 ≤ j → j ≤ i → ¬ AllLocked lock rootIds futureRootIds j) →
    ∀ roots, rootsOfTry futureRootIds rootIds i = some roots →
      ∀ r ∈ roots, (futureRootIds r).isSome = true

variable {lock rootIds futureRootIds maxTries}

theorem resolve_isSome {l : List ℕ} :
    (resolve futureRootIds l).isSome = true ↔ ∀ r ∈ l, (futureRootIds r).isSome = true := by
  induction l with
  | nil => simp [resolve]
  | cons r rs ih =>
    rw [List.forall_mem_cons,← ih,resolve]
    cases futureRootIds r <;> cases resolve futureRootIds rs <;> simp

theorem nextRoots_isSome {l : List ℕ} :
    (nextRoots futureRootIds l).isSome = true ↔ ∀ r ∈ l, (futureRootIds r).isSome = true := by
  rw [nextRoots,Option.isSome_map,resolve_isSome]

theorem judge_answered_of_all {x : Call} (h : x.rootIds.all (lock x.tries) = true) :
    judge (answered lock x) = { answered lock x with phase := .returned true } := by
  have hall : (answered lock x).results.all (·.2) = true := by
    simpa [answered,Function.comp_def] using h
  rw [judge,if_pos hall]

theorem judge_answered_of_not {x : Call} (h : ¬ x.rootIds.all (lock x.tries) = true) :
    (judge (answered lock x)).phase = .unlocking ∧
      { judge (answered lock x) with pending := [] } = failedTry lock x := by
  have hall : ¬ (answered lock x).results.all (·.2) = true := by
    simpa [answered,Function.comp_def] using h
  rw [judge,if_neg hall]
  exact ⟨rfl,rfl⟩

theorem allLocked_iff {i : ℕ} {roots : List ℕ} (h : rootsOfTry futureRootIds rootIds i = some roots) :
    AllLocked lock rootIds futureRootIds i ↔ roots.all (lock i) = true := by
  simp [AllLocked,h]

theorem beginTry_of_isSome {x : Call} (h : ∀ r ∈ x.rootIds, (x.futureRootIds r).isSome = true) :
    ∃ roots, nextRoots x.futureRootIds x.rootIds = some roots ∧ beginTry x = newTry x roots := by
  obtain ⟨roots,hroots⟩ := Option.isSome_iff_exists.mp (nextRoots_isSome.mpr h)
  exact ⟨roots,hroots,by rw [beginTry,hroots]; rfl⟩

theorem beginTry_of_missing {x : Call} (h : ¬ ∀ r ∈ x.rootIds, (x.futureRootIds r).isSome = true) :
    beginTry x = { x with phase := .raised } := by
  rw [← nextRoots_isSome,Bool.not_eq_true,Option.isSome_eq_false_iff,Option.isNone_iff_eq_none] at h
  rw [beginTry,h]

theorem runTries_of_not_locking {x : Call} (h : x.phase ≠ .locking) (n : ℕ) :
    runTries lock n x = x := by
  cases n with
  | zero => rfl
  | succ n => rw [runTries,if_neg h]

theorem not_returnsAtFirst_of_raised {x : Call} (h : x.phase = .raised) :
    ¬ ReturnsAtFirst lock rootIds futureRootIds maxTries x := by
  rintro (⟨_,_,_,_,_,hp,_⟩ | ⟨_,hp,_⟩)
  · rw [h] at hp
    cases hp
  · rw [h] at hp
    cases hp

theorem entriesFrom_succ {i : ℕ} {roots : List ℕ}
    (hroots : rootsOfTry futureRootIds rootIds i = some roots)
    (hentries : ∀ r ∈ roots, (futureRootIds r).isSome = true) :
    EntriesFrom lock rootIds futureRootIds maxTries (i+1) ↔
      EntriesFrom lock rootIds futureRootIds maxTries i := by
  refine ⟨fun h k hk hkm hfailed => ?_,fun h k hk hkm hfailed => h k (by omega) hkm hfailed⟩
  rcases Nat.lt_or_eq_of_le hk with hik | rfl
  · exact h k hik hkm hfailed
  · intro roots' hroots'
    rw [hroots] at hroots'
    cases hroots'
    exact hentries

/-- From a try on which is being made, all before it having failed. -/
theorem runTries_spec {n i : ℕ} {x : Call} (hn : n+i = maxTries+1) (hi : 1 ≤ i) (hmax : i ≤ maxTries)
    (hphase : x.phase = .locking) (htries : x.tries = i) (hxmax : x.maxTries = maxTries)
    (hfuture : x.futureRootIds = futureRootIds)
    (hroots : rootsOfTry futureRootIds rootIds i = some x.rootIds)
    (hbefore : ∀ j, 1 ≤ j → j < i → ¬ AllLocked lock rootIds futureRootIds j) :
    ReturnsAtFirst lock rootIds futureRootIds maxTries (runTries lock n x) ↔
      EntriesFrom lock rootIds futureRootIds maxTries i := by
  induction n generalizing i x with
  | zero => omega
  | succ n ih =>
    rw [runTries,if_pos hphase]
    dsimp only
    by_cases hall : x.rootIds.all (lock x.tries) = true
    · have hlocked : AllLocked lock rootIds futureRootIds i :=
        (allLocked_iff hroots).mpr (htries ▸ hall)
      rw [judge_answered_of_all hall,if_neg (by simp)]
      refine iff_of_true (Or.inl ⟨i,hi,hmax,hlocked,hbefore,rfl,htries,hroots⟩) ?_
      intro k hk _ hfailed
      exact absurd hlocked (hfailed i hi hk)
    · have hnot : ¬ AllLocked lock rootIds futureRootIds i := fun h =>
        hall (htries ▸ (allLocked_iff hroots).mp h)
      have hupto : ∀ j, 1 ≤ j → j ≤ i → ¬ AllLocked lock rootIds futureRootIds j := fun j hj hji => by
        rcases Nat.lt_or_eq_of_le hji with hlt | rfl
        · exact hbefore j hj hlt
        · exact hnot
      obtain ⟨hunlocking,hfailedTry⟩ := judge_answered_of_not hall
      have hleft : (failedTry lock x).tries < (failedTry lock x).maxTries ↔ i < maxTries := by
        rw [failedTry_tries,failedTry_maxTries,htries,hxmax]
      rw [if_pos hunlocking,hfailedTry,retry]
      rcases Nat.lt_or_eq_of_le hmax with hlt | heq
      · rw [if_pos (hleft.mpr hlt)]
        -- the map is asked for the roots of this try
        by_cases hentries : ∀ r ∈ x.rootIds, (futureRootIds r).isSome = true
        · obtain ⟨roots,hnext,hbegin⟩ := beginTry_of_isSome (x := failedTry lock x)
            (by simpa only [failedTry_rootIds,failedTry_futureRootIds,hfuture] using hentries)
          have hrootsNext : rootsOfTry futureRootIds rootIds (i+1) = some roots := by
            rw [rootsOfTry,hroots,← hfuture]
            exact hnext
          have hrest := ih (i := i+1) (x := newTry (failedTry lock x) roots) (by omega) (by omega) hlt
            rfl (congrArg (·+1) htries) hxmax hfuture hrootsNext fun j hj hji => hupto j hj (by omega)
          rw [hbegin,hrest]
          exact entriesFrom_succ hroots hentries
        · rw [beginTry_of_missing (x := failedTry lock x)
            (by simpa only [failedTry_rootIds,failedTry_futureRootIds,hfuture] using hentries),
            runTries_of_not_locking (by simp)]
          exact iff_of_false (not_returnsAtFirst_of_raised rfl) fun h =>
            hentries (h i le_rfl hlt hupto _ hroots)
      · subst heq
        rw [if_neg fun h => lt_irrefl _ (hleft.mp h),runTries_of_not_locking (by simp)]
        exact iff_of_true (Or.inr ⟨hupto,rfl,htries,hroots⟩) fun k hk hkm => by omega

/-- A `lock_roots` call returns at the first try that locks all its roots, or after the last one,
exactly when the map has the roots of every failed try that is followed by another. -/
theorem lockRoots_returns_iff (hmax : 1 ≤ maxTries)
    (hentries : ∀ r ∈ rootIds, (futureRootIds r).isSome = true) :
    ReturnsAtFirst lock rootIds futureRootIds maxTries
        (lockRootsAlone lock rootIds futureRootIds maxTries) ↔
      EntriesFrom lock rootIds futureRootIds maxTries 1 := by
  obtain ⟨roots,hnext,hbegin⟩ := beginTry_of_isSome
    (x := ⟨.temporal,rootIds,futureRootIds,maxTries,rootIds,0,[],[],.returned false⟩) hentries
  have hpos : 0 < maxTries := hmax
  rw [lockRootsAlone,lockRoots,if_pos hpos,hbegin]
  exact runTries_spec rfl le_rfl hmax rfl rfl rfl rfl hnext fun j hj hj' => by omega

/-- A chain of two successors: the map has both, and the second try locks the last one. -/
theorem lockRoots_returns_chain :
    ReturnsAtFirst (fun i _ => i = 2) [1] (fun r => if r = 1 then some [2] else some []) 3
      (lockRootsAlone (fun i _ => i = 2) [1] (fun r => if r = 1 then some [2] else some []) 3) :=
  (lockRoots_returns_iff (by decide) (by decide)).mpr fun i _ _ _ roots _ r _ => by
    split <;> rfl

/-- The second try looks up the successor, which is not in the map. -/
theorem lockRoots_raises :
    (lockRootsAlone (fun _ _ => false) [1] (fun r => if r = 1 then some [2] else none) 2).phase =
        .raised ∧
      ¬ ReturnsAtFirst (fun _ _ => false) [1] (fun r => if r = 1 then some [2] else none) 2
        (lockRootsAlone (fun _ _ => false) [1] (fun r => if r = 1 then some [2] else none) 2) := by
  have hraised : (lockRootsAlone (fun _ _ => false) [1]
      (fun r => if r = 1 then some [2] else none) 2).phase = .raised := by decide
  exact ⟨hraised,not_returnsAtFirst_of_raised hraised⟩

end Attempts

end LockRoots
end BigTable
end KvdbClient
