import KvdbClient.HBaseLockRootsPhases

/-! A call that fails removes what its operation had locked, if the requests of its unlocks reach
the server. -/
namespace KvdbClient
namespace HBase
namespace LockRoots

open Lease Transition
open BigTable.LockRoots (LockKind Phase Call rootKey)

structure Invariant (callers : ℕ → Bool) (s : State) : Prop where
  puts : PutsOwn s.client
  single : SingleOwner s.client.table
  called : ∀ op x, s.calls op = some x → callers op = true
  idle : ∀ op, callers op = true → s.calls op = none → ∀ k, s.client.pc ⟨op,k,0⟩ = .idle
  sound : ∀ op x, s.calls op = some x → PhaseSound s.client op x

/-- An operation makes its other calls on a row one after the other. -/
def sequential (s : State) : Action → Prop
  | .client a => HBase.sequential s.client a
  | _ => True

instance (s : State) (a : Action) : Decidable (sequential s a) :=
  match a with
  | .client (.start i _) => inferInstanceAs (Decidable (i.thread = 0))
  | .client (.tick _) | .client (.serve _) | .client (.resume _) => inferInstanceAs (Decidable True)
  | .lockRoots .. | .lockRootsIndefinitely .. | .submit .. | .raise _ | .judge _ | .retry _
  | .release .. => inferInstanceAs (Decidable True)

namespace Invariant

variable {lockExpiry : ℤ} {callers : ℕ → Bool} {s u : State} {v : HBase.State} {op : ℕ}
  {x y : Call} {es : List LockEvent}

theorem of_init (h : (machine lockExpiry callers).init s) : Invariant callers s where
  puts := PutsOwn.of_init h.1
  single := singleOwner_of_init h.1
  called op x hx := by simp [h.2] at hx
  idle op _ _ k := h.1.2.1 _
  sound op x hx := by simp [h.2] at hx

/-- A call moves on, and perhaps the client at one of its roots. -/
theorem set (h : Invariant callers s) (hop : callers op = true) (hputs : PutsOwn v)
    (hsingle : SingleOwner v.table)
    (hpc : ∀ o k, o ≠ op → v.pc ⟨o,k,0⟩ = s.client.pc ⟨o,k,0⟩)
    (hg : ∀ o kind k, Granted s.client kind o k → Granted v kind o k)
    (hy : PhaseSound v op y) : Invariant callers (State.set ⟨v,s.calls⟩ op y) where
  puts := hputs
  single := hsingle
  called o z hz := by
    by_cases ho : o = op
    · exact ho ▸ hop
    · exact h.called o z (by simpa [State.set,ho] using hz)
  idle o ho hnone k := by
    have hne : o ≠ op := by
      rintro rfl
      simp [State.set] at hnone
    exact (hpc o k hne).trans (h.idle o ho (by simpa [State.set,hne] using hnone) k)
  sound o z hz := by
    by_cases ho : o = op
    · subst ho
      have hzy : y = z := by simpa [State.set] using hz
      exact hzy ▸ hy
    · exact (h.sound o z (by simpa [State.set,ho] using hz)).frame (fun k => hpc o k ho)
        fun k => hg o z.kind k

/-- A call moves on without the client. -/
theorem keep (h : Invariant callers s) (hop : callers op = true)
    (hy : PhaseSound s.client op y) : Invariant callers (s.set op y) :=
  h.set (v := s.client) hop h.puts h.single (fun _ _ _ => rfl) (fun _ _ _ hk => hk) hy

/-- The client starts a call for a root. -/
theorem started (h : Invariant callers s) (hop : callers op = true) {root : ℕ} {c : LockCall}
    (hs : HBase.step lockExpiry s.client (.start (rootCaller op root) c) = some (es,v))
    (hy : v.pc = Function.update s.client.pc (rootCaller op root)
      (.waiting c (firstRequest s.client.now c)) → PhaseSound v op y) :
    Invariant callers (State.set ⟨v,s.calls⟩ op y) := by
  have hok : HBase.sequential s.client (.start (rootCaller op root) c) := rfl
  have hputs := h.puts.of_step hok hs
  obtain ⟨-,-,rfl⟩ := step_start hs
  refine h.set hop hputs h.single (fun o k ho => ?_) (fun _ _ _ hk => hk) (hy rfl)
  exact State.setPc_pc_of_ne fun heq => ho (congrArg Caller.operationId heq)

theorem client (h : Invariant callers s) {a : HBase.Action} (hok : HBase.sequential s.client a)
    (hperm : Permitted callers s a) (hs : HBase.step lockExpiry s.client a = some (es,v)) :
    Invariant callers ⟨v,es.foldl collect s.calls⟩ := by
  have hback : ∀ o x', es.foldl collect s.calls o = some x' → ∃ x, s.calls o = some x := by
    intro o x' hx'
    refine Option.ne_none_iff_exists'.mp fun hnone => ?_
    cases (foldl_collect_eq_none.mpr hnone).symm.trans hx'
  refine ⟨h.puts.of_step hok hs,singleOwner_of_step h.single hs,fun o x' hx' => ?_,
    fun o ho hnone k => ?_,fun o x' hx' => ?_⟩
  · obtain ⟨x,hx⟩ := hback o x' hx'
    exact h.called o x hx
  · have hx : s.calls o = none := foldl_collect_eq_none.mp hnone
    have hidle := h.idle o ho hx k
    refine (step_pc_of_ne hs fun ha => ?_).trans hidle
    rcases HBase.step_cases hs with ⟨d,rfl,-,-⟩ | ⟨j,c,rfl,-,-,-,-⟩ | ⟨j,c,st,rfl,hpc,-,-⟩ |
      ⟨j,c,st,r,rfl,hpc,-,-⟩
    · cases ha
    · cases ha
      rcases hperm with hperm | ⟨-,hphase⟩
      · cases ho.symm.trans hperm
      · simp [hx] at hphase
    · cases ha
      cases hidle.symm.trans hpc
    · cases ha
      cases hidle.symm.trans hpc
  · obtain ⟨x,hx⟩ := hback o x' hx'
    obtain ⟨y,hy,hsound⟩ := (h.sound o x hx).client h.puts hx (h.called o x hx) hok hperm hs
    cases hx'.symm.trans hy
    exact hsound

theorem raise (h : Invariant callers s) {i : Caller} {c : LockCall} {st : Stage}
    (hat : At s.client i c st) :
    Invariant callers ⟨s.client.setPc i .idle,collect s.calls (.ret i c false)⟩ := by
  have hthread := h.puts.thread i hat.not_idle
  obtain ⟨op,k,thread⟩ := i
  obtain rfl : thread = 0 := hthread
  have hself := collect_ret_self s.calls ⟨op,k,0⟩ c false
  have hother : ∀ o, o ≠ op → collect s.calls (.ret ⟨op,k,0⟩ c false) o = s.calls o := fun o ho =>
    collect_ret_of_ne s.calls ho c false
  refine ⟨h.puts.setPc rfl (fun _ _ _ _ _ _ _ => rfl) (by simp) (by simp) (by simp) (by simp),
    h.single,fun o x' hx' => ?_,fun o ho hnone k' => ?_,fun o x' hx' => ?_⟩
  · by_cases heq : o = op
    · subst heq
      obtain ⟨x,hx,-⟩ := Option.map_eq_some_iff.mp (hself.symm.trans hx')
      exact h.called o x hx
    · exact h.called o x' ((hother o heq).symm.trans hx')
  · by_cases heq : o = op
    · subst heq
      exact absurd (h.idle o ho (Option.map_eq_none_iff.mp (hself.symm.trans hnone)) k) hat.not_idle
    · refine (State.setPc_pc_of_ne fun hc => heq (congrArg Caller.operationId hc)).trans ?_
      exact h.idle o ho ((hother o heq).symm.trans hnone) k'
  · by_cases heq : o = op
    · subst heq
      obtain ⟨x,hx,rfl⟩ := Option.map_eq_some_iff.mp (hself.symm.trans hx')
      exact (h.sound o x hx).raise hat
    · refine (h.sound o x' ((hother o heq).symm.trans hx')).frame (fun k' => ?_) fun _ hk => hk
      exact State.setPc_pc_of_ne fun hc => heq (congrArg Caller.operationId hc)

theorem of_step (h : Invariant callers s) {a : Action} (hok : sequential s a)
    (hs : step lockExpiry callers s a = some (es,u)) : Invariant callers u := by
  rcases step_cases hs with ⟨op,y,hop,hnone,hy,rfl,rfl⟩ |
    ⟨op,n,x,root,c,v,hx,hroot,hc,hv,rfl⟩ | ⟨b,v,rfl,hperm,hv,rfl⟩ | ⟨i,c,st,rfl,hat,rfl,rfl⟩ |
    ⟨op,x,hx,hp,hdone,rfl,rfl⟩ | ⟨op,x,hx,hp,hdone,rfl,rfl⟩ | ⟨op,x,root,v,hx,hp,hv,rfl⟩
  · exact h.keep hop (hy.phaseSound (h.idle op hop hnone))
  · refine h.started (h.called op x hx) hv fun hpc => (h.sound op x hx).submit hroot hc hpc ?_
    obtain ⟨-,-,rfl⟩ := step_start hv
    exact fun _ hk => hk
  · exact h.client hok hperm hv
  · exact h.raise hat
  · have hsound := h.sound op x hx
    rw [phaseSound_locking hp] at hsound
    exact h.keep (h.called op x hx) (hsound.judge hdone.1 hdone.2)
  · have hsound := h.sound op x hx
    rw [phaseSound_unlocking hp] at hsound
    exact h.keep (h.called op x hx) (hsound.retry hdone.2)
  · exact h.started (h.called op x hx) hv fun _ => phaseSound_releasing rfl

end Invariant

/-- Where a call can have left versions of its operation. -/
def Leftover (client : HBase.State) (op : ℕ) (x : Call) : Prop :=
  match x.phase with
  | .locking | .returned true => ∀ k, Has client x.kind op k → ∃ r ∈ x.rootIds, k = rootKey r
  | .unlocking => ∀ k, Has client x.kind op k → ∃ r, k = rootKey r ∧
      (r ∈ x.pending ∨ ∃ c, client.pc (rootCaller op r) = .waiting c (.release (column x.kind)))
  | .returned false | .raised => ∀ k, ¬ Has client x.kind op k
  | .releasing => True

section Leftover

variable {lockExpiry : ℤ} {callers : ℕ → Bool} {s : State} {client client' v : HBase.State}
  {a : HBase.Action} {es : List LockEvent} {op : ℕ} {x : Call}

theorem leftover_roots (hp : x.phase = .locking ∨ x.phase = .returned true) :
    Leftover client op x ↔ ∀ k, Has client x.kind op k → ∃ r ∈ x.rootIds, k = rootKey r := by
  rcases hp with hp | hp <;> rw [Leftover,hp]

theorem leftover_unlocking (hp : x.phase = .unlocking) :
    Leftover client op x ↔ ∀ k, Has client x.kind op k → ∃ r, k = rootKey r ∧
      (r ∈ x.pending ∨ ∃ c, client.pc (rootCaller op r) = .waiting c (.release (column x.kind))) := by
  rw [Leftover,hp]

theorem leftover_none (hp : x.phase = .returned false ∨ x.phase = .raised) :
    Leftover client op x ↔ ∀ k, ¬ Has client x.kind op k := by
  rcases hp with hp | hp <;> rw [Leftover,hp]

theorem leftover_releasing (hp : x.phase = .releasing) : Leftover client op x := by
  rw [Leftover,hp]
  trivial

theorem leftover_of_not_has (hno : ∀ k, ¬ Has client x.kind op k) : Leftover client op x := by
  cases hp : x.phase with
  | locking => exact (leftover_roots (Or.inl hp)).mpr fun k hk => absurd hk (hno k)
  | unlocking => exact (leftover_unlocking hp).mpr fun k hk => absurd hk (hno k)
  | returned all =>
    cases all with
    | true => exact (leftover_roots (Or.inr hp)).mpr fun k hk => absurd hk (hno k)
    | false => exact (leftover_none (Or.inl hp)).mpr hno
  | raised => exact (leftover_none (Or.inr hp)).mpr hno
  | releasing => exact leftover_releasing hp

theorem Leftover.mono (h : Leftover client op x)
    (hhas : ∀ k, Has client' x.kind op k → Has client x.kind op k ∨
      (x.phase = .locking ∧ ∃ r ∈ x.rootIds, k = rootKey r))
    (hwait : ∀ r c, Has client' x.kind op (rootKey r) →
      client.pc (rootCaller op r) = .waiting c (.release (column x.kind)) →
      client'.pc (rootCaller op r) = .waiting c (.release (column x.kind))) :
    Leftover client' op x := by
  have hless : x.phase ≠ .locking → ∀ k, Has client' x.kind op k → Has client x.kind op k :=
    fun hp k hk => (hhas k hk).resolve_right fun hl => hp hl.1
  cases hp : x.phase with
  | locking =>
    rw [leftover_roots (Or.inl hp)] at h ⊢
    exact fun k hk => (hhas k hk).elim (h k) fun hl => hl.2
  | unlocking =>
    rw [leftover_unlocking hp] at h ⊢
    intro k hk
    obtain ⟨r,rfl,hr⟩ := h k (hless (by simp [hp]) k hk)
    exact ⟨r,rfl,hr.imp_right fun ⟨c,hc⟩ => ⟨c,hwait r c hk hc⟩⟩
  | returned all =>
    cases all with
    | true =>
      rw [leftover_roots (Or.inr hp)] at h ⊢
      exact fun k hk => h k (hless (by simp [hp]) k hk)
    | false =>
      rw [leftover_none (Or.inl hp)] at h ⊢
      exact fun k hk => h k (hless (by simp [hp]) k hk)
  | raised =>
    rw [leftover_none (Or.inr hp)] at h ⊢
    exact fun k hk => h k (hless (by simp [hp]) k hk)
  | releasing => exact leftover_releasing hp

theorem leftover_addResult (c : LockCall) (b : Bool) :
    Leftover client op (addResult x c b) ↔ Leftover client op x := by
  cases c <;> exact Iff.rfl

theorem leftover_collect {calls : ℕ → Option Call}
    (h : ∀ y, calls op = some y → Leftover client op y) (e : LockEvent) :
    ∀ y, collect calls e op = some y → Leftover client op y := by
  intro y hy
  cases e with
  | call i c => exact h y hy
  | released i col => exact h y hy
  | ret i c b =>
    by_cases hop : op = i.operationId
    · subst hop
      rw [collect_ret_self] at hy
      obtain ⟨x,hx,rfl⟩ := Option.map_eq_some_iff.mp hy
      exact (leftover_addResult c b).mpr (h x hx)
    · exact h y ((collect_ret_of_ne calls hop c b).symm.trans hy)

theorem leftover_foldl_collect {calls : ℕ → Option Call}
    (h : ∀ y, calls op = some y → Leftover client op y) :
    ∀ y, es.foldl collect calls op = some y → Leftover client op y := by
  induction es generalizing calls with
  | nil => exact h
  | cons e es ih => exact ih (leftover_collect h e)

theorem PhaseSound.locking_of_puts (h : PhaseSound client op x) {k : Bytes} {c : LockCall}
    {st : Stage} (hpc : client.pc ⟨op,k,0⟩ = .waiting c st) (hst : puts st = true) :
    x.phase = .releasing ∨ x.phase = .locking ∧ ∃ r ∈ x.rootIds, k = rootKey r := by
  have hat : At client ⟨op,k,0⟩ c st := Or.inl hpc
  cases hp : x.phase with
  | locking =>
    rw [phaseSound_locking hp] at h
    obtain ⟨r,hr,hk,-⟩ := h.running k c st hat
    exact Or.inr ⟨rfl,r,hr,hk⟩
  | unlocking =>
    rw [phaseSound_unlocking hp] at h
    obtain ⟨rfl,-⟩ := h.running k c st hat
    cases hst
  | returned all =>
    cases all with
    | true =>
      rw [phaseSound_returned hp] at h
      obtain ⟨-,rfl⟩ := h.2 k c st hat
      cases hst
    | false =>
      rw [phaseSound_idle (Or.inl hp)] at h
      exact absurd (h k) hat.not_idle
  | raised =>
    rw [phaseSound_idle (Or.inr hp)] at h
    exact absurd (h k) hat.not_idle
  | releasing => exact Or.inl rfl

theorem Leftover.submit (h : Leftover s.client op x) {n root : ℕ} {c : LockCall}
    (hroot : x.pending[n]? = some root) (hc : poolCall x root = some c)
    (hs : HBase.step lockExpiry s.client (.start (rootCaller op root) c) = some (es,v)) :
    Leftover v op { x with pending := x.pending.eraseIdx n } := by
  obtain ⟨hidle,-,rfl⟩ := step_start hs
  unfold poolCall at hc
  cases hp : x.phase with
  | locking =>
    rw [leftover_roots (Or.inl hp)] at h
    exact (leftover_roots (Or.inl rfl)).mpr h
  | unlocking =>
    rw [hp] at hc
    cases hc
    rw [leftover_unlocking hp] at h
    refine (leftover_unlocking rfl).mpr fun k hk => ?_
    obtain ⟨r,rfl,hr⟩ := h k hk
    refine ⟨r,rfl,?_⟩
    by_cases hrr : r = root
    · subst hrr
      refine Or.inr ⟨x.kind.unlock r,(State.setPc_pc_self ..).trans ?_⟩
      cases x.kind <;> rfl
    · refine hr.imp (fun hr => ?_) fun ⟨c,hc⟩ => ⟨c,(State.setPc_pc_of_ne ?_).trans hc⟩
      · obtain ⟨hn,hget⟩ := List.getElem?_eq_some_iff.mp hroot
        exact (List.mem_cons.mp ((List.getElem_cons_eraseIdx_perm hn).symm.subset hr)).resolve_left
          fun heq => hrr (heq.trans hget)
      · exact fun heq => hrr (rootCaller_injective heq)
  | returned all =>
    rw [hp] at hc
    cases hc
  | raised =>
    rw [hp] at hc
    cases hc
  | releasing => exact leftover_releasing rfl

theorem Leftover.of_step (h : Leftover s.client op x) (hi : Invariant callers s)
    (hx : s.calls op = some x) (hs : HBase.step lockExpiry s.client a = some (es,v)) :
    Leftover v op x := by
  by_cases hrel : x.phase = .releasing
  · exact leftover_releasing hrel
  · refine h.mono (fun k hk => (hk.of_step hi.puts hs).imp_right ?_) fun r c hk hw => ?_
    · rintro ⟨c,st,-,hpc,hst⟩
      exact ((hi.sound op x hx).locking_of_puts hpc hst).resolve_left hrel
    · by_cases ha : a.caller = some (rootCaller op r)
      · -- The release is executed.
        rcases HBase.step_cases hs with ⟨d,rfl,-,-⟩ | ⟨j,c',rfl,hidle,-,-,-⟩ |
          ⟨j,c',st,rfl,hpc,-,rfl⟩ | ⟨j,c',st,res,rfl,hpc,-,-⟩
        · cases ha
        · cases ha
          cases hw.symm.trans hidle
        · cases ha
          cases hw.symm.trans hpc
          exact absurd hk (not_has_of_release hi.single)
        · cases ha
          cases hw.symm.trans hpc
      · exact (step_pc_of_ne hs ha).trans hw

end Leftover

def Pc.releasing : Pc → Bool
  | .waiting _ (.release _) => true
  | _ => false

/-- No exception keeps the request of an unlock from the server. -/
def unlocksServed (s : State) : Action → Prop
  | .client a => HBase.sequential s.client a
  | .raise i => Pc.releasing (s.client.pc i) = false
  | _ => True

instance (s : State) (a : Action) : Decidable (unlocksServed s a) :=
  match a with
  | .client (.start i _) => inferInstanceAs (Decidable (i.thread = 0))
  | .raise i => inferInstanceAs (Decidable (Pc.releasing (s.client.pc i) = false))
  | .client (.tick _) | .client (.serve _) | .client (.resume _) => inferInstanceAs (Decidable True)
  | .lockRoots .. | .lockRootsIndefinitely .. | .submit .. | .judge _ | .retry _ | .release .. =>
    inferInstanceAs (Decidable True)

/-- Calls have left versions of their operations only where they are going to remove them. -/
structure Clean (callers : ℕ → Bool) (s : State) : Prop where
  unused : ∀ op, callers op = true → s.calls op = none → ∀ kind k, ¬ Has s.client kind op k
  left : ∀ op x, s.calls op = some x → Leftover s.client op x

namespace Clean

variable {lockExpiry : ℤ} {callers : ℕ → Bool} {s u : State} {v : HBase.State} {op : ℕ}
  {x y : Call} {es : List LockEvent}

theorem of_init (h : (machine lockExpiry callers).init s) : Clean callers s where
  unused op _ _ kind k := by
    rintro ⟨w,hw,-⟩
    cases kind with
    | temporal => simp [column,(h.1.1 k).1] at hw
    | indefinite => simp [column,(h.1.1 k).2] at hw
  left op x hx := by simp [h.2] at hx

theorem set (h : Clean callers s) (htable : v.table = s.client.table)
    (hpc : ∀ o k, o ≠ op → v.pc ⟨o,k,0⟩ = s.client.pc ⟨o,k,0⟩) (hy : Leftover v op y) :
    Clean callers (State.set ⟨v,s.calls⟩ op y) := by
  have hhas : ∀ kind o k, Has v kind o k → Has s.client kind o k := fun kind o k hk => by
    rwa [Has,htable] at hk
  constructor
  · intro o ho hnone kind k hk
    have hne : o ≠ op := by
      rintro rfl
      simp [State.set] at hnone
    exact h.unused o ho (by simpa [State.set,hne] using hnone) kind k (hhas kind o k hk)
  · intro o z hz
    by_cases ho : o = op
    · subst ho
      have hzy : y = z := by simpa [State.set] using hz
      exact hzy ▸ hy
    · exact (h.left o z (by simpa [State.set,ho] using hz)).mono
        (fun k hk => Or.inl (hhas _ o k hk)) fun r c _ hw => (hpc o _ ho).trans hw

theorem of_step (h : Clean callers s) (hi : Invariant callers s) {a : Action}
    (hok : unlocksServed s a) (hs : step lockExpiry callers s a = some (es,u)) :
    Clean callers u := by
  have hstart : ∀ {i c}, HBase.step lockExpiry s.client (.start i c) = some (es,u.client) →
      u.client.table = s.client.table ∧
        ∀ j, j ≠ i → u.client.pc j = s.client.pc j := fun hv => by
    obtain ⟨-,-,hu⟩ := step_start hv
    rw [hu]
    exact ⟨rfl,fun j hj => State.setPc_pc_of_ne hj⟩
  have hrow : ∀ {o op : ℕ} {k : Bytes} {root : ℕ}, o ≠ op → (⟨o,k,0⟩ : Caller) ≠ rootCaller op root :=
    fun ho heq => ho (congrArg Caller.operationId heq)
  rcases step_cases hs with ⟨op,y,hop,hnone,hy,rfl,rfl⟩ |
    ⟨op,n,x,root,c,v,hx,hroot,hc,hv,rfl⟩ | ⟨b,v,rfl,hperm,hv,rfl⟩ | ⟨i,c,st,rfl,hat,rfl,rfl⟩ |
    ⟨op,x,hx,hp,hdone,rfl,rfl⟩ | ⟨op,x,hx,hp,hdone,rfl,rfl⟩ | ⟨op,x,root,v,hx,hp,hv,rfl⟩
  · exact h.set (v := s.client) rfl (fun _ _ _ => rfl)
      (leftover_of_not_has (h.unused op hop hnone y.kind))
  · obtain ⟨htable,hpc⟩ := hstart hv
    exact h.set htable (fun o k ho => hpc _ (hrow ho)) ((h.left op x hx).submit hroot hc hv)
  · refine ⟨fun o ho hnone kind k hk => ?_,fun o y hy => ?_⟩
    · have hx : s.calls o = none := foldl_collect_eq_none.mp hnone
      rcases hk.of_step hi.puts hv with hk | ⟨c,st,-,hpc,-⟩
      · exact h.unused o ho hx kind k hk
      · cases (hi.idle o ho hx k).symm.trans hpc
    · exact leftover_foldl_collect (fun x hx => (h.left o x hx).of_step hi hx hv) y hy
  · refine ⟨fun o ho hnone kind k => ?_,fun o y hy => ?_⟩
    · exact h.unused o ho ((collect_eq_none (.ret i c false)).mp hnone) kind k
    · have hleft : ∀ x, s.calls o = some x → Leftover (s.client.setPc i .idle) o x := fun x hx =>
        (h.left o x hx).mono (fun k hk => Or.inl hk) fun r c' _ hw => by
          refine (State.setPc_pc_of_ne fun heq => ?_).trans hw
          have hok : Pc.releasing (s.client.pc i) = false := hok
          rw [← heq,hw] at hok
          cases hok
      exact leftover_collect hleft (.ret i c false) y hy
  · refine h.set (v := s.client) rfl (fun _ _ _ => rfl) ?_
    have hleft := h.left op x hx
    rw [leftover_roots (Or.inl hp)] at hleft
    unfold BigTable.LockRoots.judge
    split
    · exact (leftover_roots (Or.inr rfl)).mpr hleft
    · refine (leftover_unlocking rfl).mpr fun k hk => ?_
      obtain ⟨r,hr,rfl⟩ := hleft k hk
      exact ⟨r,rfl,Or.inl hr⟩
  · refine h.set (v := s.client) rfl (fun _ _ _ => rfl) (leftover_of_not_has fun k hk => ?_)
    have hleft := h.left op x hx
    have hsound := hi.sound op x hx
    rw [leftover_unlocking hp] at hleft
    rw [phaseSound_unlocking hp] at hsound
    rw [BigTable.LockRoots.kind_retry] at hk
    obtain ⟨r,rfl,hr | ⟨c,hc⟩⟩ := hleft k hk
    · simp [hdone.1] at hr
    · cases (hsound.idle hdone.2 (rootKey r)).symm.trans hc
  · obtain ⟨htable,hpc⟩ := hstart hv
    exact h.set htable (fun o k ho => hpc _ (hrow ho)) (leftover_releasing rfl)

end Clean

end LockRoots
end HBase
end KvdbClient
