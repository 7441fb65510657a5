import KvdbClient.HBaseLockRootsRollback

/-! On HBase, too, calls of `lock_roots` and `lock_roots_indefinitely` that returned `True` have
their roots to themselves, and calls that returned `False` have none of them. -/
namespace KvdbClient
namespace HBase
namespace LockRoots

open Lease Transition
open BigTable.LockRoots (LockKind Phase Call rootKey)

/-- Every unconditional delete reaches a lock column that is empty, the deleter's own or
expired. -/
def deletesDeletable (lockExpiry : ℤ) (s : State) : Action → Prop
  | .client a => HBase.deletesDeletable lockExpiry s.client a
  | _ => True

instance (lockExpiry : ℤ) (s : State) (a : Action) : Decidable (deletesDeletable lockExpiry s a) :=
  match a with
  | .client a => inferInstanceAs (Decidable (HBase.deletesDeletable lockExpiry s.client a))
  | .lockRoots .. | .lockRootsIndefinitely .. | .submit .. | .raise _ | .judge _ | .retry _
  | .release .. => inferInstanceAs (Decidable True)

theorem invariant_raise {lockExpiry : ℤ} {s : HBase.State} (h : HBase.Invariant lockExpiry s)
    {i : Caller} (hi : s.pc i ≠ .idle) : HBase.Invariant lockExpiry (s.setPc i .idle) := by
  have hthread := h.thread i hi
  obtain ⟨op,k,thread⟩ := i
  obtain rfl : thread = 0 := hthread
  have hkeep := h.keep (h.sound op k).done
  rwa [setEntry_eq_self] at hkeep

theorem invariant_of_step {lockExpiry : ℤ} {callers : ℕ → Bool} {s u : State} {a : Action}
    {es : List LockEvent} (h : HBase.Invariant lockExpiry s.client)
    (hok : deletesDeletable lockExpiry s a) (hs : step lockExpiry callers s a = some (es,u)) :
    HBase.Invariant lockExpiry u.client := by
  rcases step_cases hs with ⟨op,y,-,-,-,-,rfl⟩ | ⟨op,n,x,root,c,v,-,-,-,hv,rfl⟩ |
    ⟨b,v,rfl,-,hv,rfl⟩ | ⟨i,c,st,-,hat,-,rfl⟩ | ⟨op,x,-,-,-,-,rfl⟩ | ⟨op,x,-,-,-,-,rfl⟩ |
    ⟨op,x,root,v,-,-,hv,rfl⟩
  · exact h
  · have hstart : HBase.deletesDeletable lockExpiry s.client (.start (rootCaller op root) c) := rfl
    exact h.of_step hstart hv
  · exact h.of_step hok hv
  · exact invariant_raise h hat.not_idle
  · exact h
  · exact h
  · have hstart : HBase.deletesDeletable lockExpiry s.client
        (.start (rootCaller op root) (x.kind.unlock root)) := rfl
    exact h.of_step hstart hv

/-- The operation was told that it has locked the root, and has not begun to release. -/
def Gained (s : State) (op : ℕ) (kind : LockKind) (r : ℕ) : Prop :=
  ∃ x, s.calls op = some x ∧ x.kind = kind ∧ x.phase = .returned true ∧ r ∈ x.rootIds

/-- The operation does not get the root: it has found the indefinite column taken. -/
structure KeptOut (r op : ℕ) (s : State) : Prop where
  reads : ∀ c ts res, s.client.pc (rootCaller op r) = .answered c (.readIndefinite ts) res →
    res.cells ≠ []
  puts : ∀ c ts res, s.client.pc (rootCaller op r) = .answered c (.putIndefinite ts) res →
    res.success = false
  results : ∀ x, s.calls op = some x → x.phase = .locking → (r,true) ∉ x.results
  roots : ∀ x, s.calls op = some x → x.phase = .returned true → r ∉ x.rootIds

section KeptOut

variable {lockExpiry : ℤ} {callers : ℕ → Bool} {s u : State} {r op op' : ℕ} {es : List LockEvent}

theorem KeptOut.of_idle (hpc : s.client.pc (rootCaller op r) = .idle) (hx : s.calls op = none) :
    KeptOut r op s := by
  constructor <;> simp [hpc,hx]

theorem KeptOut.congr (h : KeptOut r op s)
    (hpc : u.client.pc (rootCaller op r) = s.client.pc (rootCaller op r))
    (hcalls : u.calls op = s.calls op) : KeptOut r op u := by
  constructor
  · rw [hpc]
    exact h.reads
  · rw [hpc]
    exact h.puts
  · rw [hcalls]
    exact h.results
  · rw [hcalls]
    exact h.roots

/-- A call that waits for its first result, or has ended without its roots. -/
def Fresh (x : Call) : Prop :=
  x.phase = .returned false ∨ x.phase = .raised ∨ x.phase = .locking ∧ x.results = []

theorem fresh_beginTry (x : Call) : Fresh (BigTable.LockRoots.beginTry x) := by
  unfold BigTable.LockRoots.beginTry
  split
  · exact Or.inr (Or.inl rfl)
  · exact Or.inr (Or.inr ⟨rfl,rfl⟩)

theorem fresh_retry (x : Call) : Fresh (BigTable.LockRoots.retry x) := by
  unfold BigTable.LockRoots.retry
  split
  · exact fresh_beginTry x
  · exact Or.inl rfl

theorem Begins.fresh {x : Call} (h : Begins x) : Fresh x := by
  rcases h with ⟨rootIds,future,maxTries,rfl⟩ | ⟨rootIds,future,rfl⟩
  · simp only [BigTable.LockRoots.lockRoots]
    split
    · exact fresh_beginTry _
    · exact Or.inl rfl
  · exact fresh_beginTry _

theorem Fresh.results {x : Call} (h : Fresh x) (hp : x.phase = .locking) : x.results = [] := by
  rcases h with h | h | h
  · cases hp.symm.trans h
  · cases hp.symm.trans h
  · exact h.2

theorem Fresh.not_returned {x : Call} (h : Fresh x) : x.phase ≠ .returned true := by
  rcases h with h | h | h
  · simp [h]
  · simp [h]
  · simp [h.1]

theorem judge_cases (x : Call) :
    (BigTable.LockRoots.judge x).phase = .returned true ∧
      (BigTable.LockRoots.judge x).rootIds = x.rootIds ∧ (∀ p ∈ x.results, p.2 = true) ∨
    (BigTable.LockRoots.judge x).phase = .unlocking := by
  unfold BigTable.LockRoots.judge
  split
  · exact Or.inl ⟨rfl,rfl,List.all_eq_true.mp ‹_›⟩
  · exact Or.inr rfl

theorem KeptOut.set (h : KeptOut r op s) {v : HBase.State} {y : Call}
    (hpc : ∀ c st res, v.pc (rootCaller op r) = .answered c st res →
      s.client.pc (rootCaller op r) = .answered c st res)
    (hres : op' = op → y.phase = .locking → (r,true) ∉ y.results)
    (hroots : op' = op → y.phase = .returned true → r ∉ y.rootIds) :
    KeptOut r op (State.set ⟨v,s.calls⟩ op' y) where
  reads c ts res hans := h.reads c ts res (hpc _ _ _ hans)
  puts c ts res hans := h.puts c ts res (hpc _ _ _ hans)
  results x hx hp := by
    by_cases hop : op = op'
    · subst hop
      obtain rfl : y = x := by simpa [State.set] using hx
      exact hres rfl hp
    · exact h.results x (by simpa [State.set,hop] using hx) hp
  roots x hx hp := by
    by_cases hop : op = op'
    · subst hop
      obtain rfl : y = x := by simpa [State.set] using hx
      exact hroots rfl hp
    · exact h.roots x (by simpa [State.set,hop] using hx) hp

theorem answered_of_start {s v : HBase.State} {i j : Caller} {c c' : LockCall} {st : Stage}
    {res : Response} (hs : HBase.step lockExpiry s (.start i c) = some (es,v))
    (h : v.pc j = .answered c' st res) : s.pc j = .answered c' st res := by
  obtain ⟨-,-,rfl⟩ := step_start hs
  by_cases hj : j = i
  · subst hj
    simp at h
  · exact (State.setPc_pc_of_ne hj).symm.trans h

theorem KeptOut.serve (h : KeptOut r op s)
    (hcol : (indefiniteVersions s.client.table (rootKey r)).list ≠ []) {k : Bytes} {c : LockCall}
    {st : Stage} : KeptOut r op ⟨(serveCall s.client ⟨op,k,0⟩ c st).2,s.calls⟩ := by
  by_cases hk : (⟨op,k,0⟩ : Caller) = rootCaller op r
  · rw [hk]
    refine ⟨fun c' ts res hans => ?_,fun c' ts res hans => ?_,h.results,h.roots⟩
    · simp only [serveCall,State.setPc_pc_self,Pc.answered.injEq] at hans
      obtain ⟨-,rfl,rfl⟩ := hans
      exact hcol
    · simp only [serveCall,State.setPc_pc_self,Pc.answered.injEq] at hans
      obtain ⟨-,rfl,rfl⟩ := hans
      by_contra hr
      exact hcol (owned_of_put (c := c) ((Bool.not_eq_false _).mp hr)).1
  · exact h.congr (State.setPc_pc_of_ne fun heq => hk heq.symm) rfl

theorem KeptOut.answered_of_update {client : HBase.State} {pc : Caller → Pc} {k : Bytes} {p : Pc}
    (hpc : pc = Function.update client.pc ⟨op,k,0⟩ p) (hp : ∀ c st res, p ≠ .answered c st res)
    {c : LockCall} {st : Stage} {res : Response}
    (h : pc (rootCaller op r) = .answered c st res) :
    client.pc (rootCaller op r) = .answered c st res := by
  rw [hpc] at h
  by_cases hk : rootCaller op r = ⟨op,k,0⟩
  · rw [hk,Function.update_self] at h
    exact absurd h (hp c st res)
  · rwa [Function.update_of_ne hk] at h

theorem KeptOut.finish (h : KeptOut r op s) (hi : Invariant callers s) {client' : HBase.State}
    {k : Bytes} {c : LockCall} {st : Stage} {b : Bool} (hat : At s.client ⟨op,k,0⟩ c st)
    (hpc : client'.pc = Function.update s.client.pc ⟨op,k,0⟩ .idle)
    (hgot : ∀ kind, k = rootKey r → c = LockKind.lock kind r → b = false) :
    KeptOut r op ⟨client',collect s.calls (.ret ⟨op,k,0⟩ c b)⟩ where
  reads c' ts res hans := h.reads c' ts res (answered_of_update hpc (by simp) hans)
  puts c' ts res hans := h.puts c' ts res (answered_of_update hpc (by simp) hans)
  results y hy hp := by
    obtain ⟨x,hx,rfl⟩ := Option.map_eq_some_iff.mp
      ((collect_ret_self s.calls ⟨op,k,0⟩ c b).symm.trans hy)
    rw [addResult_phase] at hp
    have hsound := hi.sound op x hx
    rw [phaseSound_locking hp] at hsound
    obtain ⟨r',-,rfl,-,rfl⟩ := hsound.running k c st hat
    rw [addResult_lock]
    intro hm
    rcases List.mem_append.mp hm with hm | hm
    · exact h.results x hx hp hm
    · have heq := List.mem_singleton.mp hm
      simp only [Prod.mk.injEq] at heq
      obtain ⟨rfl,hb⟩ := heq
      cases hb.trans (hgot x.kind rfl rfl)
  roots y hy hp := by
    obtain ⟨x,hx,rfl⟩ := Option.map_eq_some_iff.mp
      ((collect_ret_self s.calls ⟨op,k,0⟩ c b).symm.trans hy)
    rw [addResult_phase] at hp
    rw [addResult_rootIds]
    exact h.roots x hx hp

theorem KeptOut.resume (h : KeptOut r op s) (hi : Invariant callers s) {k : Bytes} {c : LockCall}
    {st : Stage} {res : Response} (hpc : s.client.pc ⟨op,k,0⟩ = .answered c st res) :
    KeptOut r op ⟨(resumeCall lockExpiry s.client ⟨op,k,0⟩ c st res).2,
      (resumeCall lockExpiry s.client ⟨op,k,0⟩ c st res).1.foldl collect s.calls⟩ := by
  cases hn : next lockExpiry s.client.now c res st with
  | send st' =>
    simp only [resumeCall,hn]
    exact ⟨fun c' ts res' hans => h.reads c' ts res' (answered_of_update rfl (by simp) hans),
      fun c' ts res' hans => h.puts c' ts res' (answered_of_update rfl (by simp) hans),
      h.results,h.roots⟩
  | ret b =>
    simp only [resumeCall,hn]
    refine h.finish hi (Or.inr ⟨res,hpc⟩) rfl fun kind hk hc => ?_
    subst hk hc
    by_contra hb
    obtain rfl := (Bool.not_eq_false b).mp hb
    have hfits := hi.puts.fits_answered _ _ _ _ hpc
    cases kind with
    | temporal =>
      obtain ⟨ts,rfl,hnil⟩ := hfits.read_of_ret rfl hn
      exact h.reads _ ts res hpc hnil
    | indefinite =>
      obtain ⟨ts,rfl,hr⟩ := hfits.put_of_ret rfl hn
      cases (h.puts _ ts res hpc).symm.trans hr

theorem KeptOut.raise (h : KeptOut r op s) (hi : Invariant callers s) {i : Caller} {c : LockCall}
    {st : Stage} (hat : At s.client i c st) :
    KeptOut r op ⟨s.client.setPc i .idle,collect s.calls (.ret i c false)⟩ := by
  have hthread := hi.puts.thread i hat.not_idle
  obtain ⟨o,k,thread⟩ := i
  obtain rfl : thread = 0 := hthread
  by_cases ho : o = op
  · subst ho
    exact h.finish hi hat rfl fun _ _ _ => rfl
  · exact h.congr (State.setPc_pc_of_ne fun heq => ho (congrArg Caller.operationId heq).symm)
      (collect_ret_of_ne s.calls (fun heq => ho heq.symm) c false)

theorem KeptOut.client (h : KeptOut r op s) (hi : Invariant callers s)
    (hcol : (indefiniteVersions s.client.table (rootKey r)).list ≠ []) {a : HBase.Action}
    {v : HBase.State} (hok : HBase.sequential s.client a)
    (hs : HBase.step lockExpiry s.client a = some (es,v)) :
    KeptOut r op ⟨v,es.foldl collect s.calls⟩ := by
  by_cases hmine : ∃ i, a.caller = some i ∧ i.operationId = op
  · obtain ⟨⟨o,k,thread⟩,hcaller,rfl⟩ := hmine
    rcases HBase.step_cases hs with ⟨d,rfl,-,-⟩ | ⟨j,c,rfl,hidle,-,rfl,rfl⟩ |
      ⟨j,c,st,rfl,hpc,rfl,rfl⟩ | ⟨j,c,st,res,rfl,hpc,rfl,rfl⟩
    · cases hcaller
    · exact ⟨fun c' ts res hans => h.reads c' ts res (answered_of_start hs hans),
        fun c' ts res hans => h.puts c' ts res (answered_of_start hs hans),h.results,h.roots⟩
    · cases hcaller
      obtain rfl : thread = 0 := hi.puts.thread ⟨o,k,thread⟩ (by simp [hpc])
      have hserved : KeptOut r o
          ⟨(serveCall s.client ⟨o,k,0⟩ c st).2,s.calls⟩ := h.serve hcol
      refine hserved.congr rfl ?_
      exact foldl_collect_of_ne fun i c' b hm => nomatch caller_of_ret hs hm
    · cases hcaller
      obtain rfl : thread = 0 := hi.puts.thread ⟨o,k,thread⟩ (by simp [hpc])
      exact h.resume hi hpc
  · have hne : ∀ i, a.caller = some i → i.operationId ≠ op := fun i hi heq => hmine ⟨i,hi,heq⟩
    refine h.congr (step_pc_of_ne hs fun ha => hne _ ha rfl) ?_
    exact foldl_collect_of_ne fun i c b hm => hne i (caller_of_ret hs hm ▸ rfl)

theorem KeptOut.of_step (h : KeptOut r op s) (hi : Invariant callers s)
    (hcol : (indefiniteVersions s.client.table (rootKey r)).list ≠ []) {a : Action}
    (hok : sequential s a) (hs : step lockExpiry callers s a = some (es,u)) : KeptOut r op u := by
  rcases step_cases hs with ⟨o,y,-,-,hy,-,rfl⟩ | ⟨o,n,x,root,c,v,hx,-,-,hv,rfl⟩ |
    ⟨b,v,rfl,-,hv,rfl⟩ | ⟨i,c,st,rfl,hat,-,rfl⟩ | ⟨o,x,hx,hp,hdone,-,rfl⟩ | ⟨o,x,hx,hp,-,-,rfl⟩ |
    ⟨o,x,root,v,hx,-,hv,rfl⟩
  · exact h.set (v := s.client) (fun _ _ _ hans => hans) 
      (fun _ hp => by simp [hy.fresh.results hp]) (fun _ hp => absurd hp hy.fresh.not_returned)
  · exact h.set (fun _ _ _ => answered_of_start hv) (fun ho => h.results x (ho ▸ hx))
      (fun ho => h.roots x (ho ▸ hx))
  · exact h.client hi hcol hok hv
  · exact h.raise hi hat
  · have hsound := hi.sound o x hx
    rw [phaseSound_locking hp] at hsound
    rcases judge_cases x with ⟨hj,hroots,hall⟩ | hj
    · refine h.set (v := s.client) (fun _ _ _ hans => hans) (fun _ hl => by cases hj.symm.trans hl)
        fun ho _ hr => ?_
      rw [hroots] at hr
      obtain ⟨b,hb⟩ := hsound.covered r hr (hdone.2 r hr) (by simp [hdone.1])
      obtain rfl : b = true := hall (r,b) hb
      exact h.results x (ho ▸ hx) hp hb
    · exact h.set (v := s.client) (fun _ _ _ hans => hans) (fun _ hl => by cases hj.symm.trans hl)
        (fun _ hl => by cases hj.symm.trans hl)
  · have hfresh := fresh_retry x
    exact h.set (v := s.client) (fun _ _ _ hans => hans) (fun _ hl => by simp [hfresh.results hl])
      (fun _ hl => absurd hl hfresh.not_returned)
  · exact h.set (fun _ _ _ => answered_of_start hv) (fun _ hp => by cases hp) (fun _ hp => by cases hp)

end KeptOut

section Runs

variable {lockExpiry : ℤ} {callers : ℕ → Bool} {s t u : State} {r op op' : ℕ}
  {es tr : List LockEvent} {x : Call}

theorem foldl_collect_of_some {calls : ℕ → Option Call} (es : List LockEvent)
    (hx : calls op = some x) :
    ∃ y, es.foldl collect calls op = some y ∧ y.kind = x.kind ∧ y.rootIds = x.rootIds ∧
      y.phase = x.phase := by
  induction es generalizing calls x with
  | nil => exact ⟨x,hx,rfl,rfl,rfl⟩
  | cons e es ih =>
    have hone : ∃ y, collect calls e op = some y ∧ y.kind = x.kind ∧ y.rootIds = x.rootIds ∧
        y.phase = x.phase := by
      cases e with
      | call i c => exact ⟨x,hx,rfl,rfl,rfl⟩
      | released i col => exact ⟨x,hx,rfl,rfl,rfl⟩
      | ret i c b =>
        by_cases hop : op = i.operationId
        · subst hop
          exact ⟨addResult x c b,by rw [collect_ret_self,hx,Option.map_some],by simp,by simp,by simp⟩
        · exact ⟨x,(collect_ret_of_ne calls hop c b).trans hx,rfl,rfl,rfl⟩
    obtain ⟨y,hy,hkind,hroots,hphase⟩ := hone
    obtain ⟨z,hz,hkind',hroots',hphase'⟩ := ih hy
    exact ⟨z,hz,hkind'.trans hkind,hroots'.trans hroots,hphase'.trans hphase⟩

theorem calls_of_step (hx : s.calls op = some x)
    (hp : x.phase = .returned true ∨ x.phase = .releasing) {a : Action}
    (hs : step lockExpiry callers s a = some (es,u)) :
    ∃ y, u.calls op = some y ∧ y.kind = x.kind ∧ y.rootIds = x.rootIds ∧
      (y.phase = x.phase ∨ y.phase = .releasing) := by
  have hset : ∀ {o v y}, (o = op → y.kind = x.kind ∧ y.rootIds = x.rootIds ∧
      (y.phase = x.phase ∨ y.phase = .releasing)) → ∃ z, (State.set ⟨v,s.calls⟩ o y).calls op = some z ∧
        z.kind = x.kind ∧ z.rootIds = x.rootIds ∧ (z.phase = x.phase ∨ z.phase = .releasing) := by
    intro o v y hy
    by_cases ho : op = o
    · subst ho
      exact ⟨y,by simp [State.set],hy rfl⟩
    · exact ⟨x,by simpa [State.set,ho] using hx,rfl,rfl,Or.inl rfl⟩
  have hsame : ∀ {o y}, s.calls o = some y → o = op → y = x := fun hy ho =>
    Option.some.inj ((ho ▸ hy).symm.trans hx)
  rcases step_cases hs with ⟨o,y,-,hnone,-,-,rfl⟩ | ⟨o,n,y,root,c,v,hy,-,hc,-,rfl⟩ |
    ⟨b,v,-,-,-,rfl⟩ | ⟨i,c,st,-,-,-,rfl⟩ | ⟨o,y,hy,hl,-,-,rfl⟩ | ⟨o,y,hy,hl,-,-,rfl⟩ |
    ⟨o,y,root,v,hy,-,-,rfl⟩
  · refine hset (v := s.client) fun ho => ?_
    cases (ho ▸ hnone).symm.trans hx
  · refine hset fun ho => ?_
    rw [hsame hy ho,poolCall] at hc
    rcases hp with hp | hp <;> simp [hp] at hc
  · obtain ⟨y,hy,hkind,hroots,hphase⟩ := foldl_collect_of_some es hx
    exact ⟨y,hy,hkind,hroots,Or.inl hphase⟩
  · obtain ⟨y,hy,hkind,hroots,hphase⟩ := foldl_collect_of_some [.ret i c false] hx
    exact ⟨y,hy,hkind,hroots,Or.inl hphase⟩
  · refine hset (v := s.client) fun ho => ?_
    rw [hsame hy ho] at hl
    rcases hp with hp | hp <;> cases hp.symm.trans hl
  · refine hset (v := s.client) fun ho => ?_
    rw [hsame hy ho] at hl
    rcases hp with hp | hp <;> cases hp.symm.trans hl
  · refine hset fun ho => ?_
    obtain rfl := hsame hy ho
    exact ⟨rfl,rfl,Or.inr rfl⟩

theorem Invariant.of_reachable (h : Reachable (machine lockExpiry callers) sequential s) :
    Invariant callers s :=
  Reachable.invariant h (fun _ => of_init) fun _ _ _ _ hi hok hs => hi.of_step hok hs

theorem Invariant.granted (h : Invariant callers s) {kind : LockKind}
    (hg : Gained s op kind r) : Granted s.client kind op (rootKey r) := by
  obtain ⟨x,hx,rfl,hp,hr⟩ := hg
  have hsound := h.sound op x hx
  rw [phaseSound_returned hp] at hsound
  exact hsound.1 r hr

/-- Until an operation releases the root that it has locked indefinitely, no operation gets it that
calls later. -/
theorem keptOut_of_run (h : Reachable (machine lockExpiry callers) sequential s)
    (hg : Gained s op .indefinite r) (hop : callers op' = true) (hnone : s.calls op' = none)
    (hrun : Exec (machine lockExpiry callers) sequential s tr t) (ht : Gained t op .indefinite r) :
    KeptOut r op' t := by
  have hi := Invariant.of_reachable h
  have hkept := hrun.induct (P := fun _ t => Invariant callers t ∧
    ((∃ x, t.calls op = some x ∧ x.phase = .releasing) ∨
      Gained t op .indefinite r ∧ KeptOut r op' t)) ?_ ?_
  · rcases hkept.2 with ⟨x,hx,hp⟩ | hkept
    · obtain ⟨y,hy,-,hp',-⟩ := ht
      cases hx.symm.trans hy
      cases hp.symm.trans hp'
    · exact hkept.2
  · exact ⟨hi,Or.inr ⟨hg,KeptOut.of_idle (hi.idle op' hop hnone _) hnone⟩⟩
  · rintro tr t a es u - ⟨hi,hcase⟩ hok hs
    refine ⟨hi.of_step hok hs,?_⟩
    rcases hcase with ⟨x,hx,hp⟩ | ⟨⟨x,hx,hkind,hp,hr⟩,hkept⟩
    · obtain ⟨y,hy,-,-,hp'⟩ := calls_of_step hx (Or.inr hp) hs
      exact Or.inl ⟨y,hy,hp'.elim (fun hp' => hp'.trans hp) id⟩
    · obtain ⟨y,hy,hkind',hroots,hp'⟩ := calls_of_step hx (Or.inl hp) hs
      have howned : Owned (indefiniteVersions t.client.table (rootKey r)) op :=
        hi.granted ⟨x,hx,hkind,hp,hr⟩
      rcases hp' with hp' | hp'
      · exact Or.inr ⟨⟨y,hy,hkind'.trans hkind,hp'.trans hp,hroots ▸ hr⟩,
          hkept.of_step hi howned.1 hok hs⟩
      · exact Or.inl ⟨y,hy,hp'⟩

theorem sequential_of_unlocksServed (s : State) (a : Action) (h : unlocksServed s a) :
    sequential s a := by
  cases a <;> first | exact h | trivial

theorem Clean.of_reachable (h : Reachable (machine lockExpiry callers) unlocksServed s) :
    Invariant callers s ∧ Clean callers s :=
  Reachable.invariant (P := fun s => Invariant callers s ∧ Clean callers s) h
    (fun _ hinit => ⟨Invariant.of_init hinit,Clean.of_init hinit⟩) fun _ _ _ _ hi hok hs =>
      ⟨hi.1.of_step (sequential_of_unlocksServed _ _ hok) hs,hi.2.of_step hi.1 hok hs⟩

theorem invariant_of_reachable
    (h : Reachable (machine lockExpiry callers) (deletesDeletable lockExpiry) s) :
    HBase.Invariant lockExpiry s.client :=
  Reachable.invariant (P := fun s => HBase.Invariant lockExpiry s.client) h
    (fun _ hinit => HBase.Invariant.of_init hinit.1) fun _ _ _ _ hi hok hs =>
      invariant_of_step hi hok hs

end Runs

/-- An operation that was told to have its roots owns their indefinite columns, alone among the
calls of that kind, and until it releases them no later call of either kind gets one; or it holds
them temporally, alone until that expires if no delete hits an unexpired lock of another one. What
a call that returned `False` had locked is gone, if the requests of its unlocks were executed. -/
theorem roots_locked (lockExpiry : ℤ) (callers : ℕ → Bool) {s : State}
    (h : Reachable (machine lockExpiry callers) sequential s) :
    (∀ op r, Gained s op .indefinite r →
      Owned (indefiniteVersions s.client.table (rootKey r)) op ∧
      (∀ op', Gained s op' .indefinite r → op' = op) ∧
      ∀ tr t, Exec (machine lockExpiry callers) sequential s tr t → Gained t op .indefinite r →
        ∀ op' kind, s.calls op' = none → ¬ Gained t op' kind r) ∧
    (∀ op r, Gained s op .temporal r → ∃ ts, s.client.hold op (rootKey r) = some ts ∧
      (Reachable (machine lockExpiry callers) (deletesDeletable lockExpiry) s →
        Unexpired lockExpiry s.client.now ts →
        ∀ op', Holds lockExpiry s.client op' (rootKey r) → op' = op)) ∧
    (Reachable (machine lockExpiry callers) unlocksServed s → ∀ op x, s.calls op = some x →
      (x.phase = .returned true → ∀ k, Has s.client x.kind op k → ∃ r ∈ x.rootIds, k = rootKey r) ∧
      (x.phase = .returned false → ∀ k, ¬ Has s.client x.kind op k)) := by
  have hi := Invariant.of_reachable h
  refine ⟨fun op r hg => ⟨hi.granted hg,fun op' hg' => ?_,fun tr t hrun ht op' kind hnone hg' => ?_⟩,
    fun op r hg => ?_,fun hserved op x hx => ⟨fun hp => ?_,fun hp => ?_⟩⟩
  · exact Owned.unique (hi.granted hg') (hi.granted hg)
  · obtain ⟨y,hy,-,hp,hr⟩ := hg'
    have hop := (Invariant.of_reachable (h.extend hrun)).called op' y hy
    exact (keptOut_of_run h hg hop hnone hrun ht).roots y hy hp hr
  · obtain ⟨ts,hts⟩ := hi.granted hg
    refine ⟨ts,hts,fun hdel hun op' hholds => ?_⟩
    exact (invariant_of_reachable hdel).mutualExclusion _ _ _ hholds ⟨ts,hts,hun⟩
  · exact (leftover_roots (Or.inr hp)).mp ((Clean.of_reachable hserved).2.left op x hx)
  · exact (leftover_none (Or.inl hp)).mp ((Clean.of_reachable hserved).2.left op x hx)

def start : State := ⟨HBase.start,fun _ => none⟩

structure Outcome where
  kind : LockKind
  phase : Phase
  rootIds : List ℕ
  deriving DecidableEq

def State.outcome (s : State) (op : ℕ) : Option Outcome :=
  (s.calls op).map fun x => ⟨x.kind,x.phase,x.rootIds⟩

def served (s : State) (a : Action) : Prop := deletesDeletable threeMinutes s a ∧ unlocksServed s a

instance (s : State) (a : Action) : Decidable (served s a) := inferInstanceAs (Decidable (_ ∧ _))

def exchange (op rootId : ℕ) : List Action :=
  [.client (.serve (rootCaller op rootId)),.client (.resume (rootCaller op rootId))]

/-- The second call finds root 7 indefinitely locked, and the answer for root 9 is lost; it unlocks
both. -/
theorem roots_locked_rollback :
    ∃ s : State, s.outcome 2 = some ⟨.temporal,.returned false,[7,9]⟩ ∧
      Owned (indefiniteVersions s.client.table (rootKey 7)) 1 ∧
      (∀ op', Gained s op' .indefinite 7 → op' = 1) ∧
      (∀ op', Holds threeMinutes s.client op' (rootKey 8) → op' = 3) ∧
      ∀ k, ¬ Has s.client .temporal 2 k := by
  obtain ⟨tr,s,hrun,h₁,h₂,h₃,hnow,hhold⟩ := exists_exec (machine threeMinutes fun _ => true) served
    (s := start)
    (P := fun _ s => s.outcome 1 = some ⟨.indefinite,.returned true,[7]⟩ ∧
      s.outcome 2 = some ⟨.temporal,.returned false,[7,9]⟩ ∧
      s.outcome 3 = some ⟨.temporal,.returned true,[8]⟩ ∧
      s.client.now = 0 ∧ s.client.hold 3 (rootKey 8) = some 0)
    ([.lockRootsIndefinitely 1 [7] (fun _ => some []),.submit 1 0] ++ exchange 1 7 ++
      [.judge 1,.lockRoots 2 [9,7] (fun _ => some []) 1,.submit 2 0,.submit 2 0] ++
      exchange 2 7 ++ exchange 2 7 ++ exchange 2 7 ++
      [.client (.serve (rootCaller 2 9)),.raise (rootCaller 2 9),.judge 2,.submit 2 0,.submit 2 0] ++
      exchange 2 9 ++ exchange 2 7 ++
      [.retry 2,.lockRoots 3 [8] (fun _ => some []) 1,.submit 3 0] ++ exchange 3 8 ++
      exchange 3 8 ++ [.judge 3]) (by decide +kernel)
  have hinit : (machine threeMinutes fun _ => true).init start :=
    ⟨start_init threeMinutes,fun _ => rfl⟩
  obtain ⟨x,hx,hout₁⟩ := Option.map_eq_some_iff.mp h₁
  obtain ⟨y,hy,hout₂⟩ := Option.map_eq_some_iff.mp h₂
  obtain ⟨z,hz,hout₃⟩ := Option.map_eq_some_iff.mp h₃
  simp only [Outcome.mk.injEq] at hout₁ hout₂ hout₃
  have hserved : Reachable (machine threeMinutes fun _ => true) unlocksServed s :=
    ⟨_,_,hinit,hrun.weaken fun _ _ hok => hok.2⟩
  have hdel : Reachable (machine threeMinutes fun _ => true) (deletesDeletable threeMinutes) s :=
    ⟨_,_,hinit,hrun.weaken fun _ _ hok => hok.1⟩
  obtain ⟨hindef,htemp,hleft⟩ := roots_locked threeMinutes (fun _ => true)
    (hserved.weaken sequential_of_unlocksServed)
  obtain ⟨hown,hsole,-⟩ := hindef 1 7 ⟨x,hx,hout₁.1,hout₁.2.1,by simp [hout₁.2.2]⟩
  obtain ⟨ts,hts,hexcl⟩ := htemp 3 8 ⟨z,hz,hout₃.1,hout₃.2.1,by simp [hout₃.2.2]⟩
  obtain rfl : ts = 0 := Option.some.inj (hts.symm.trans hhold)
  refine ⟨s,h₂,hown,hsole,hexcl hdel (by rw [hnow]; decide),?_⟩
  have hno := (hleft hserved 2 y hy).2 hout₂.2.1
  rwa [hout₂.1] at hno

end LockRoots
end HBase
end KvdbClient
