import KvdbClient.HBaseRestReads
import KvdbClient.HBaseRestServer
import KvdbClient.HBaseSingleOwner
import KvdbClient.NodeVersions

/-! The lock operations of the HBase client down to their URLs and JSON bodies, and that they have the
runs of the operations as single requests. -/
namespace KvdbClient
namespace HBase.Rest

open Wire Transition

section Client

def indefiniteLockAttribute : RegisteredAttribute := ⟨Concurrency.indefiniteLock.toColumn,.uint64String⟩

def reads : Stage → Option RegisteredAttribute
  | .acquireRead => some lockAttribute
  | .readIndefinite _ => some indefiniteLockAttribute
  | _ => none

def sent (t : TableId) : Request → Option HttpRequest
  | .checkAndPut k check checkValue put v ts => some (HBase.checkAndPut t k check checkValue put v ts)
  | .checkAndDelete k check v => some (HBase.checkAndDelete t k check v)
  | .deleteCell k c => some (HBase.deleteCell t k c)
  | .readByteRow _ _ => none

/-- Whether the status was 200, or the cells that were read. -/
structure Answer (V : Type) where
  success : Bool
  cells : List (ReadCell V)

/-- The loops of the calls as they look at their answers; a cell without a timestamp is not stale. -/
def next {V : Type} (lockExpiry now : ℤ) (c : LockCall) (r : Answer V) : Stage → Next
  | .acquirePut ts => if r.success then acquired c ts else .send .acquireRead
  | .acquireRead =>
    match r.cells with
    | [] => .ret false
    | x :: _ =>
      match x.timestamp with
      | none => .ret false
      | some lockTs => if now - lockTs > lockExpiry then .send .acquireDelete else .ret false
  | .acquireDelete => .send (acquireLockCell now)
  | .readIndefinite _ => if r.cells.isEmpty then .ret true else .send .rollbackDelete
  | .rollbackDelete => .ret false
  | .putIndefinite _ | .release _ | .renew => .ret r.success

inductive Pc (V : Type)
  | idle
  | waiting (c : LockCall) (st : Stage)
  | answered (c : LockCall) (st : Stage) (r : Answer V)

structure State (V : Type) where
  now : ℤ
  tables : Tables
  pc : Caller → Pc V

variable {V : Type} (attributes : Attributes) (p : Paging) (decode : RegisteredAttribute → Bytes → V)
  (maxRowKeyCount : ℕ)

def readByteRow (store : List StoredCell) (columns : Attrs) (w : Window) (rowKey : Bytes) :
    Except RestError (ReadRow V) := do
  let rows ← readByteRows attributes p store decode columns w maxRowKeyCount (.ofKeys [rowKey]) none
  return (rows.get? rowKey).getD (if singleColumn columns then .single [] else .columns .empty)

def ReadRow.cells : ReadRow V → List (ReadCell V)
  | .columns _ => []
  | .single l => l

variable (t : TableId)

/-- What a call gets for the request of a stage, and the tables then; nothing if it raises. -/
def answer (now : ℤ) (tables : Tables) (i : Caller) (st : Stage) : Option (Answer V × Tables) :=
  match reads st with
  | some a =>
    match readByteRow attributes p decode maxRowKeyCount
      (storedCells ((tables.get? t.name).getD .empty)) (.one a) .unbounded i.rowKey with
    | .ok row => some (⟨true,row.cells⟩,tables)
    | .error _ => none
  | none =>
    ((sent t (st.request i.rowKey i.operationId)).bind (handle now tables)).map fun r =>
      (⟨r.1,[]⟩,r.2)

def State.setPc (s : State V) (i : Caller) (pc : Pc V) : State V :=
  { s with pc := Function.update s.pc i pc }

/-- A call that raises is over without having returned. -/
def step (lockExpiry : ℤ) (s : State V) : Action → Option (List LockEvent × State V)
  | .tick d => some ([],{ s with now := s.now + d })
  | .start i c =>
    match s.pc i with
    | .idle =>
      if c.rowKey = i.rowKey then
        some ([.call i c],s.setPc i (.waiting c (firstRequest s.now c)))
      else none
    | _ => none
  | .serve i =>
    match s.pc i with
    | .waiting c st =>
      match answer attributes p decode maxRowKeyCount t s.now s.tables i st with
      | some (r,tables) => some (servedEvents i st r.success,
          { s with tables := tables }.setPc i (.answered c st r))
      | none => some ([],s.setPc i .idle)
    | _ => none
  | .resume i =>
    match s.pc i with
    | .answered c st r =>
      match next lockExpiry s.now c r st with
      | .send st' => some ([],s.setPc i (.waiting c st'))
      | .ret b => some ([.ret i c b],s.setPc i .idle)
    | _ => none

end Client

section Reading

variable {V : Type} {attributes : Attributes} (decode : RegisteredAttribute → Bytes → V) {p : Paging}
  {maxRowKeyCount : ℕ} {a : RegisteredAttribute} {rows : Rows}

def Reads (x : ReadCell V) (v : Version) : Prop := x.timestamp = some (hbaseTsToDatetime v.ts)

theorem versions_storedCells (reg : Registry (Option V)) (k : Bytes) (c : Column) :
    HBase.versions reg (storedCells rows) c .unbounded k =
      (versionsAt rows k c).list.map fun v => ⟨reg.deserialize c v.value,hbaseTsToDatetime v.ts⟩ := by
  have hall : (fun x : StoredCell => decide (x.rowKey = k ∧ x.column = c ∧
      Window.unbounded.Admits (1000*x.timestamp))) = fun x => decide (x.rowKey = k ∧ x.column = c) := by
    funext x
    simp [Window.Admits,Window.unbounded]
  rw [HBase.versions,hall,filter_storedCells,List.map_map]
  exact List.map_congr_left fun v _ => by
    rw [Function.comp_apply,hbaseTsToDatetime,mul_comm]
    rfl

theorem readByteRow_versions (hcons : Consistent attributes) (ha : Registered attributes a)
    (hname : Named a.toColumn) (hrows : ∀ x ∈ storedCells rows, Named x.column)
    (hp : p.KeepsRows (storedCells rows)) (hmax : 0 < maxRowKeyCount) (k : Bytes) :
    ∃ row, readByteRow attributes p decode maxRowKeyCount (storedCells rows) (.one a) .unbounded k =
        .ok row ∧ List.Forall₂ Reads row.cells (versionsAt rows k a.toColumn).list := by
  have hcols : ∀ b ∈ (Attrs.one a).listed, Registered attributes b ∧ Named b.toColumn :=
    fun b hb => (List.mem_singleton.mp hb) ▸ ⟨ha,hname⟩
  have hreads : SameReads (readByteRows attributes p (storedCells rows) decode (.one a) .unbounded
      maxRowKeyCount (.ofKeys [k]) none) (HBase.readByteRows (attributes.registry decode) p
        (storedCells rows) (.one a.toColumn) .unbounded maxRowKeyCount (.ofKeys [k]) none) :=
    readByteRows_rel hcons hrows hcols p .unbounded maxRowKeyCount (.ofKeys [k]) none
  obtain ⟨d',hd',hget⟩ := readByteRows_spec (attributes.registry decode) (.one a.toColumn) .unbounded hp
    (fun c hc _ => (hrows c hc).decodable) maxRowKeyCount (.ofKeys [k])
    (Or.inl (by simp [RowSelection.ofKeys])) (fun _ => hmax) none
  rw [hd'] at hreads
  rw [readByteRow]
  cases hd : readByteRows attributes p (storedCells rows) decode (.one a) .unbounded maxRowKeyCount
    (.ofKeys [k]) none with
  | error e =>
    rw [hd] at hreads
    cases e <;> exact hreads.elim
  | ok d =>
    rw [hd] at hreads
    refine ⟨_,rfl,?_⟩
    have hrow := RelatedDicts.Related.get? RelatedDicts.biUnique_eq hreads (rfl : k = k)
    have hk := hget k
    simp only [RowSelection.ofKeys,RowSelection.selects,List.mem_singleton,decide_true,if_true] at hk
    rw [hk,rowResult_one (attributes.registry decode) _ _ _ k
      (Attributes.registered_registry_iff.mpr ⟨⟨a,ha⟩,hname.decodable⟩),versions_storedCells,
      rowOf] at hrow
    change List.Forall₂ Reads ((d.get? k).getD (.single [])).cells _
    revert hrow
    generalize d.get? k = row
    intro hrow
    split at hrow
    next hnil =>
      cases hrow
      rw [List.map_eq_nil_iff.mp hnil]
      exact .nil
    next =>
      cases hrow with
      | @some row _ hsame =>
        cases row with
        | columns d => exact hsame.elim
        | single l => exact (List.forall₂_map_right_iff.mp hsame).imp fun _ _ h => h.2

end Reading

section Answers

theorem named_of_lockColumn {c : Column} (h : LockColumn c) : Named c := by
  rcases h with rfl | rfl
  · exact ⟨by decide,['l','o','c','k'],by decide⟩
  · exact ⟨by decide,['i','n','d','e','f','i','n','i','t','e','_','l','o','c','k'],by decide⟩

theorem spec_of_lockColumn {c : Column} (h : LockColumn c) :
    IsSegment c ∧ columnOf (HBase.buildColumnSpec c) = some c := by
  rcases h with rfl | rfl <;> decide

def OfLock (st : Stage) : Prop := ∀ c, st = .release c → LockColumn c

theorem ofLock_firstRequest (now : ℤ) (c : LockCall) : OfLock (firstRequest now c) := by
  intro col h
  cases c <;> cases h <;> first | exact Or.inl rfl | exact Or.inr rfl

theorem ofLock_next {lockExpiry now : ℤ} {c : LockCall} {r : Response} {st st' : Stage}
    (h : HBase.next lockExpiry now c r st = .send st') : OfLock st' := by
  intro col hcol
  subst hcol
  cases st with
  | acquirePut ts =>
    simp only [HBase.next,acquired] at h
    split at h
    · split at h <;> cases h
    · cases h
  | acquireRead =>
    simp only [HBase.next] at h
    split at h
    · cases h
    · split at h <;> cases h
  | readIndefinite ts =>
    simp only [HBase.next] at h
    split at h <;> cases h
  | acquireDelete => cases h
  | rollbackDelete | putIndefinite _ | release _ | renew => cases h

def NamesAll (table : Table) : Prop := ∀ k c, (table k c).list ≠ [] → Named c

theorem NamesAll.set {table : Table} (h : NamesAll table) {c : Column} (hc : LockColumn c) (k : Bytes)
    (vs : Versions) : NamesAll (table.set k c vs) := by
  intro k' c' hne
  by_cases heq : k' = k ∧ c' = c
  · exact heq.2 ▸ named_of_lockColumn hc
  · rw [Table.set_of_ne heq] at hne
    exact h k' c' hne

theorem NamesAll.serve {table : Table} (h : NamesAll table) {st : Stage} (hst : OfLock st) (now : ℤ)
    (k : Bytes) (op : ℕ) : NamesAll (HBase.serve now table (st.request k op)).2 := by
  cases st with
  | acquirePut ts | renew =>
    simp only [Stage.request,HBase.serve]
    split
    · exact h.set (Or.inl rfl) _ _
    · exact h
  | putIndefinite ts =>
    simp only [Stage.request,HBase.serve]
    split
    · exact h.set (Or.inr rfl) _ _
    · exact h
  | release c =>
    simp only [Stage.request,HBase.serve]
    split
    · exact h.set (hst c rfl) _ _
    · exact h
  | acquireDelete | rollbackDelete => exact h.set (Or.inl rfl) _ _
  | acquireRead | readIndefinite ts => exact h

theorem NamesAll.storedCells {rows : Rows} (h : NamesAll (versionsAt rows)) :
    ∀ x ∈ storedCells rows, Named x.column := by
  intro x hx
  refine h x.rowKey x.column fun hnil => ?_
  have hmem : x ∈ (Rest.storedCells rows).filter fun y => y.rowKey = x.rowKey ∧ y.column = x.column :=
    List.mem_filter.mpr ⟨hx,by simp⟩
  rw [filter_storedCells,hnil] at hmem
  cases hmem

variable {V : Type} {attributes : Attributes} (decode : RegisteredAttribute → Bytes → V) {p : Paging}
  {maxRowKeyCount : ℕ}

def SameAnswer (r : Answer V) (r' : Response) : Prop :=
  r.success = r'.success ∧ List.Forall₂ Reads r.cells r'.cells

theorem next_eq {r : Answer V} {r' : Response} (h : SameAnswer r r') (lockExpiry now : ℤ) (c : LockCall)
    (st : Stage) : next lockExpiry now c r st = HBase.next lockExpiry now c r' st := by
  obtain ⟨success,cells⟩ := r
  obtain ⟨success',cells'⟩ := r'
  obtain ⟨rfl,hcells⟩ := h
  cases hcells with
  | nil => cases st <;> rfl
  | cons hx _ =>
    rw [Reads] at hx
    cases st <;> first | rfl | simp only [next,HBase.next,hx]

/-- The process has the attributes of both locks, and responses keep rows whole. -/
structure ReadsLocks (attributes : Attributes) (p : Paging) (maxRowKeyCount : ℕ) : Prop where
  consistent : Consistent attributes
  lock : Registered attributes lockAttribute
  indefinite : Registered attributes indefiniteLockAttribute
  keepsRows : ∀ store, p.KeepsRows store
  positive : 0 < maxRowKeyCount

variable (hread : ReadsLocks attributes p maxRowKeyCount) {t : TableId} {tables : Tables}
  (hnames : NamesAll (view t tables)) {i : Caller} (hk : Addressable i.rowKey)
include hread hnames

theorem answer_read {st : Stage} {a : RegisteredAttribute} (ha : reads st = some a)
    (hreg : Registered attributes a) (hname : Named a.toColumn) (now : ℤ) :
    ∃ r, answer attributes p decode maxRowKeyCount t now tables i st = some (r,tables) ∧
      SameAnswer r ⟨true,(view t tables i.rowKey a.toColumn).list⟩ := by
  obtain ⟨row,hrow,hcells⟩ := readByteRow_versions decode hread.consistent hreg hname
    hnames.storedCells (hread.keepsRows _) hread.positive i.rowKey
  exact ⟨⟨true,row.cells⟩,by simp only [answer,ha,hrow],rfl,hcells⟩

omit hread hnames in
theorem answer_sent {st : Stage} (hreads : reads st = none) {now : ℤ} {http : HttpRequest}
    (hsent : sent t (st.request i.rowKey i.operationId) = some http)
    (h : ∃ tables', handle now tables http =
        some ((serve now (view t tables) (st.request i.rowKey i.operationId)).1.success,tables') ∧
      Serves t tables tables' (serve now (view t tables) (st.request i.rowKey i.operationId)).2) :
    ∃ r tables', answer attributes p decode maxRowKeyCount t now tables i st = some (r,tables') ∧
      SameAnswer r (serve now (view t tables) (st.request i.rowKey i.operationId)).1 ∧
      Serves t tables tables' (serve now (view t tables) (st.request i.rowKey i.operationId)).2 := by
  obtain ⟨tables',hhandle,hserves⟩ := h
  refine ⟨_,tables',by simp only [answer,hreads,hsent,Option.bind_some,hhandle]; rfl,⟨rfl,?_⟩,hserves⟩
  have hcells : (serve now (view t tables) (st.request i.rowKey i.operationId)).1.cells = [] := by
    generalize st.request i.rowKey i.operationId = request at hsent
    cases request with
    | checkAndPut | checkAndDelete =>
      simp only [HBase.serve]
      split <;> rfl
    | deleteCell => rfl
    | readByteRow => cases hsent
  rw [hcells]
  exact .nil

include hk

/-- The request of a stage has over HTTP the answer that it has by itself. -/
theorem answer_eq {st : Stage} (hst : OfLock st) (now : ℤ) :
    ∃ r tables', answer attributes p decode maxRowKeyCount t now tables i st = some (r,tables') ∧
      SameAnswer r (serve now (view t tables) (st.request i.rowKey i.operationId)).1 ∧
      Serves t tables tables' (serve now (view t tables) (st.request i.rowKey i.operationId)).2 := by
  have hlock := spec_of_lockColumn (Or.inl rfl : LockColumn Concurrency.lock.toColumn)
  have hindefinite := spec_of_lockColumn (Or.inr rfl : LockColumn Concurrency.indefiniteLock.toColumn)
  cases st with
  | acquireRead =>
    obtain ⟨r,hr,hsame⟩ := answer_read decode hread hnames (i := i)
      (rfl : reads .acquireRead = some lockAttribute) hread.lock (named_of_lockColumn (Or.inl rfl)) now
    exact ⟨r,tables,hr,hsame,rfl,fun _ _ => rfl⟩
  | readIndefinite ts =>
    obtain ⟨r,hr,hsame⟩ := answer_read decode hread hnames (i := i)
      (rfl : reads (.readIndefinite ts) = some indefiniteLockAttribute) hread.indefinite
      (named_of_lockColumn (Or.inr rfl)) now
    exact ⟨r,tables,hr,hsame,rfl,fun _ _ => rfl⟩
  | acquirePut ts | renew => exact answer_sent decode rfl rfl (handle_checkAndPut hk hlock ..)
  | putIndefinite ts => exact answer_sent decode rfl rfl (handle_checkAndPut hk hindefinite ..)
  | release c =>
    exact answer_sent decode rfl rfl (handle_checkAndDelete hk (spec_of_lockColumn (hst c rfl)) ..)
  | acquireDelete | rollbackDelete => exact answer_sent decode rfl rfl (handle_deleteCell hk hlock ..)

end Answers

section Refinement

variable {V : Type} {attributes : Attributes} {decode : RegisteredAttribute → Bytes → V} {p : Paging}
  {maxRowKeyCount : ℕ} {t : TableId} {lockExpiry : ℤ}

variable (attributes decode p maxRowKeyCount t lockExpiry) in
def machine : Machine (State V) Action LockEvent where
  init s := (∀ k, (view t s.tables k Concurrency.lock.toColumn).list = [] ∧
      (view t s.tables k Concurrency.indefiniteLock.toColumn).list = []) ∧ ∀ i, s.pc i = .idle
  step := step attributes p decode maxRowKeyCount t lockExpiry

def Addressed (ok : Action → Prop) (a : Action) : Prop :=
  (match a with
    | .start i _ => Addressable i.rowKey
    | _ => True) ∧ ok a

instance (ok : Action → Prop) [DecidablePred ok] (a : Action) : Decidable (Addressed ok a) :=
  match a with
  | .start i _ => inferInstanceAs (Decidable (Addressable i.rowKey ∧ _))
  | .tick _ => inferInstanceAs (Decidable (True ∧ _))
  | .serve _ => inferInstanceAs (Decidable (True ∧ _))
  | .resume _ => inferInstanceAs (Decidable (True ∧ _))

/-- A call of the one client where the other one has it. -/
inductive Follows (i : Caller) : Pc V → HBase.Pc → Prop
  | idle : Follows i .idle .idle
  | waiting {c st} : Addressable i.rowKey → OfLock st → Follows i (.waiting c st) (.waiting c st)
  | answered {c st r r'} : Addressable i.rowKey → SameAnswer r r' →
      Follows i (.answered c st r) (.answered c st r')

/-- The client over HTTP and the one of single requests see the same table of the same calls, and the
other tables are as they were. -/
structure Refines (t : TableId) (tables₀ : Tables) (s : State V) (u : HBase.State) : Prop where
  now : u.now = s.now
  table : u.table = view t s.tables
  names : NamesAll u.table
  calls : ∀ i, Follows i (s.pc i) (u.pc i)
  others : ∀ name, name ≠ t.name → s.tables.get? name = tables₀.get? name

def State.abstract (t : TableId) (s : State V) : HBase.State :=
  ⟨s.now,view t s.tables,fun _ => .idle,fun _ _ => none⟩

variable {tables₀ : Tables} {s : State V} {u : HBase.State}

theorem follows_update {i : Caller} {pc : Pc V} {pc' : HBase.Pc} (h : ∀ j, Follows j (s.pc j) (u.pc j))
    (hi : Follows i pc pc') :
    ∀ j, Follows j (Function.update s.pc i pc j) (Function.update u.pc i pc' j) := by
  intro j
  by_cases hj : j = i
  · subst hj
    rw [Function.update_self,Function.update_self]
    exact hi
  · rw [Function.update_of_ne hj,Function.update_of_ne hj]
    exact h j

theorem Refines.setPc (h : Refines t tables₀ s u) {i : Caller} {pc : Pc V} {pc' : HBase.Pc}
    (hi : Follows i pc pc') : Refines t tables₀ (s.setPc i pc) (u.setPc i pc') :=
  ⟨h.now,h.table,h.names,follows_update h.calls hi,h.others⟩

theorem Refines.setHold (h : Refines t tables₀ s u) (i : Caller) (f : Option ℤ → Option ℤ) :
    Refines t tables₀ s (u.setHold i f) :=
  ⟨h.now,h.table,h.names,h.calls,h.others⟩

/-- An action is refused by both machines or taken by both, with the same events. -/
theorem Refines.step (hread : ReadsLocks attributes p maxRowKeyCount) (h : Refines t tables₀ s u)
    {ok : Action → Prop} {a : Action} (ha : Addressed ok a) :
    (step attributes p decode maxRowKeyCount t lockExpiry s a = none ∧
      HBase.step lockExpiry u a = none) ∨
    ∃ es s' u', step attributes p decode maxRowKeyCount t lockExpiry s a = some (es,s') ∧
      HBase.step lockExpiry u a = some (es,u') ∧ Refines t tables₀ s' u' := by
  cases a with
  | tick d =>
    exact Or.inr ⟨_,_,_,rfl,rfl,congrArg (· + (d : ℤ)) h.now,h.table,h.names,h.calls,h.others⟩
  | start i c =>
    have hi := h.calls i
    simp only [Rest.step,HBase.step]
    generalize s.pc i = pc at hi ⊢
    generalize u.pc i = pc' at hi ⊢
    cases hi with
    | idle =>
      by_cases hkey : c.rowKey = i.rowKey
      · rw [if_pos hkey,if_pos ⟨rfl,hkey⟩,h.now]
        exact Or.inr ⟨_,_,_,rfl,rfl,h.setPc (.waiting ha.1 (ofLock_firstRequest _ _))⟩
      · exact Or.inl ⟨if_neg hkey,if_neg fun h => hkey h.2⟩
    | waiting | answered => exact Or.inl ⟨rfl,if_neg (by simp)⟩
  | serve i =>
    have hi := h.calls i
    simp only [Rest.step,HBase.step]
    generalize s.pc i = pc at hi ⊢
    generalize u.pc i = pc' at hi ⊢
    cases hi with
    | idle | answered => exact Or.inl ⟨rfl,rfl⟩
    | @waiting c st hk hst =>
      obtain ⟨r,tables,hanswer,hsame,hview,hothers⟩ :=
        answer_eq decode hread (h.table ▸ h.names) hk hst s.now
      simp only [hanswer,serveCall,h.now,h.table]
      rw [hsame.1]
      refine Or.inr ⟨_,_,_,rfl,rfl,?_⟩
      refine Refines.setPc ?_ (.answered hk hsame)
      have hnames : NamesAll (view t s.tables) := h.table ▸ h.names
      exact ⟨rfl,hview.symm,hnames.serve hst _ _ _,h.calls,fun name hname =>
        (hothers name hname).trans (h.others name hname)⟩
  | resume i =>
    have hi := h.calls i
    simp only [Rest.step,HBase.step]
    generalize s.pc i = pc at hi ⊢
    generalize u.pc i = pc' at hi ⊢
    cases hi with
    | idle | waiting => exact Or.inl ⟨rfl,rfl⟩
    | @answered c st r r' hk hsame =>
      refine Or.inr ?_
      simp only [next_eq hsame,resumeCall,h.now]
      cases hnext : HBase.next lockExpiry s.now c r' st with
      | send st' => exact ⟨_,_,_,rfl,rfl,h.setPc (.waiting hk (ofLock_next hnext))⟩
      | ret b => exact ⟨_,_,_,rfl,rfl,(h.setHold i _).setPc .idle⟩

variable (decode lockExpiry) in
/-- On addressable row keys the lock operations have over HTTP the runs that they have as single
requests, no more and no fewer: no call raises, and the other tables stay as they are. -/
theorem locks_overHttp (hread : ReadsLocks attributes p maxRowKeyCount) (ok : Action → Prop)
    (hinit : (machine attributes decode p maxRowKeyCount t lockExpiry).init s)
    (hnames : NamesAll (view t s.tables)) :
    (HBase.machine lockExpiry).init (s.abstract t) ∧
    (∀ tr s', Exec (machine attributes decode p maxRowKeyCount t lockExpiry)
        (fun _ => Addressed ok) s tr s' →
      ∃ u, Exec (HBase.machine lockExpiry) (fun _ => Addressed ok) (s.abstract t) tr u ∧
        Refines t s.tables s' u) ∧
    ∀ tr u, Exec (HBase.machine lockExpiry) (fun _ => Addressed ok) (s.abstract t) tr u →
      ∃ s', Exec (machine attributes decode p maxRowKeyCount t lockExpiry)
        (fun _ => Addressed ok) s tr s' ∧ Refines t s.tables s' u := by
  have hstart : Refines t s.tables s (s.abstract t) :=
    ⟨rfl,rfl,hnames,fun i => by rw [hinit.2 i]; exact .idle,fun _ _ => rfl⟩
  refine ⟨⟨hinit.1,fun _ => rfl,fun _ _ => rfl⟩,fun tr s' hrun => ?_,fun tr u hrun => ?_⟩
  · refine Simulates.exec (R := Refines t s.tables) (fun s u a es s' h hok hs => ?_) hrun hstart
    obtain ⟨hnone,-⟩ | ⟨es',s'',u',hs',hu',h'⟩ := h.step hread hok
    · cases hs.symm.trans hnone
    · obtain ⟨rfl,rfl⟩ := Prod.mk.inj (Option.some.inj (hs.symm.trans hs'))
      exact ⟨a,u',hok,hu',h'⟩
  · refine Simulates.exec (R := fun u s' => Refines t s.tables s' u)
      (fun u s a es u' h hok hu => ?_) hrun hstart
    obtain ⟨-,hnone⟩ | ⟨es',s',u'',hs',hu',h'⟩ := h.step hread hok
    · cases hu.symm.trans hnone
    · obtain ⟨rfl,rfl⟩ := Prod.mk.inj (Option.some.inj (hu.symm.trans hu'))
      exact ⟨a,s',hok,hs',h'⟩

end Refinement

def noTables : State Bytes := ⟨0,.empty,fun _ => .idle⟩

/-- An operation finds that the lock of another one has expired, and replaces it. -/
theorem locks_overHttp_expired : ∃ tr s, Exec (machine (.ofProcess []) (fun _ b => b) .whole 1
      sampleTable threeMinutes) (fun _ => Addressed fun _ => True) noTables tr s ∧
    .ret (caller 1) (.lockByRowKey sampleKey) true ∈ tr ∧
    .ret (caller 2) (.lockByRowKey sampleKey) true ∈ tr ∧
    (view sampleTable s.tables sampleKey Concurrency.lock.toColumn).list =
      [⟨uint64String 2,181000⟩] := by
  have hread : ReadsLocks (.ofProcess []) .whole 1 :=
    ⟨consistent_ofProcess [],registered_of_imported (by decide),registered_of_imported (by decide),
      Paging.whole_keepsRows,one_pos⟩
  have hnames : NamesAll (view sampleTable noTables.tables) := fun _ _ h => absurd rfl h
  obtain ⟨-,-,hback⟩ := locks_overHttp (fun _ b => b) threeMinutes hread (fun _ => True)
    (s := noTables) ⟨fun _ => ⟨rfl,rfl⟩,fun _ => rfl⟩ hnames
  obtain ⟨tr,u,hrun,h₁,h₂,hlist⟩ := exists_exec (HBase.machine threeMinutes)
    (fun _ => Addressed fun _ => True) (s := noTables.abstract sampleTable)
    (P := fun tr u => .ret (caller 1) (.lockByRowKey sampleKey) true ∈ tr ∧
      .ret (caller 2) (.lockByRowKey sampleKey) true ∈ tr ∧
      (u.table sampleKey Concurrency.lock.toColumn).list = [⟨uint64String 2,181000⟩])
    [.start (caller 1) (.lockByRowKey sampleKey),.serve (caller 1),.resume (caller 1),
      .tick 181000000,.start (caller 2) (.lockByRowKey sampleKey),.serve (caller 2),
      .resume (caller 2),.serve (caller 2),.resume (caller 2),.serve (caller 2),
      .resume (caller 2),.serve (caller 2),.resume (caller 2)] (by decide +kernel)
  obtain ⟨s,hs,hrefines⟩ := hback tr u hrun
  exact ⟨tr,s,hs,h₁,h₂,hrefines.table ▸ hlist⟩

end HBase.Rest
end KvdbClient
