import KvdbClient.HBaseLocks
import KvdbClient.Rounds

/-! The requests of `_acquire_lock_cell` when the server may refuse any of them and no other client
writes the row: `hbase/client.py`. The outcome of the delete of a stale cell is not looked at. -/
namespace KvdbClient
namespace HBase.Acquire

open Rounds

/-- What a call meets: which requests the server executes, and otherwise answers with an error
status; the client's clock after each of them; and the table. -/
structure Behaviour where
  executes : ℕ → Bool
  clock : ℕ → ℤ
  table : Table

/-- The request that is sent next. A scanner has pages left, and the client what it got of them. -/
inductive Phase
  | checkAndPut
  | createScanner
  | nextPage (pages : List (List Version)) (result : List Version)
  | closeScanner (result : Option (List Version))
  | deleteCell

inductive Outcome
  | returned (acquired : Bool)
  | raised
  deriving DecidableEq

structure State where
  table : Table
  phase : Phase
  sent : ℕ

section Call

variable (rowKey : Bytes) (operationId : ℕ) (column : Column) (deserializes : Bytes → Bool)
  (lockExpiry : ℤ) (b : Behaviour)

def putRequest (s : State) : Request :=
  .checkAndPut rowKey column none column (uint64String operationId)
    (some (putTimestamp (b.clock s.sent)))

/-- An error status tells of no effect. -/
def answer (s : State) (r : Request) : Response × Table :=
  if b.executes s.sent then serve (b.clock s.sent) s.table r else (⟨false,[]⟩,s.table)

def scan (t : Table) : List (List Version) :=
  match (t rowKey column).list with
  | [] => []
  | v::vs => [v::vs]

def State.send (s : State) (phase : Phase) : Outcome ⊕ State :=
  .inr {s with phase := phase,sent := s.sent+1}

/-- What follows the read: a value that is not deserialized raises. -/
def afterRead (s : State) (cells : List Version) : Outcome ⊕ State :=
  if cells.all fun v => deserializes v.value then
    match cells with
    | [] => .inl (.returned false)
    | v::_ =>
      if b.clock s.sent - hbaseTsToDatetime v.ts > lockExpiry then s.send .deleteCell
      else .inl (.returned false)
  else .inl .raised

/-- One request of `_acquire_lock_cell` and what the client does with the answer. -/
def step (s : State) : Outcome ⊕ State :=
  match s.phase with
  | .checkAndPut =>
    let r := answer b s (putRequest rowKey operationId column b s)
    if r.1.success then .inl (.returned true) else {s with table := r.2}.send .createScanner
  | .createScanner =>
    if b.executes s.sent then s.send (.nextPage (scan rowKey column s.table) []) else .inl .raised
  | .nextPage pages result =>
    if b.executes s.sent then
      match pages with
      | [] => s.send (.closeScanner (some result))
      | page::pages => s.send (.nextPage pages page)
    else s.send (.closeScanner none)
  | .closeScanner none => .inl .raised
  | .closeScanner (some cells) => afterRead deserializes lockExpiry b s cells
  | .deleteCell =>
    {s with table := (answer b s (.deleteCell rowKey column)).2}.send .checkAndPut

/-- A round of six requests finds the stale cell and leaves it: the scan is executed, the newest
version has expired by then, and the delete is not executed. -/
def Repeats (j : ℕ) : Prop :=
  (b.executes (6*j+1) = true ∧ b.executes (6*j+2) = true ∧ b.executes (6*j+3) = true) ∧
    ((b.table rowKey column).list.all fun v => deserializes v.value) = true ∧
    (∃ v ∈ (b.table rowKey column).list.head?,
      b.clock (6*j+4) - hbaseTsToDatetime v.ts > lockExpiry) ∧
    b.executes (6*j+5) = false

def start (j : ℕ) : State := ⟨b.table,.checkAndPut,6*j⟩

end Call

section Rounds

variable {rowKey : Bytes} {operationId : ℕ} {column : Column} {deserializes : Bytes → Bool}
  {lockExpiry : ℤ} {b : Behaviour} {t : Table} {n : ℕ}

theorem endsWithin_scan {result : List Version} {pages : List (List Version)}
    (h : b.executes n = false) : EndsWithin (step rowKey operationId column deserializes lockExpiry b) 2
      ⟨t,.nextPage pages result,n⟩ := by
  have hclose : step rowKey operationId column deserializes lockExpiry b ⟨t,.nextPage pages result,n⟩ =
      .inr ⟨t,.closeScanner none,n+1⟩ := by
    simp [step,h,State.send]
  refine EndsWithin.next hclose ?_
  exact endsWithin_of_inl (o := .raised) rfl

theorem step_put_held (h : (t rowKey column).list ≠ []) :
    step rowKey operationId column deserializes lockExpiry b ⟨t,.checkAndPut,n⟩ =
      .inr ⟨t,.createScanner,n+1⟩ := by
  have hanswer : answer b ⟨t,.checkAndPut,n⟩ (putRequest rowKey operationId column b ⟨t,.checkAndPut,n⟩) =
      (⟨false,[]⟩,t) := by
    rw [answer,putRequest]
    split
    · rcases serve_putAbsent (b.clock n) t rowKey column (uint64String operationId)
        (putTimestamp (b.clock n)) with ⟨hserve,-⟩ | ⟨-,hempty⟩
      · exact hserve
      · exact absurd hempty h
    · rfl
  rw [step,hanswer]
  rfl

theorem endsWithin_absent (h : (t rowKey column).list = []) :
    EndsWithin (step rowKey operationId column deserializes lockExpiry b) 4 ⟨t,.checkAndPut,n⟩ := by
  cases hput : b.executes n with
  | true =>
    refine endsWithin_of_inl (o := .returned true) ?_
    rcases serve_putAbsent (b.clock n) t rowKey column (uint64String operationId)
      (putTimestamp (b.clock n)) with ⟨-,hheld⟩ | ⟨hserve,-⟩
    · exact absurd h hheld
    · simp [step,answer,putRequest,hput,hserve]
  | false =>
    have hstep : step rowKey operationId column deserializes lockExpiry b ⟨t,.checkAndPut,n⟩ =
        .inr ⟨t,.createScanner,n+1⟩ := by
      simp [step,answer,hput,State.send]
    refine EndsWithin.next hstep ?_
    cases hcreate : b.executes (n+1) with
    | false => exact endsWithin_of_inl (o := .raised) (by simp [step,hcreate])
    | true =>
      have hscan : step rowKey operationId column deserializes lockExpiry b ⟨t,.createScanner,n+1⟩ =
          .inr ⟨t,.nextPage [] [],n+2⟩ := by
        simp [step,hcreate,State.send,scan,h]
      refine EndsWithin.next hscan ?_
      cases hpage : b.executes (n+2) with
      | false => exact endsWithin_scan hpage
      | true =>
        have hclose : step rowKey operationId column deserializes lockExpiry b
            ⟨t,.nextPage [] [],n+2⟩ = .inr ⟨t,.closeScanner (some []),n+3⟩ := by
          simp [step,hpage,State.send]
        refine EndsWithin.next hclose ?_
        exact endsWithin_of_inl (o := .returned false) rfl

theorem read_held (h : (t rowKey column).list ≠ []) :
    (b.executes (n+1) = true ∧ b.executes (n+2) = true ∧ b.executes (n+3) = true ∧
      run (step rowKey operationId column deserializes lockExpiry b) 4 ⟨t,.checkAndPut,n⟩ =
        .inr ⟨t,.closeScanner (some (t rowKey column).list),n+4⟩) ∨
    ¬ (b.executes (n+1) = true ∧ b.executes (n+2) = true ∧ b.executes (n+3) = true) ∧
      EndsWithin (step rowKey operationId column deserializes lockExpiry b) 5 ⟨t,.checkAndPut,n⟩ := by
  have hput : step rowKey operationId column deserializes lockExpiry b ⟨t,.checkAndPut,n⟩ =
      .inr ⟨t,.createScanner,n+1⟩ := step_put_held h
  obtain ⟨v,vs,hlist⟩ := List.exists_cons_of_ne_nil h
  cases hcreate : b.executes (n+1) with
  | false =>
    have hraise : EndsWithin (step rowKey operationId column deserializes lockExpiry b) 1
        ⟨t,.createScanner,n+1⟩ :=
      endsWithin_of_inl (o := .raised) (by simp [step,hcreate])
    exact Or.inr ⟨by simp,(hraise.next hput).mono (by omega)⟩
  | true =>
    have hscan : step rowKey operationId column deserializes lockExpiry b ⟨t,.createScanner,n+1⟩ =
        .inr ⟨t,.nextPage [v::vs] [],n+2⟩ := by
      simp [step,hcreate,State.send,scan,hlist]
    cases hpage : b.executes (n+2) with
    | false =>
      have hend := ((endsWithin_scan hpage).next hscan).next hput
      exact Or.inr ⟨by simp,hend.mono (by omega)⟩
    | true =>
      have hfirst : step rowKey operationId column deserializes lockExpiry b
          ⟨t,.nextPage [v::vs] [],n+2⟩ = .inr ⟨t,.nextPage [] (v::vs),n+3⟩ := by
        simp [step,hpage,State.send]
      cases hlast : b.executes (n+3) with
      | false =>
        exact Or.inr ⟨by simp,(((endsWithin_scan hlast).next hfirst).next hscan).next hput⟩
      | true =>
        have hclose : step rowKey operationId column deserializes lockExpiry b
            ⟨t,.nextPage [] (v::vs),n+3⟩ = .inr ⟨t,.closeScanner (some (v::vs)),n+4⟩ := by
          simp [step,hlast,State.send]
        refine Or.inl ⟨rfl,rfl,rfl,?_⟩
        rw [run_succ_of_inr hput,run_succ_of_inr hscan,run_succ_of_inr hfirst,run_succ_of_inr hclose,
          hlist]
        rfl

theorem close_held {v : Version} {vs : List Version} (hlist : (t rowKey column).list = v::vs) :
    (((t rowKey column).list.all fun v => deserializes v.value) = true ∧
      b.clock n - hbaseTsToDatetime v.ts > lockExpiry ∧
      step rowKey operationId column deserializes lockExpiry b
        ⟨t,.closeScanner (some (t rowKey column).list),n⟩ = .inr ⟨t,.deleteCell,n+1⟩) ∨
    ¬ (((t rowKey column).list.all fun v => deserializes v.value) = true ∧
      b.clock n - hbaseTsToDatetime v.ts > lockExpiry) ∧
      EndsWithin (step rowKey operationId column deserializes lockExpiry b) 1
        ⟨t,.closeScanner (some (t rowKey column).list),n⟩ := by
  rw [hlist]
  by_cases hvalues : ((v::vs).all fun v => deserializes v.value) = true
  · by_cases hstale : b.clock n - hbaseTsToDatetime v.ts > lockExpiry
    · refine Or.inl ⟨hvalues,hstale,?_⟩
      simp only [step,afterRead,if_pos hvalues,if_pos hstale]
      rfl
    · refine Or.inr ⟨fun h => hstale h.2,endsWithin_of_inl (o := .returned false) ?_⟩
      simp only [step,afterRead,if_pos hvalues,if_neg hstale]
  · refine Or.inr ⟨fun h => hvalues h.1,endsWithin_of_inl (o := .raised) ?_⟩
    simp only [step,afterRead,if_neg hvalues]

/-- A round ends the call soon unless it repeats: after a delete that is executed there is no cell. -/
theorem retries : Retries (step rowKey operationId column deserializes lockExpiry b) (start b)
    (Repeats rowKey column deserializes lockExpiry b) 6 10 where
  positive := by norm_num
  again j h := by
    obtain ⟨hscan,hvalues,⟨v,hv,hstale⟩,hdelete⟩ := h
    obtain ⟨vs,hlist⟩ := List.head?_eq_some_iff.mp hv
    have hne : (b.table rowKey column).list ≠ [] := by simp [hlist]
    rcases read_held (n := 6*j) hne with ⟨-,-,-,hread⟩ | ⟨hnot,-⟩
    · rcases close_held (n := 6*j+4) hlist with ⟨-,-,hclose⟩ | ⟨hnot,-⟩
      · have hnext : step rowKey operationId column deserializes lockExpiry b
            ⟨b.table,.deleteCell,6*j+5⟩ = .inr ⟨b.table,.checkAndPut,6*j+6⟩ := by
          simp [step,answer,hdelete,State.send]
        rw [start,run_add_of_inr (m := 4) (n := 2) hread,run_succ_of_inr hclose,
          run_succ_of_inr hnext]
        rfl
      · exact absurd ⟨hvalues,hstale⟩ hnot
    · exact absurd hscan hnot
  stop j h := by
    cases hlist : (b.table rowKey column).list with
    | nil => exact (endsWithin_absent hlist).mono (by norm_num)
    | cons v vs =>
      have hne : (b.table rowKey column).list ≠ [] := by simp [hlist]
      rcases read_held (n := 6*j) hne with ⟨hcreate,hpage,hlast,hread⟩ | ⟨-,hend⟩
      · refine EndsWithin.after (m := 4) (n := 6) hread ?_
        rcases close_held (n := 6*j+4) hlist with ⟨hvalues,hstale,hclose⟩ | ⟨-,hend⟩
        · refine EndsWithin.next hclose ?_
          have hdelete : b.executes (6*j+5) = true := by
            by_contra hrefused
            exact h ⟨⟨hcreate,hpage,hlast⟩,hvalues,⟨v,by rw [hlist]; rfl,hstale⟩,
              Bool.eq_false_of_not_eq_true hrefused⟩
          have hnext : step rowKey operationId column deserializes lockExpiry b
              ⟨b.table,.deleteCell,6*j+5⟩ =
                .inr ⟨b.table.set rowKey column .empty,.checkAndPut,6*j+6⟩ := by
            simp [step,answer,hdelete,State.send,serve]
          exact (endsWithin_absent (by rw [Table.set_self]; rfl)).next hnext
        · exact hend.mono (by norm_num)
      · exact hend.mono (by norm_num)

end Rounds

/-- A call ends if and only if some round does not repeat. Calls that meet any of a set of behaviours
have one bound on their requests if and only if there is one on how often a round repeats at
first. -/
theorem acquireLockCell_ends_iff (rowKey : Bytes) (operationId : ℕ) (column : Column)
    (deserializes : Bytes → Bool) (lockExpiry : ℤ) :
    (∀ b, (∃ n, EndsWithin (step rowKey operationId column deserializes lockExpiry b) n (start b 0)) ↔
      ∃ j, ¬ Repeats rowKey column deserializes lockExpiry b j) ∧
    ∀ K : Set Behaviour,
      (∃ n, ∀ b ∈ K, EndsWithin (step rowKey operationId column deserializes lockExpiry b) n
        (start b 0)) ↔
      ∃ n, ∀ b ∈ K, ∃ j ≤ n, ¬ Repeats rowKey column deserializes lockExpiry b j :=
  ⟨fun _ => retries.ends_iff,Retries.bounded_iff fun _ => retries⟩

def undeletable : Behaviour where
  executes n := n % 6 ≠ 5
  clock _ := threeMinutes+1
  table := Table.set (fun _ _ => .empty) [107] Concurrency.lock.toColumn
    ⟨[⟨uint64String 1,0⟩],List.pairwise_singleton _ _⟩

theorem undeletable_not_ends :
    ¬ ∃ n, EndsWithin (step [107] 2 Concurrency.lock.toColumn (fun _ => true) threeMinutes undeletable)
      n (start undeletable 0) := by
  rw [retries.ends_iff]
  rintro ⟨j,hj⟩
  refine hj ⟨⟨?_,?_,?_⟩,?_,⟨⟨uint64String 1,0⟩,?_,?_⟩,?_⟩
  all_goals simp [undeletable,hbaseTsToDatetime]

end HBase.Acquire
end KvdbClient
