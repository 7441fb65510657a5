import KvdbClient.HBaseReads
import KvdbClient.Transition

/-! Scanners of the HBase client over any interleaving of reads, writes and failing requests:
`_fetch_rows_by_range` and `read_all_rows` in `hbase/client.py`. What the server keeps of a scanner and
which rows it answers with is a parameter. -/
namespace KvdbClient
namespace HBase
namespace Scanners

open Transition

inductive Call
  | fetchRowsByRange (startKey endKey : Bytes) (endKeyInclusive : Bool) (columns : Columns) (w : Window)
  | readAllRows

/-- What a call has got so far: `result`, or `rows`. -/
inductive Rows
  | result (d : Dict Bytes (RowData Bytes))
  | rows (responses : List (List StoredCell))

/-- A request is executed and answered, answered with an error status, or not answered at all. -/
inductive Answer
  | done
  | refused
  | lost (executed : Bool)
  deriving DecidableEq

inductive Returned
  | rows (d : Dict Bytes (RowData Bytes))
  | consumable (d : Dict Bytes (Families (Cell Bytes)))

/-- The request that comes next. The scanner is deleted with the rows at hand, or without them when
an exception is on its way. -/
inductive Phase
  | create
  | next (location : ℕ) (rows : Rows)
  | delete (location : ℕ) (rows : Option Rows)
  | returned (r : Returned)
  | raised

structure Session where
  call : Call
  phase : Phase

/-- What a server keeps of a scanner, and how it answers from it and the table of the moment: with
rows, or with status 204 when there are no more. -/
structure Server (σ : Type) where
  create : Call → List StoredCell → σ
  next : List StoredCell → σ → Option (List StoredCell × σ)

structure State (σ : Type) where
  table : List StoredCell
  counter : ℕ
  scanners : ℕ → Option σ
  sessions : ℕ → Option Session

inductive Action
  | change (table : List StoredCell)
  | call (i : ℕ) (c : Call)
  | request (i : ℕ) (a : Answer)

/-- A scanner is abandoned when the client will send no further request for it. -/
inductive Event
  | created (i location : ℕ) (table : List StoredCell)
  | abandoned (location : ℕ)
  deriving DecidableEq

namespace Call

def cells (table : List StoredCell) : Call → List StoredCell
  | .fetchRowsByRange startKey endKey endKeyInclusive columns w =>
    scan (scannerSpec startKey endKey endKeyInclusive columns w) table
  | .readAllRows => table

def empty : Call → Rows
  | .fetchRowsByRange .. => .result .empty
  | .readAllRows => .rows []

end Call

/-- `rest` is what a scanner still has to deliver: at first the responses for the table at its creation,
and then what later answers leave of them, whatever the table is by then. -/
def Server.Delivers {σ : Type} (server : Server σ) (p : Paging) (rest : σ → List (List StoredCell)) :
    Prop :=
  (∀ c table, rest (server.create c table) = p.pages (c.cells table)) ∧ ∀ table st,
    match server.next table st with
    | none => rest st = []
    | some (page,st') => rest st = page :: rest st'

/-- The server fixes the rows of a scanner when it is created. -/
def Server.Snapshot {σ : Type} (server : Server σ) (p : Paging) : Prop := ∃ rest, server.Delivers p rest

section Client

variable {V σ : Type} (reg : Registry V) (p : Paging) (server : Server σ)

/-- The body of the loop: `result.update(parsed)`, or `rows.append(row)` for the rows of a response. -/
def Call.add (c : Call) (rows : Rows) (response : List StoredCell) : Except ReadError Rows :=
  match c, rows with
  | .fetchRowsByRange _ _ _ columns _, .result d =>
    (parseCellResponse reg (singleColumn columns) response).map fun parsed => .result (d.update parsed)
  | _, .rows responses => .ok (.rows (responses ++ [response]))
  | .readAllRows, .result d => .ok (.result d)

def State.set (s : State σ) (i : ℕ) (c : Call) (phase : Phase) : State σ :=
  { s with sessions := Function.update s.sessions i (some ⟨c,phase⟩) }

def State.setScanner (s : State σ) (location : ℕ) (scanner : Option σ) : State σ :=
  { s with scanners := Function.update s.scanners location scanner }

def State.create (s : State σ) (c : Call) : State σ :=
  { s.setScanner (s.counter + 1) (some (server.create c s.table)) with counter := s.counter + 1 }

/-- An exception in the loop: only one of the calls deletes its scanner in a `finally`. -/
def fail (s : State σ) (i : ℕ) (location : ℕ) : Call → List Event × State σ
  | .fetchRowsByRange startKey endKey endKeyInclusive columns w =>
    ([],s.set i (.fetchRowsByRange startKey endKey endKeyInclusive columns w) (.delete location none))
  | .readAllRows => ([.abandoned location],s.set i .readAllRows .raised)

/-- `return result`, or `return _ConsumableRows(rows)`, which decodes the names. -/
def Rows.finish : Rows → Except ReadError Returned
  | .result d => .ok (.rows d)
  | .rows responses => (consumableRows responses).map .consumable

/-- What a call comes to after the delete, of which it does not look at the status. -/
def Phase.finish : Option Rows → Phase
  | some rows =>
    match rows.finish with
    | .ok r => .returned r
    | .error _ => .raised
  | none => .raised

/-- The next request of a call and what the client does with the answer. -/
def request (s : State σ) (i : ℕ) (x : Session) (a : Answer) : Option (List Event × State σ) :=
  match x.phase, a with
  | .create, .done => some ([.created i (s.counter + 1) s.table],
      (s.create server x.call).set i x.call (.next (s.counter + 1) x.call.empty))
  | .create, .lost true => some ([.abandoned (s.counter + 1)],
      (s.create server x.call).set i x.call .raised)
  | .create, _ => some ([],s.set i x.call .raised)
  | .next location rows, a =>
    match a, s.scanners location with
    | .done, some st =>
      match server.next s.table st with
      | none => some ([],s.set i x.call (.delete location (some rows)))
      | some (page,st') =>
        -- the response is parsed inside the loop too
        match x.call.add reg rows page with
        | .ok rows' => some ([],(s.setScanner location (some st')).set i x.call (.next location rows'))
        | .error _ => some (fail (s.setScanner location (some st')) i location x.call)
    | .lost true, some st =>
      match server.next s.table st with
      | none => some (fail s i location x.call)
      | some (_,st') => some (fail (s.setScanner location (some st')) i location x.call)
    | _, _ => some (fail s i location x.call)
  | .delete location rows, .done => some ([],(s.setScanner location none).set i x.call (.finish rows))
  | .delete location rows, .refused => some ([.abandoned location],s.set i x.call (.finish rows))
  | .delete location _, .lost true => some ([],(s.setScanner location none).set i x.call .raised)
  | .delete location _, .lost false => some ([.abandoned location],s.set i x.call .raised)
  | .returned _, _ => none
  | .raised, _ => none

def step (s : State σ) : Action → Option (List Event × State σ)
  | .change table => some ([],{ s with table := table })
  | .call i c =>
    match s.sessions i with
    | none => some ([],s.set i c .create)
    | some _ => none
  | .request i a => (s.sessions i).bind fun x => request reg server s i x a

def machine : Machine (State σ) Action Event where
  init s := (∀ location, s.scanners location = none) ∧ ∀ i, s.sessions i = none
  step := step reg server

def Call.ofTable (table : List StoredCell) : Call → Except ReadError Returned
  | .fetchRowsByRange startKey endKey endKeyInclusive columns w =>
    (HBase.fetchRowsByRange reg p table columns w startKey endKey endKeyInclusive).map .rows
  | .readAllRows => (HBase.readAllRows p table).map .consumable

theorem Call.foldlM_add (c : Call) (table : List StoredCell) :
    ((p.pages (c.cells table)).foldlM (c.add reg) c.empty).bind Rows.finish = c.ofTable reg p table := by
  cases c with
  | fetchRowsByRange startKey endKey endKeyInclusive columns w =>
    have hfold : ∀ (pages : List (List StoredCell)) (d : Dict Bytes (RowData Bytes)), pages.foldlM
        ((Call.fetchRowsByRange startKey endKey endKeyInclusive columns w).add reg) (.result d) =
          (pages.foldlM (fun (result : Dict Bytes (RowData Bytes)) page =>
            (parseCellResponse reg (singleColumn columns) page).map result.update) d).map .result := by
      intro pages
      induction pages with
      | nil => exact fun _ => rfl
      | cons page pages ih =>
        intro d
        rw [List.foldlM_cons,List.foldlM_cons,Call.add]
        cases parseCellResponse reg (singleColumn columns) page with
        | error e => rfl
        | ok parsed => exact ih _
    have hfinish : ∀ x : Except ReadError (Dict Bytes (RowData Bytes)),
        (x.map Rows.result).bind Rows.finish = x.map .rows := fun x => by cases x <;> rfl
    exact (congrArg (Except.bind · Rows.finish) (hfold _ _)).trans (hfinish _)
  | readAllRows =>
    have hfold : ∀ pages got : List (List StoredCell),
        pages.foldlM (Call.readAllRows.add reg) (.rows got) = .ok (.rows (got ++ pages)) := by
      intro pages
      induction pages with
      | nil => exact fun got => by rw [List.append_nil]; rfl
      | cons page pages ih =>
        intro got
        refine (ih (got ++ [page])).trans ?_
        rw [List.append_assoc]
        rfl
    exact congrArg (Except.bind · Rows.finish) (hfold _ [])

end Client

def Phase.location : Phase → Option ℕ
  | .next location _ | .delete location _ => some location
  | .create | .returned _ | .raised => none

def Uses {σ : Type} (s : State σ) (i location : ℕ) : Prop :=
  ∃ x, s.sessions i = some x ∧ x.phase.location = some location

section Invariants

variable {V σ : Type} {reg : Registry V} {p : Paging} {server : Server σ}
  {rest : σ → List (List StoredCell)} {tr es : List Event} {s : State σ} {i location : ℕ}

/-- What a call has got is what the server has delivered of its scanner, with the rest still there. -/
def Sound (reg : Registry V) (p : Paging) (rest : σ → List (List StoredCell)) (tr : List Event)
    (s : State σ) (i : ℕ) (x : Session) : Prop :=
  match x.phase with
  | .create | .raised | .delete _ none => True
  | .next location rows => ∃ table got st, .created i location table ∈ tr ∧
      s.scanners location = some st ∧ p.pages (x.call.cells table) = got ++ rest st ∧
      got.foldlM (x.call.add reg) x.call.empty = .ok rows
  | .delete _ (some rows) => ∃ location table, .created i location table ∈ tr ∧
      (p.pages (x.call.cells table)).foldlM (x.call.add reg) x.call.empty = .ok rows
  | .returned r => ∃ location table, .created i location table ∈ tr ∧
      x.call.ofTable reg p table = .ok r

/-- Every scanner that a call uses is its own, and every other one was abandoned. -/
structure Invariant (reg : Registry V) (p : Paging) (rest : σ → List (List StoredCell))
    (tr : List Event) (s : State σ) : Prop where
  bounded : ∀ location, s.scanners location ≠ none → location ≤ s.counter
  live : ∀ i location, Uses s i location → s.scanners location ≠ none
  apart : ∀ i j location, Uses s i location → Uses s j location → i = j
  kept : ∀ location, s.scanners location ≠ none →
    .abandoned location ∈ tr ∨ ∃ i, Uses s i location
  sound : ∀ i x, s.sessions i = some x → Sound reg p rest tr s i x

theorem uses_set {c : Call} {phase : Phase} {j : ℕ} : Uses (s.set i c phase) j location ↔
    if j = i then phase.location = some location else Uses s j location := by
  by_cases hji : j = i
  · subst hji
    simp [Uses,State.set]
  · simp [Uses,State.set,hji]

/-- Nothing that a session knows depends on the scanners of others. -/
theorem Sound.mono {x : Session} {u : State σ} {tr' : List Event} (h : Sound reg p rest tr s i x)
    (htr : tr ⊆ tr') (hs : ∀ location, x.phase.location = some location →
      u.scanners location = s.scanners location) : Sound reg p rest tr' u i x := by
  obtain ⟨c,phase⟩ := x
  cases phase with
  | create | raised => trivial
  | next location rows =>
    obtain ⟨table,got,st,hcreated,hst,hpages,hrows⟩ := h
    exact ⟨table,got,st,htr hcreated,(hs location rfl).trans hst,hpages,hrows⟩
  | delete location rows =>
    cases rows with
    | none => trivial
    | some rows =>
      obtain ⟨location,table,hcreated,hrows⟩ := h
      exact ⟨location,table,htr hcreated,hrows⟩
  | returned rows =>
    obtain ⟨location,table,hcreated,hrows⟩ := h
    exact ⟨location,table,htr hcreated,hrows⟩

namespace Invariant

theorem set_none (h : Invariant reg p rest tr s) (hi : ∀ location, ¬ Uses s i location) {c : Call}
    {phase : Phase} (hphase : phase.location = none)
    (hsound : Sound reg p rest tr (s.set i c phase) i ⟨c,phase⟩) :
    Invariant reg p rest tr (s.set i c phase) where
  bounded := h.bounded
  live j location hj := by
    rw [uses_set] at hj
    split at hj
    · rw [hphase] at hj
      cases hj
    · exact h.live j location hj
  apart j k location hj hk := by
    rw [uses_set] at hj hk
    split at hj
    · rw [hphase] at hj
      cases hj
    · split at hk
      · rw [hphase] at hk
        cases hk
      · exact h.apart j k location hj hk
  kept location hopen := (h.kept location hopen).imp_right fun ⟨j,hj⟩ =>
    ⟨j,uses_set.mpr (by rw [if_neg fun hji : j = i => hi location (hji ▸ hj)]; exact hj)⟩
  sound j x hx := by
    by_cases hji : j = i
    · subst hji
      simp only [State.set,Function.update_self,Option.some.injEq] at hx
      exact hx ▸ hsound
    · simp only [State.set,Function.update_of_ne hji] at hx
      exact (h.sound j x hx).mono (List.Subset.refl tr) fun _ _ => rfl

/-- A session goes on with its scanner, or abandons it. -/
theorem move (h : Invariant reg p rest tr s) (hi : Uses s i location) {c : Call} {phase : Phase}
    {st : σ} (hphase : phase.location = some location ∨
      phase.location = none ∧ .abandoned location ∈ es)
    (hsound : Sound reg p rest (tr ++ es) ((s.setScanner location (some st)).set i c phase) i ⟨c,phase⟩) :
    Invariant reg p rest (tr ++ es) ((s.setScanner location (some st)).set i c phase) := by
  have hopen : ∀ l, (s.setScanner location (some st)).scanners l ≠ none ↔ s.scanners l ≠ none := by
    intro l
    by_cases hl : l = location
    · subst hl
      simp [State.setScanner,h.live i l hi]
    · simp [State.setScanner,Function.update_of_ne hl]
  have hold : ∀ j l, Uses ((s.setScanner location (some st)).set i c phase) j l → Uses s j l := by
    intro j l hj
    rw [uses_set] at hj
    split at hj
    · rename_i hji
      rcases hphase with hp | ⟨hp,-⟩ <;> rw [hp] at hj <;> cases hj
      exact hji ▸ hi
    · exact hj
  refine ⟨fun l hl => h.bounded l ((hopen l).mp hl),fun j l hj => (hopen l).mpr (h.live j l (hold j l hj)),
    fun j k l hj hk => h.apart j k l (hold j l hj) (hold k l hk),fun l hl => ?_,fun j x hx => ?_⟩
  · rcases h.kept l ((hopen l).mp hl) with ha | ⟨j,hj⟩
    · exact Or.inl (List.mem_append_left _ ha)
    · by_cases hji : j = i
      · subst hji
        obtain ⟨x,hx,hxl⟩ := hi
        obtain ⟨y,hy,hyl⟩ := hj
        obtain rfl : x = y := Option.some.inj (hx.symm.trans hy)
        obtain rfl : location = l := Option.some.inj (hxl.symm.trans hyl)
        rcases hphase with hp | ⟨-,ha⟩
        · exact Or.inr ⟨j,uses_set.mpr (by rw [if_pos rfl]; exact hp)⟩
        · exact Or.inl (List.mem_append_right _ ha)
      · exact Or.inr ⟨j,uses_set.mpr (by rw [if_neg hji]; exact hj)⟩
  · by_cases hji : j = i
    · subst hji
      simp only [State.set,Function.update_self,Option.some.injEq] at hx
      exact hx ▸ hsound
    · simp only [State.set,Function.update_of_ne hji] at hx
      refine (h.sound j x hx).mono (List.subset_append_left _ _) fun l hl => ?_
      have hne : l ≠ location := fun heq => hji (h.apart j i l ⟨x,hx,hl⟩ (heq ▸ hi))
      exact Function.update_of_ne hne _ _

/-- A session deletes its scanner. -/
theorem release (h : Invariant reg p rest tr s) (hi : Uses s i location) {c : Call} {phase : Phase}
    (hphase : phase.location = none)
    (hsound : Sound reg p rest tr ((s.setScanner location none).set i c phase) i ⟨c,phase⟩) :
    Invariant reg p rest tr ((s.setScanner location none).set i c phase) := by
  have hopen : ∀ l, (s.setScanner location none).scanners l ≠ none →
      l ≠ location ∧ s.scanners l ≠ none := by
    intro l hl
    by_cases hne : l = location
    · subst hne
      simp [State.setScanner] at hl
    · exact ⟨hne,by simpa [State.setScanner,Function.update_of_ne hne] using hl⟩
  have hold : ∀ j l, Uses ((s.setScanner location none).set i c phase) j l → j ≠ i ∧ Uses s j l := by
    intro j l hj
    rw [uses_set] at hj
    split at hj
    · rw [hphase] at hj
      cases hj
    · exact ⟨‹_›,hj⟩
  refine ⟨fun l hl => h.bounded l (hopen l hl).2,fun j l hj => ?_,
    fun j k l hj hk => h.apart j k l (hold j l hj).2 (hold k l hk).2,fun l hl => ?_,fun j x hx => ?_⟩
  · obtain ⟨hji,hj⟩ := hold j l hj
    have hne : l ≠ location := fun heq => hji (h.apart j i l hj (heq ▸ hi))
    simpa [State.set,State.setScanner,Function.update_of_ne hne] using h.live j l hj
  · obtain ⟨hne,hl⟩ := hopen l hl
    refine (h.kept l hl).imp_right fun ⟨j,hj⟩ => ⟨j,uses_set.mpr ?_⟩
    have hji : j ≠ i := by
      rintro rfl
      obtain ⟨x,hx,hxl⟩ := hi
      obtain ⟨y,hy,hyl⟩ := hj
      obtain rfl : x = y := Option.some.inj (hx.symm.trans hy)
      exact hne (Option.some.inj (hyl.symm.trans hxl))
    rw [if_neg hji]
    exact hj
  · by_cases hji : j = i
    · subst hji
      simp only [State.set,Function.update_self,Option.some.injEq] at hx
      exact hx ▸ hsound
    · simp only [State.set,Function.update_of_ne hji] at hx
      refine (h.sound j x hx).mono (List.Subset.refl tr) fun l hl => ?_
      have hne : l ≠ location := fun heq => hji (h.apart j i l ⟨x,hx,hl⟩ (heq ▸ hi))
      exact Function.update_of_ne hne _ _

/-- A new scanner is one that no session used. -/
theorem create (h : Invariant reg p rest tr s) (hi : ∀ location, ¬ Uses s i location) {c : Call}
    {phase : Phase} (hphase : phase.location = some (s.counter + 1) ∨
      phase.location = none ∧ .abandoned (s.counter + 1) ∈ es)
    (hsound : Sound reg p rest (tr ++ es) ((s.create server c).set i c phase) i ⟨c,phase⟩) :
    Invariant reg p rest (tr ++ es) ((s.create server c).set i c phase) := by
  have hfresh : s.scanners (s.counter + 1) = none := by
    by_contra hopen
    have := h.bounded _ hopen
    omega
  have hne : ∀ j l, Uses s j l → l ≠ s.counter + 1 := fun j l hj heq =>
    h.live j l hj (heq ▸ hfresh)
  have hscanner : ∀ l, l ≠ s.counter + 1 → (s.create server c).scanners l = s.scanners l :=
    fun l hl => Function.update_of_ne hl _ _
  have hcases : ∀ j l, Uses ((s.create server c).set i c phase) j l →
      j = i ∧ l = s.counter + 1 ∨ j ≠ i ∧ Uses s j l := by
    intro j l hj
    rw [uses_set] at hj
    split at hj
    · rename_i hji
      rcases hphase with hp | ⟨hp,-⟩ <;> rw [hp] at hj <;> cases hj
      exact Or.inl ⟨hji,rfl⟩
    · exact Or.inr ⟨‹_›,hj⟩
  refine ⟨fun l hl => ?_,fun j l hj => ?_,fun j k l hj hk => ?_,fun l hl => ?_,fun j x hx => ?_⟩
  · change l ≤ s.counter + 1
    by_cases heq : l = s.counter + 1
    · exact heq.le
    · have := h.bounded l (by rw [← hscanner l heq]; exact hl)
      omega
  · rcases hcases j l hj with ⟨-,rfl⟩ | ⟨-,hj⟩
    · simp [State.set,State.create,State.setScanner]
    · change (s.create server c).scanners l ≠ none
      rw [hscanner l (hne j l hj)]
      exact h.live j l hj
  · rcases hcases j l hj with ⟨hji,hl⟩ | ⟨-,hold⟩ <;>
      rcases hcases k l hk with ⟨hki,hl'⟩ | ⟨-,hold'⟩
    · exact hji.trans hki.symm
    · exact absurd hl (hne k l hold')
    · exact absurd hl' (hne j l hold)
    · exact h.apart j k l hold hold'
  · by_cases heq : l = s.counter + 1
    · subst heq
      rcases hphase with hp | ⟨-,ha⟩
      · exact Or.inr ⟨i,uses_set.mpr (by rw [if_pos rfl]; exact hp)⟩
      · exact Or.inl (List.mem_append_right _ ha)
    · change (s.create server c).scanners l ≠ none at hl
      rw [hscanner l heq] at hl
      rcases h.kept l hl with ha | ⟨j,hj⟩
      · exact Or.inl (List.mem_append_left _ ha)
      · have hji : j ≠ i := fun hji => hi l (hji ▸ hj)
        exact Or.inr ⟨j,uses_set.mpr (by rw [if_neg hji]; exact hj)⟩
  · by_cases hji : j = i
    · subst hji
      simp only [State.set,Function.update_self,Option.some.injEq] at hx
      exact hx ▸ hsound
    · simp only [State.set,Function.update_of_ne hji] at hx
      refine (h.sound j x hx).mono (List.subset_append_left _ _) fun l hl => ?_
      exact hscanner l (hne j l ⟨x,hx,hl⟩)

theorem fail (h : Invariant reg p rest tr s) (hi : Uses s i location) {st : σ}
    (c : Call) {u : State σ} (hs : fail (s.setScanner location (some st)) i location c = (es,u)) :
    Invariant reg p rest (tr ++ es) u := by
  cases c with
  | fetchRowsByRange startKey endKey endKeyInclusive columns w =>
    cases hs
    exact h.move hi (Or.inl rfl) trivial
  | readAllRows =>
    cases hs
    exact h.move hi (Or.inr ⟨rfl,List.mem_singleton_self _⟩) trivial

theorem setScanner_self {st : σ} (h : s.scanners location = some st) :
    s.setScanner location (some st) = s := by
  rw [State.setScanner,← h,Function.update_eq_self]

theorem location_finish (rows : Option Rows) : (Phase.finish rows).location = none := by
  cases rows with
  | none => rfl
  | some rows =>
    rw [Phase.finish]
    cases rows.finish <;> rfl

theorem sound_finish {x : Session} {u : State σ} {tr' : List Event} {rows : Option Rows}
    (h : Sound reg p rest tr s i ⟨x.call,.delete location rows⟩) (htr : tr ⊆ tr') :
    Sound reg p rest tr' u i ⟨x.call,.finish rows⟩ := by
  cases rows with
  | none => trivial
  | some rows =>
    obtain ⟨location,table,hcreated,hrows⟩ := h
    have htable := Call.foldlM_add reg p x.call table
    rw [hrows] at htable
    change rows.finish = _ at htable
    rw [Phase.finish]
    cases hfinish : rows.finish with
    | error e => trivial
    | ok r => exact ⟨location,table,htr hcreated,htable.symm.trans hfinish⟩

theorem of_request (hserver : server.Delivers p rest) (h : Invariant reg p rest tr s) {x : Session}
    (hx : s.sessions i = some x) {a : Answer} {u : State σ}
    (hs : request reg server s i x a = some (es,u)) : Invariant reg p rest (tr ++ es) u := by
  obtain ⟨c,phase⟩ := x
  have hlocation : ∀ l, Uses s i l ↔ phase.location = some l := fun l => by
    simp [Uses,hx]
  have hsound := h.sound i _ hx
  cases phase with
  | create =>
    have hi : ∀ l, ¬ Uses s i l := fun l hl => by cases (hlocation l).mp hl
    have hraised : Invariant reg p rest (tr ++ []) (s.set i c .raised) := by
      rw [List.append_nil]
      exact h.set_none hi rfl trivial
    cases a with
    | done =>
      cases hs
      refine h.create hi (Or.inl rfl)
        ⟨s.table,[],server.create c s.table,List.mem_append_right _ ?_,?_,?_,rfl⟩
      · exact List.mem_singleton_self _
      · exact Function.update_self ..
      · exact (hserver.1 c s.table).symm
    | refused =>
      cases hs
      exact hraised
    | lost executed =>
      cases executed with
      | true =>
        cases hs
        exact h.create hi (Or.inr ⟨rfl,List.mem_singleton_self _⟩) trivial
      | false =>
        cases hs
        exact hraised
  | next location rows =>
    have hi : Uses s i location := (hlocation location).mpr rfl
    obtain ⟨table,got,st,hcreated,hst,hpages,hrows⟩ := hsound
    have hself := setScanner_self hst
    have hfail : ∀ st : σ, Scanners.fail (s.setScanner location (some st)) i location c = (es,u) →
        Invariant reg p rest (tr ++ es) u := fun st hf => h.fail hi c hf
    have hnext := hserver.2 s.table st
    cases a with
    | done =>
      simp only [request,hst] at hs
      cases hpage : server.next s.table st with
      | none =>
        simp only [hpage] at hs hnext
        cases hs
        rw [← hself]
        refine h.move hi (Or.inl rfl) ⟨location,table,List.mem_append_left _ hcreated,?_⟩
        rw [hpages,hnext,List.append_nil,hrows]
      | some answer =>
        obtain ⟨page,st'⟩ := answer
        simp only [hpage] at hs hnext
        cases hadd : c.add reg rows page with
        | error e =>
          simp only [hadd] at hs
          exact hfail st' (Option.some.inj hs)
        | ok rows' =>
          simp only [hadd] at hs
          cases hs
          refine h.move hi (Or.inl rfl) ⟨table,got ++ [page],st',List.mem_append_left _ hcreated,
            Function.update_self ..,?_,?_⟩
          · rw [hpages,hnext,List.append_assoc]
            rfl
          · rw [List.foldlM_append,hrows]
            simp only [List.foldlM_cons,List.foldlM_nil,bind,Except.bind,hadd]
            rfl
    | refused =>
      refine hfail st ?_
      rw [hself]
      simpa [request,hst] using hs
    | lost executed =>
      cases executed with
      | true =>
        simp only [request,hst] at hs
        cases hpage : server.next s.table st with
        | none =>
          simp only [hpage] at hs
          refine hfail st ?_
          rw [hself]
          exact Option.some.inj hs
        | some answer =>
          simp only [hpage] at hs
          exact hfail answer.2 (Option.some.inj hs)
      | false =>
        refine hfail st ?_
        rw [hself]
        simpa [request,hst] using hs
  | delete location rows =>
    have hi : Uses s i location := (hlocation location).mpr rfl
    obtain ⟨st,hopen⟩ := Option.ne_none_iff_exists'.mp (h.live i location hi)
    have hself := setScanner_self hopen
    cases a with
    | done =>
      cases hs
      rw [List.append_nil]
      exact h.release hi (location_finish rows) (sound_finish hsound (List.Subset.refl tr))
    | refused =>
      cases hs
      rw [← hself]
      exact h.move hi (Or.inr ⟨location_finish rows,List.mem_singleton_self _⟩)
        (sound_finish hsound (List.subset_append_left _ _))
    | lost executed =>
      cases executed with
      | true =>
        cases hs
        rw [List.append_nil]
        exact h.release hi rfl trivial
      | false =>
        cases hs
        rw [← hself]
        exact h.move hi (Or.inr ⟨rfl,List.mem_singleton_self _⟩) trivial
  | returned rows | raised => cases hs

theorem of_step (hserver : server.Delivers p rest) (h : Invariant reg p rest tr s) {a : Action}
    {u : State σ} (hs : step reg server s a = some (es,u)) : Invariant reg p rest (tr ++ es) u := by
  cases a with
  | change table =>
    cases hs
    rw [List.append_nil]
    exact ⟨h.bounded,h.live,h.apart,h.kept,fun i x hx =>
      (h.sound i x hx).mono (List.Subset.refl tr) fun _ _ => rfl⟩
  | call i c =>
    simp only [step] at hs
    split at hs
    · rename_i hnone
      cases hs
      rw [List.append_nil]
      refine h.set_none (fun location hi => ?_) rfl trivial
      obtain ⟨x,hx,-⟩ := hi
      rw [hnone] at hx
      cases hx
    · cases hs
  | request i a =>
    obtain ⟨x,hx,hs⟩ := Option.bind_eq_some_iff.mp hs
    exact of_request hserver h hx hs

theorem of_init (h : (machine reg server).init s) : Invariant reg p rest [] s where
  bounded location hopen := absurd (h.1 location) hopen
  live i location hi := by
    obtain ⟨x,hx,-⟩ := hi
    rw [h.2] at hx
    cases hx
  apart i j location hi _ := by
    obtain ⟨x,hx,-⟩ := hi
    rw [h.2] at hx
    cases hx
  kept location hopen := absurd (h.1 location) hopen
  sound i x hx := by
    rw [h.2] at hx
    cases hx

end Invariant

end Invariants

/-- Scanners are created and deleted with an answer or not executed, and the pages of `read_all_rows`
are answered. -/
def tidy {σ : Type} (s : State σ) : Action → Prop
  | .request i a => ∀ x ∈ s.sessions i, match x.phase with
    | .create => a ≠ .lost true
    | .next _ _ => x.call = .readAllRows → a = .done
    | .delete _ _ => a = .done ∨ a = .lost true
    | .returned _ | .raised => True
  | _ => True

theorem not_abandoned_of_tidy {V σ : Type} {reg : Registry V} {p : Paging} {server : Server σ}
    {rest : σ → List (List StoredCell)} {tr es : List Event} {s u : State σ} {a : Action}
    (h : Invariant reg p rest tr s) (hok : tidy s a) (hs : step reg server s a = some (es,u))
    (location : ℕ) : .abandoned location ∉ es := by
  cases a with
  | change table =>
    cases hs
    exact List.not_mem_nil
  | call i c =>
    simp only [step] at hs
    split at hs <;> cases hs
    exact List.not_mem_nil
  | request i a =>
    obtain ⟨⟨c,phase⟩,hx,hs⟩ := Option.bind_eq_some_iff.mp hs
    have hok := hok _ hx
    cases phase with
    | create =>
      cases a with
      | done | refused =>
        cases hs
        simp
      | lost executed =>
        cases executed with
        | true => exact absurd rfl hok
        | false =>
          cases hs
          simp
    | next l rows =>
      have hfail : ∀ t : State σ, c ≠ .readAllRows → fail t i l c = (es,u) →
          .abandoned location ∉ es := by
        intro t hc hf
        cases c with
        | fetchRowsByRange =>
          cases hf
          exact List.not_mem_nil
        | readAllRows => exact absurd rfl hc
      obtain ⟨st,hst⟩ := Option.ne_none_iff_exists'.mp (h.live i l ⟨_,hx,rfl⟩)
      have hranges : a ≠ .done → c ≠ .readAllRows := fun ha hc => ha (hok hc)
      cases a with
      | done =>
        simp only [request,hst] at hs
        cases hpage : server.next s.table st with
        | none =>
          simp only [hpage] at hs
          cases hs
          exact List.not_mem_nil
        | some answer =>
          simp only [hpage] at hs
          cases hadd : c.add reg rows answer.1 with
          | ok rows' =>
            simp only [hadd] at hs
            cases hs
            exact List.not_mem_nil
          | error e =>
            simp only [hadd] at hs
            refine hfail _ ?_ (Option.some.inj hs)
            -- only the parser of `_fetch_rows_by_range` raises
            rintro rfl
            cases rows <;> cases hadd
      | refused => exact hfail s (hranges (by simp)) (by simpa [request,hst] using hs)
      | lost executed =>
        have hc := hranges (by simp)
        cases executed with
        | true =>
          simp only [request,hst] at hs
          cases hpage : server.next s.table st with
          | none =>
            simp only [hpage] at hs
            exact hfail s hc (Option.some.inj hs)
          | some answer =>
            simp only [hpage] at hs
            exact hfail _ hc (Option.some.inj hs)
        | false => exact hfail s hc (by simpa [request,hst] using hs)
    | delete l rows =>
      rcases hok with rfl | rfl <;> cases hs <;> exact List.not_mem_nil
    | returned rows | raised => cases hs

/-- On a server that fixes the rows of a scanner at its creation: whatever reads and writes run at the
same time and whichever requests fail, a call that returns has read the table as it was at one moment,
when its scanner was created, and every scanner that is still open is in use by one call only or was
abandoned. None is abandoned in a tidy run, in which the loop of `_fetch_rows_by_range` may still fail
at any request. -/
theorem scans_isolated {V σ : Type} (reg : Registry V) (p : Paging) {server : Server σ}
    (hserver : server.Snapshot p) {s₀ s : State σ} {tr : List Event}
    (hinit : (machine reg server).init s₀) (hrun : Exec (machine reg server) any s₀ tr s) :
    (∀ i c r, s.sessions i = some ⟨c,.returned r⟩ →
      ∃ location table, .created i location table ∈ tr ∧ c.ofTable reg p table = .ok r) ∧
    (∀ location, s.scanners location ≠ none →
      .abandoned location ∈ tr ∨ ∃! i, Uses s i location) ∧
    (Exec (machine reg server) tidy s₀ tr s → ∀ location, .abandoned location ∉ tr) := by
  obtain ⟨rest,hserver⟩ := hserver
  have hstep : ∀ {ok : State σ → Action → Prop} {tr s}, Exec (machine reg server) ok s₀ tr s →
      Invariant reg p rest tr s := fun hrun => hrun.induct (P := Invariant reg p rest)
    (Invariant.of_init hinit) fun _ _ _ _ _ _ h _ hs => h.of_step hserver hs
  have h := hstep hrun
  refine ⟨fun i c r hi => h.sound i _ hi,fun location hopen => ?_,fun htidy location => ?_⟩
  · refine (h.kept location hopen).imp_right fun ⟨i,hi⟩ => ⟨i,hi,fun j hj => ?_⟩
    exact h.apart j i location hj hi
  · refine htidy.induct (P := fun tr _ => .abandoned location ∉ tr) List.not_mem_nil ?_
    intro tr t a es u hrun ih hok hs hmem
    rcases List.mem_append.mp hmem with hmem | hmem
    · exact ih hmem
    · exact not_abandoned_of_tidy (hstep hrun) hok hs location hmem

section Example

/-- Keeps the responses that are still to come. -/
def fixing (p : Paging) : Server (List (List StoredCell)) where
  create c table := p.pages (c.cells table)
  next _ pages := match pages with
    | [] => none
    | page :: pages => some (page,pages)

theorem snapshot_fixing (p : Paging) : (fixing p).Snapshot p :=
  ⟨id,fun _ _ => rfl,fun _ pages => by cases pages <;> rfl⟩

def oneCell : List StoredCell := [⟨[107],Hierarchy.parent,0,[1]⟩]

def oneCellStart : State (List (List StoredCell)) := ⟨oneCell,0,fun _ => none,fun _ => none⟩

def Session.readsAll : Session → Bool
  | ⟨.readAllRows,.returned _⟩ => true
  | _ => false

/-- The table is emptied while it is read, and another read loses an answer and deletes its scanner. -/
theorem scans_isolated_changed : ∃ tr s r,
    Exec (machine .parentOnly (fixing .whole)) any oneCellStart tr s ∧
    s.table = [] ∧ s.sessions 0 = some ⟨.readAllRows,.returned r⟩ ∧
    (∃ location table, .created 0 location table ∈ tr ∧
      Call.readAllRows.ofTable .parentOnly .whole table = .ok r) ∧
    ∀ location, s.scanners location ≠ none → .abandoned location ∈ tr ∨ ∃! i, Uses s i location := by
  obtain ⟨tr,s,hrun,htable,hreturned⟩ := exists_exec (machine .parentOnly (fixing .whole)) any
    (s := oneCellStart) (P := fun _ s => s.table = [] ∧ (s.sessions 0).any Session.readsAll = true)
    [.call 0 .readAllRows,.call 1 (.fetchRowsByRange [] [107] true .all .unbounded),
      .request 0 .done,.request 1 .done,.change [],.request 1 (.lost true),.request 0 .done,
      .request 1 .done,.request 0 .done,.request 0 .done] (by decide +kernel)
  obtain ⟨x,hx,hreads⟩ := (Option.any_eq_true _ _).mp hreturned
  obtain ⟨r,rfl⟩ : ∃ r, x = ⟨.readAllRows,.returned r⟩ := by
    obtain ⟨c,phase⟩ := x
    cases c <;> cases phase <;> simp [Session.readsAll] at hreads
    exact ⟨_,rfl⟩
  obtain ⟨hrows,hopen,-⟩ := scans_isolated .parentOnly .whole (snapshot_fixing .whole)
    ⟨fun _ => rfl,fun _ => rfl⟩ hrun
  exact ⟨tr,s,r,hrun,htable,hx,hrows 0 _ r hx,hopen⟩

/-- `read_all_rows` has no `finally`: the first page that fails leaves its scanner open for good. -/
theorem readAllRows_abandons : ∃ tr s, Exec (machine .parentOnly (fixing .whole)) any oneCellStart tr s ∧
    .abandoned 1 ∈ tr ∧ s.scanners 1 ≠ none := by
  obtain ⟨tr,s,hrun,habandoned,hopen⟩ := exists_exec (machine .parentOnly (fixing .whole)) any
    (s := oneCellStart) (P := fun tr s => .abandoned 1 ∈ tr ∧ (s.scanners 1).isSome = true)
    [.call 0 .readAllRows,.request 0 .done,.request 0 .refused] (by decide +kernel)
  exact ⟨tr,s,hrun,habandoned,Option.isSome_iff_ne_none.mp hopen⟩

end Example

end Scanners
end HBase
end KvdbClient
