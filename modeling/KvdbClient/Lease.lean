import Mathlib.Data.Set.Basic
import Mathlib.Order.Basic
import Mathlib.Tactic

/-! Expiring leases over a set of stamped grants.
A grant is live while its stamp is at or past a cutoff that only moves forward.
Exclusion is a property of the live grants; a holder is somebody whose hold is
backed by a grant that is at least as recent as the hold. -/
namespace Lease

/-- One recorded grant of the lease. -/
structure Grant (ω τ : Type) where
  owner : ω
  stamp : τ

variable {ω τ : Type}

/-- All grants, live or not, have one owner. -/
def SoleOwner (G : Set (Grant ω τ)) : Prop := ∀ g ∈ G, ∀ h ∈ G, g.owner = h.owner

theorem soleOwner_empty : SoleOwner (∅ : Set (Grant ω τ)) :=
  fun _ hg => absurd hg (Set.notMem_empty _)

theorem SoleOwner.insert {G : Set (Grant ω τ)} (h : SoleOwner G) {g k : Grant ω τ} (hg : g ∈ G)
    (hk : k.owner = g.owner) : SoleOwner (insert k G) := by
  have hall : ∀ a ∈ Insert.insert k G, a.owner = g.owner := by
    rintro a (rfl | ha)
    · exact hk
    · exact h a ha g hg
  exact fun a ha b hb => (hall a ha).trans (hall b hb).symm

theorem soleOwner_singleton (g : Grant ω τ) : SoleOwner ({g} : Set (Grant ω τ)) := by
  rintro a rfl b rfl
  rfl

variable [LinearOrder τ]

def Live (cutoff : τ) (g : Grant ω τ) : Prop := cutoff ≤ g.stamp

/-- All live grants have one owner. -/
def Exclusive (cutoff : τ) (G : Set (Grant ω τ)) : Prop :=
  ∀ g ∈ G, ∀ h ∈ G, Live cutoff g → Live cutoff h → g.owner = h.owner

/-- No grant of another owner is live. -/
def Unopposed (cutoff : τ) (o : ω) (G : Set (Grant ω τ)) : Prop :=
  ∀ g ∈ G, Live cutoff g → g.owner = o

/-- A hold of `o` since `t` is backed by a grant of `o` no older than `t`. -/
def Backed (G : Set (Grant ω τ)) (o : ω) (t : τ) : Prop :=
  ∃ g ∈ G, g.owner = o ∧ t ≤ g.stamp

def Newest (G : Set (Grant ω τ)) (g : Grant ω τ) : Prop :=
  g ∈ G ∧ ∀ h ∈ G, h.stamp ≤ g.stamp

theorem Live.antitone {c d : τ} {g : Grant ω τ} (hcd : c ≤ d) (h : Live d g) : Live c g :=
  le_trans hcd h

theorem Exclusive.mono {c d : τ} {G : Set (Grant ω τ)} (h : Exclusive c G) (hcd : c ≤ d) :
    Exclusive d G :=
  fun g hg k hk lg lk => h g hg k hk (lg.antitone hcd) (lk.antitone hcd)

theorem Unopposed.exclusive {c : τ} {o : ω} {G : Set (Grant ω τ)} (h : Unopposed c o G) :
    Exclusive c G :=
  fun g hg k hk lg lk => (h g hg lg).trans (h k hk lk).symm

theorem Unopposed.mono {c d : τ} {o : ω} {G : Set (Grant ω τ)} (h : Unopposed c o G)
    (hcd : c ≤ d) : Unopposed d o G :=
  fun g hg lg => h g hg (lg.antitone hcd)

theorem Unopposed.subset {c : τ} {o : ω} {G H : Set (Grant ω τ)} (h : Unopposed c o H)
    (hGH : G ⊆ H) : Unopposed c o G :=
  fun g hg => h g (hGH hg)

theorem Unopposed.insert {c : τ} {G : Set (Grant ω τ)} {g : Grant ω τ}
    (h : Unopposed c g.owner G) : Unopposed c g.owner (insert g G) := by
  intro k hk lk
  rcases hk with rfl | hk
  · rfl
  · exact h k hk lk

theorem unopposed_of_idle {c : τ} {G : Set (Grant ω τ)} (h : ∀ g ∈ G, ¬ Live c g) (o : ω) :
    Unopposed c o G :=
  fun g hg lg => absurd lg (h g hg)

/-- One live grant of `o` speaks for all of them. -/
theorem Exclusive.unopposed {c : τ} {G : Set (Grant ω τ)} (h : Exclusive c G) {g : Grant ω τ}
    (hg : g ∈ G) (lg : Live c g) : Unopposed c g.owner G :=
  fun k hk lk => h k hk g hg lk lg

/-- The newest grant decides: its owner is unopposed, and nobody is opposed once it expired. -/
theorem Exclusive.unopposed_of_newest {c : τ} {G : Set (Grant ω τ)} (h : Exclusive c G)
    {n : Grant ω τ} (hn : Newest G n) {o : ω} (ho : n.owner = o ∨ ¬ Live c n) :
    Unopposed c o G := by
  intro g hg lg
  have ln : Live c n := le_trans lg (hn.2 g hg)
  rcases ho with rfl | ho
  · exact h g hg n hn.1 lg ln
  · exact absurd ln ho

theorem SoleOwner.owner_of_backed {G : Set (Grant ω τ)} (h : SoleOwner G) {g : Grant ω τ}
    (hg : g ∈ G) {o : ω} {t : τ} (hb : Backed G o t) : o = g.owner := by
  obtain ⟨k,hk,rfl,-⟩ := hb
  exact h k hk g hg

theorem Backed.live {c t : τ} {G : Set (Grant ω τ)} {o : ω} (h : Backed G o t) (hct : c ≤ t) :
    ∃ g ∈ G, g.owner = o ∧ Live c g := by
  obtain ⟨g,hg,ho,ht⟩ := h
  exact ⟨g,hg,ho,hct.trans ht⟩

end Lease
