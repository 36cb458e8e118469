import Mathlib.Data.Finset.Card
import Mathlib.Order.Interval.Finset.Nat
import Mathlib.Tactic

/-! Finite sets of pairwise disjoint intervals. The interval of `x` has `len x` points from
`lo x`, so that a set is also a finite map whose keys are the first points. -/
namespace AbcMalloc.Foundation

variable {α : Type*} {lo len : α → ℕ} {N : ℕ}

def Meets (lo len : α → ℕ) (x y : α) : Prop := lo x < lo y + len y ∧ lo y < lo x + len x

instance (x y : α) : Decidable (Meets lo len x y) := by
  unfold Meets
  infer_instance

/-- The interval is not empty and lies between the points `0` and `N`. -/
def Proper (lo len : α → ℕ) (N : ℕ) (x : α) : Prop := 0 < lo x ∧ 0 < len x ∧ lo x + len x < N

instance (x : α) : Decidable (Proper lo len N x) := by
  unfold Proper
  infer_instance

/-- A finite set of proper intervals, no two of which meet. -/
structure IntervalSet (lo len : α → ℕ) (N : ℕ) where
  members : Finset α
  proper : ∀ x ∈ members, Proper lo len N x
  disjoint : ∀ x ∈ members, ∀ y ∈ members, Meets lo len x y → x = y

namespace IntervalSet
variable {S : IntervalSet lo len N} {x y : α}

@[ext] theorem ext {S T : IntervalSet lo len N} (h : S.members = T.members) : S = T := by
  cases S
  cases T
  simp only at h
  subst h
  rfl

def empty : IntervalSet lo len N := ⟨∅, by simp, by simp⟩

/-- A member is determined by its first point. -/
theorem eq_of_lo (hx : x ∈ S.members) (hy : y ∈ S.members) (h : lo x = lo y) : x = y := by
  have hpx := S.proper x hx
  have hpy := S.proper y hy
  refine S.disjoint x hx y hy ⟨?_, ?_⟩
  · have := hpy.2.1
    omega
  · have := hpx.2.1
    omega

theorem card_lt (hN : 0 < N) : S.members.card < N := by
  have hinj : Set.InjOn lo (S.members : Set α) := fun x hx y hy h => eq_of_lo hx hy h
  have hsub : S.members.image lo ⊆ Finset.Ico 1 N := by
    intro a ha
    obtain ⟨x, hx, rfl⟩ := Finset.mem_image.1 ha
    obtain ⟨h₁, h₂, h₃⟩ := S.proper x hx
    rw [Finset.mem_Ico]
    omega
  have hle := Finset.card_le_card hsub
  rw [Finset.card_image_of_injOn hinj, Nat.card_Ico] at hle
  omega

def Admits (S : IntervalSet lo len N) (x : α) : Prop :=
  Proper lo len N x ∧ ∀ y ∈ S.members, ¬Meets lo len x y

instance (x : α) : Decidable (S.Admits x) := by
  unfold Admits
  infer_instance

theorem Admits.not_mem (h : S.Admits x) : x ∉ S.members := by
  intro hx
  have hp := h.1.2.1
  exact h.2 x hx ⟨by omega, by omega⟩

def add [DecidableEq α] (S : IntervalSet lo len N) (x : α) (h : S.Admits x) :
    IntervalSet lo len N where
  members := insert x S.members
  proper := by
    intro y hy
    rcases Finset.mem_insert.1 hy with rfl | hy
    · exact h.1
    · exact S.proper y hy
  disjoint := by
    intro y hy z hz hm
    rcases Finset.mem_insert.1 hy with rfl | hy' <;> rcases Finset.mem_insert.1 hz with rfl | hz'
    · rfl
    · exact absurd hm (h.2 z hz')
    · exact absurd ⟨hm.2, hm.1⟩ (h.2 y hy')
    · exact S.disjoint y hy' z hz' hm

def remove (S : IntervalSet lo len N) (p : α → Prop) [DecidablePred p] : IntervalSet lo len N where
  members := S.members.filter fun x => ¬p x
  proper x hx := S.proper x (Finset.mem_of_mem_filter x hx)
  disjoint x hx y hy :=
    S.disjoint x (Finset.mem_of_mem_filter x hx) y (Finset.mem_of_mem_filter y hy)

end IntervalSet
end AbcMalloc.Foundation
