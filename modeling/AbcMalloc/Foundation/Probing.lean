import Mathlib.Data.Finset.Card
import Mathlib.Logic.Function.Basic
import Mathlib.Tactic

/-! Open addressing with linear probing. A table is a function from positions below `cap` to the
key that occupies them; the probe for a key starts at a position of its own and goes round until
it meets the key or a free position. `Chained` is the invariant by which a probe finds every key
of the table, and filling the position where a probe for a new key ends keeps it. -/
namespace AbcMalloc.Foundation
open Function

variable {κ : Type*} {o : ℕ → Option κ} {cap : ℕ} {start : κ → ℕ} {k : κ}
  {a i j n : ℕ}

def Stops (o : ℕ → Option κ) (k : κ) (i : ℕ) : Prop := o i = none ∨ o i = some k

instance [DecidableEq κ] : Decidable (Stops o k i) := by
  unfold Stops
  infer_instance

/-- Probe at most `n` positions from `i` on. -/
def probe [DecidableEq κ] (o : ℕ → Option κ) (cap : ℕ) (k : κ) : ℕ → ℕ → Option ℕ
  | 0, _ => none
  | n + 1, i => if Stops o k i then some i else probe o cap k n ((i + 1) % cap)

/-- The probe for `k` from `a` ends after `j` other positions. -/
structure Ends (o : ℕ → Option κ) (cap : ℕ) (k : κ) (a j : ℕ) : Prop where
  lt : j < cap
  stops : Stops o k ((a + j) % cap)
  passes : ∀ j' < j, ¬Stops o k ((a + j') % cap)

theorem Ends.probe [DecidableEq κ] (h : Ends o cap k a j) (ha : a < cap) (hn : j < n) :
    probe o cap k n a = some ((a + j) % cap) := by
  induction j generalizing a n with
  | zero =>
    obtain ⟨n, rfl⟩ : ∃ m, n = m + 1 := ⟨n - 1, by omega⟩
    have hs := h.stops
    rw [Nat.add_zero, Nat.mod_eq_of_lt ha] at hs
    rw [Foundation.probe, if_pos hs, Nat.add_zero, Nat.mod_eq_of_lt ha]
  | succ j ih =>
    obtain ⟨n, rfl⟩ : ∃ m, n = m + 1 := ⟨n - 1, by omega⟩
    have h0 := h.passes 0 (Nat.succ_pos j)
    rw [Nat.add_zero, Nat.mod_eq_of_lt ha] at h0
    have hshift : ∀ x, ((a + 1) % cap + x) % cap = (a + (x + 1)) % cap := by
      intro x
      rw [Nat.mod_add_mod]
      congr 1
      omega
    have hnext : Ends o cap k ((a + 1) % cap) j := by
      refine ⟨by have := h.lt; omega, ?_, fun j' hj' => ?_⟩
      · rw [hshift]
        exact h.stops
      · rw [hshift]
        exact h.passes (j' + 1) (by omega)
    rw [Foundation.probe, if_neg h0, ih hnext (Nat.mod_lt _ (by omega)) (by omega), hshift]

theorem round_inj {j' : ℕ} (hj : j < cap) (hj' : j' < cap)
    (h : (a + j) % cap = (a + j') % cap) : j = j' := by
  have hmod := Nat.ModEq.add_left_cancel' a (show a + j ≡ a + j' [MOD cap] from h)
  rwa [Nat.ModEq, Nat.mod_eq_of_lt hj, Nat.mod_eq_of_lt hj'] at hmod

/-- Every position is met in one round. -/
theorem exists_round (ha : a < cap) (hi : i < cap) : ∃ j < cap, (a + j) % cap = i := by
  by_cases hle : a ≤ i
  · exact ⟨i - a, by omega, by rw [Nat.add_sub_cancel' hle, Nat.mod_eq_of_lt hi]⟩
  · refine ⟨i + cap - a, by omega, ?_⟩
    rw [show a + (i + cap - a) = i + cap by omega, Nat.add_mod_right, Nat.mod_eq_of_lt hi]

/-- A probe ends where there is a free position or the key. -/
theorem exists_ends (ha : a < cap) (hi : i < cap) (hs : Stops o k i) : ∃ j, Ends o cap k a j := by
  classical
  obtain ⟨j₀, hj₀, hround⟩ := exists_round ha hi
  have hex : ∃ j, j < cap ∧ Stops o k ((a + j) % cap) := ⟨j₀, hj₀, hround ▸ hs⟩
  obtain ⟨hlt, hstop⟩ := Nat.find_spec hex
  refine ⟨Nat.find hex, hlt, hstop, fun j' hj' hs' => ?_⟩
  exact Nat.find_min hex hj' ⟨by omega, hs'⟩

/-- The positions that a probe passes are occupied. -/
theorem Ends.le_card (h : Ends o cap k a j) (ha : a < cap) :
    j ≤ ((Finset.range cap).filter fun i => o i ≠ none).card := by
  have hinj : Set.InjOn (fun x => (a + x) % cap) (Finset.range j : Set ℕ) := by
    intro x hx y hy hxy
    rw [Finset.coe_range, Set.mem_Iio] at hx hy
    have hlt := h.lt
    exact round_inj (by omega) (by omega) hxy
  have hsub : (Finset.range j).image (fun x => (a + x) % cap) ⊆
      (Finset.range cap).filter fun i => o i ≠ none := by
    intro i hi
    obtain ⟨x, hx, rfl⟩ := Finset.mem_image.1 hi
    rw [Finset.mem_filter, Finset.mem_range]
    refine ⟨Nat.mod_lt _ (by omega), fun hnone => ?_⟩
    exact h.passes x (Finset.mem_range.1 hx) (Or.inl hnone)
  have hle := Finset.card_le_card hsub
  rwa [Finset.card_image_of_injOn hinj, Finset.card_range] at hle

/-! ## The invariant -/

/-- No position between the start of a key's probe and the key is free or holds the key too. -/
structure Chained (o : ℕ → Option κ) (cap : ℕ) (start : κ → ℕ) : Prop where
  start_lt : ∀ k, start k < cap
  reach : ∀ {i k}, i < cap → o i = some k →
    ∃ j, Ends o cap k (start k) j ∧ (start k + j) % cap = i

namespace Chained

theorem empty (hs : ∀ k, start k < cap) : Chained (fun _ => (none : Option κ)) cap start :=
  ⟨hs, fun _ h => absurd h (by simp)⟩

theorem unique (h : Chained o cap start) {i' : ℕ} (hi : i < cap) (hi' : i' < cap)
    (ho : o i = some k) (ho' : o i' = some k) : i = i' := by
  obtain ⟨j, hj, rfl⟩ := h.reach hi ho
  obtain ⟨j', hj', rfl⟩ := h.reach hi' ho'
  rcases lt_trichotomy j j' with hlt | rfl | hlt
  · exact absurd (Or.inr ho) (hj'.passes j hlt)
  · rfl
  · exact absurd (Or.inr ho') (hj.passes j' hlt)

/-- A probe for an absent key ends at a free position. -/
theorem free_of_absent (habs : ∀ i < cap, o i ≠ some k) (ha : a < cap)
    (h : Ends o cap k a j) : o ((a + j) % cap) = none :=
  h.stops.resolve_right (habs _ (Nat.mod_lt _ (by omega)))

theorem insert (h : Chained o cap start) (habs : ∀ i < cap, o i ≠ some k)
    (hj : Ends o cap k (start k) j) :
    Chained (update o ((start k + j) % cap) (some k)) cap start := by
  have hfree := free_of_absent habs (h.start_lt k) hj
  refine ⟨h.start_lt, fun {i k'} hi ho => ?_⟩
  by_cases hp : i = (start k + j) % cap
  · -- the new key: the positions before it are the old ones
    subst hp
    rw [update_self, Option.some.injEq] at ho
    subst ho
    refine ⟨j, ⟨hj.lt, Or.inr (update_self _ _ _), fun j' hj' => ?_⟩, rfl⟩
    have hne : (start k + j') % cap ≠ (start k + j) % cap := fun he =>
      absurd (round_inj (by have := hj.lt; omega) hj.lt he) (by omega)
    unfold Stops
    rw [update_of_ne hne]
    exact hj.passes j' hj'
  · -- an old key: its probe ends before it meets the free position
    rw [update_of_ne hp] at ho
    obtain ⟨j', hj', hi'⟩ := h.reach hi ho
    have hne : k' ≠ k := by
      rintro rfl
      exact habs i hi ho
    refine ⟨j', ⟨hj'.lt, ?_, fun x hx hs => ?_⟩, hi'⟩
    · unfold Stops
      rw [hi', update_of_ne hp]
      exact Or.inr ho
    · by_cases hx' : (start k' + x) % cap = (start k + j) % cap
      · exact hj'.passes x hx (Or.inl (hx' ▸ hfree))
      · unfold Stops at hs
        rw [update_of_ne hx'] at hs
        exact hj'.passes x hx hs

end Chained
end AbcMalloc.Foundation
