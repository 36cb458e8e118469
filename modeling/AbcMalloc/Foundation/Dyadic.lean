import AbcMalloc.Foundation.Buddies
import AbcMalloc.Foundation.Tiling

/-! Tilings by dyadic blocks: sizes are powers of two and offsets multiples of the size. Where no
two free blocks are buddies, a dyadic window that only free blocks meet lies in one of them. -/
namespace AbcMalloc.Foundation

/-- Two dyadic intervals are nested or disjoint. -/
theorem dyadic_nested {i j x y : ℕ} (hx : 2 ^ i ∣ x) (hy : 2 ^ j ∣ y) (hij : i ≤ j) :
    (y ≤ x ∧ x + 2 ^ i ≤ y + 2 ^ j) ∨ x + 2 ^ i ≤ y ∨ y + 2 ^ j ≤ x := by
  have hpow : 2 ^ i ∣ 2 ^ j := Nat.pow_dvd_pow 2 hij
  have hy' : 2 ^ i ∣ y := dvd_trans hpow hy
  rcases Nat.lt_or_ge x y with hlt | hge
  · exact Or.inr (Or.inl (Nat.le_of_lt_add_of_dvd (n := 2 ^ i) (by omega)
      (Nat.dvd_add hx (dvd_refl _)) hy'))
  · rcases Nat.lt_or_ge x (y + 2 ^ j) with hlt | hge'
    · exact Or.inl ⟨hge, Nat.le_of_lt_add_of_dvd (n := 2 ^ i) (by omega)
        (Nat.dvd_add hx (dvd_refl _)) (Nat.dvd_add hy' hpow)⟩
    · exact Or.inr (Or.inr hge')

/-- A block and its buddy lie in the same larger dyadic interval. -/
theorem dyadic_buddy {i j x y : ℕ} (hx : 2 ^ i ∣ x) (hy : 2 ^ j ∣ y) (hij : i < j) (h₁ : y ≤ x)
    (h₂ : x + 2 ^ i ≤ y + 2 ^ j) : y ≤ buddy i x ∧ buddy i x + 2 ^ i ≤ y + 2 ^ j := by
  have hpow : 2 ^ (i + 1) = 2 ^ i + 2 ^ i := by
    rw [pow_succ]
    omega
  have hpos := Nat.two_pow_pos i
  rcases buddy_cases hx with ⟨hd, he⟩ | ⟨hd, he⟩
  · rcases dyadic_nested hd hy hij with h | h | h <;> omega
  · rcases dyadic_nested hd hy hij with h | h | h <;> omega

section Tilings
variable {κ : Type*} {A : BlockMap κ} {lo hi J : ℕ} {free : κ → Prop}

/-- The blocks are dyadic, seen from `lo`. -/
def DyadicBlocks (lo : ℕ) (A : BlockMap κ) : Prop :=
  ∀ {a n k}, A a = some (n, k) → ∃ i, n = 2 ^ i ∧ 2 ^ i ∣ a - lo

/-- No two free blocks of order below `J` are buddies. -/
def NoFreeBuddies (lo J : ℕ) (free : κ → Prop) (A : BlockMap κ) : Prop :=
  ∀ {a i k k'}, A a = some (2 ^ i, k) → free k → i < J →
    A (lo + buddy i (a - lo)) = some (2 ^ i, k') → ¬free k'

/-- A dyadic window that only free blocks meet lies in a free block: the smallest block in it
would have a free buddy. -/
theorem Tiles.free_window (hT : Tiles lo hi A) (hA : DyadicBlocks lo A)
    (hco : NoFreeBuddies lo J free A) {x o : ℕ} (hx : 2 ^ o ∣ x) (hend : lo + x + 2 ^ o ≤ hi)
    (hJ : o ≤ J) (hfree : ∀ {a n k}, A a = some (n, k) → a < lo + x + 2 ^ o → lo + x < a + n →
      free k) : ∃ a i k, A a = some (2 ^ i, k) ∧ free k ∧ o ≤ i := by
  classical
  by_contra hnone
  push Not at hnone
  -- orders of the blocks that meet the window
  have hmeet : ∃ i, ∃ a k, A a = some (2 ^ i, k) ∧ a < lo + x + 2 ^ o ∧ lo + x < a + 2 ^ i := by
    have hpos := Nat.two_pow_pos o
    obtain ⟨a, n, k, ha, h₁, h₂⟩ := hT.cover (lo + x) (by omega) (by omega)
    obtain ⟨i, rfl, -⟩ := hA ha
    exact ⟨i, a, k, ha, by omega, h₂⟩
  obtain ⟨a, k, ha, h₁, h₂⟩ := Nat.find_spec hmeet
  set i := Nat.find hmeet with hi'
  have hmin : ∀ {j b l}, A b = some (2 ^ j, l) → b < lo + x + 2 ^ o → lo + x < b + 2 ^ j → i ≤ j :=
    fun hb h₃ h₄ => Nat.find_min' hmeet ⟨_, _, hb, h₃, h₄⟩
  have hk : free k := hfree ha h₁ h₂
  have hio : i < o := hnone a i k ha hk
  have hlow := hT.lower ha
  have hdvd : 2 ^ i ∣ a - lo := by
    obtain ⟨j, hj, hd⟩ := hA ha
    obtain rfl := Nat.pow_right_injective le_rfl hj
    exact hd
  have hin : x ≤ a - lo ∧ a - lo + 2 ^ i ≤ x + 2 ^ o := by
    rcases dyadic_nested hdvd hx hio.le with h | h | h <;> omega
  obtain ⟨hb₁, hb₂⟩ := dyadic_buddy hdvd hx hio hin.1 hin.2
  -- the block that covers the start of the buddy
  have hpos := Nat.two_pow_pos i
  obtain ⟨c, n, l, hc, hc₁, hc₂⟩ := hT.cover (lo + buddy i (a - lo)) (by omega) (by omega)
  obtain ⟨j, rfl, hdj⟩ := hA hc
  have hl : free l := hfree hc (by omega) (by omega)
  have hij : i ≤ j := hmin hc (by omega) (by omega)
  have hlow' := hT.lower hc
  rcases hij.eq_or_lt with rfl | hlt
  · have hstart : c = lo + buddy i (a - lo) := by
      rcases dyadic_nested (dvd_buddy hdvd) hdj le_rfl with h | h | h <;> omega
    rw [hstart] at hc
    exact hco ha hk (by omega) hc hl
  · -- it would contain the first block as well
    have hover : c - lo ≤ buddy i (a - lo) ∧ buddy i (a - lo) + 2 ^ i ≤ c - lo + 2 ^ j := by
      rcases dyadic_nested (dvd_buddy hdvd) hdj hlt.le with h | h | h <;> omega
    have hboth := dyadic_buddy (dvd_buddy hdvd) hdj hlt hover.1 hover.2
    rw [buddy_buddy] at hboth
    have heq : c = a := hT.eq_of_within hc ha (by omega) (by omega)
    rw [heq, ha, Option.some.injEq, Prod.mk.injEq] at hc
    exact absurd (Nat.pow_right_injective le_rfl hc.1) (by omega)

end Tilings
end AbcMalloc.Foundation
