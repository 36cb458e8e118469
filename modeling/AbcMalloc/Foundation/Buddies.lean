import Mathlib.Algebra.Order.Ring.Nat
import Mathlib.Algebra.Ring.Parity
import Mathlib.Data.Nat.Bitwise

/-! Buddies of a binary buddy system. The buddy of the block at offset `off` of size `2^j` is
the block at `off ^^^ 2^j`; together they form the block of size `2^(j+1)` at the smaller
offset. -/
namespace AbcMalloc.Foundation

/-- Offset of the buddy of the block of size `2^j` at `off`. -/
def buddy (j off : ℕ) : ℕ := off ^^^ 2 ^ j

theorem xor_one (q : ℕ) : q ^^^ 1 = 2 * (q / 2) + (q + 1) % 2 := by
  have hdiv : (q ^^^ 1) / 2 = q / 2 := by
    rw [Nat.xor_div_two]
    simp
  have hmod : (q ^^^ 1) % 2 = (q + 1) % 2 := by
    rw [Nat.xor_mod_two_eq]
  rw [← Nat.div_add_mod (q ^^^ 1) 2, hdiv, hmod]

theorem buddy_mul (j q : ℕ) : buddy j (2 ^ j * q) = 2 ^ j * (q ^^^ 1) := by
  have h := Nat.shiftLeft_xor_distrib (a := q) (b := 1) (i := j)
  rw [Nat.shiftLeft_eq, Nat.shiftLeft_eq, Nat.shiftLeft_eq, Nat.one_mul] at h
  rw [buddy, Nat.mul_comm, ← h, Nat.mul_comm]

theorem buddy_buddy (j off : ℕ) : buddy j (buddy j off) = off := by
  simp [buddy]

theorem buddy_ne (j off : ℕ) : buddy j off ≠ off := by
  intro h
  have h0 : off ^^^ (off ^^^ 2 ^ j) = off ^^^ off := congrArg (off ^^^ ·) h
  rw [Nat.xor_self, ← Nat.xor_assoc, Nat.xor_self, Nat.zero_xor] at h0
  exact absurd h0 (Nat.two_pow_pos j).ne'

/-- The two cases of a buddy: the block is the left or the right half of its parent. -/
theorem buddy_cases {j off : ℕ} (h : 2 ^ j ∣ off) :
    (2 ^ (j + 1) ∣ off ∧ buddy j off = off + 2 ^ j) ∨
      (2 ^ (j + 1) ∣ buddy j off ∧ off = buddy j off + 2 ^ j) := by
  obtain ⟨q, rfl⟩ := h
  rw [buddy_mul, xor_one]
  rcases Nat.mod_two_eq_zero_or_one q with hq | hq
  · left
    refine ⟨?_, ?_⟩
    · rw [pow_succ]
      exact Nat.mul_dvd_mul_left _ (Nat.dvd_of_mod_eq_zero hq)
    · have : 2 * (q / 2) + (q + 1) % 2 = q + 1 := by omega
      rw [this, Nat.mul_add, Nat.mul_one]
  · right
    have : 2 * (q / 2) + (q + 1) % 2 = q - 1 := by omega
    rw [this]
    refine ⟨?_, ?_⟩
    · rw [pow_succ]
      exact Nat.mul_dvd_mul_left _ (Nat.dvd_of_mod_eq_zero (by omega))
    · rw [← Nat.mul_add_one]
      congr 1
      omega

/-- The buddy of a left half is the right half behind it. -/
theorem buddy_left {j off : ℕ} (h : 2 ^ (j + 1) ∣ off) : buddy j off = off + 2 ^ j := by
  have hpos := Nat.two_pow_pos j
  rcases buddy_cases (dvd_trans (Nat.pow_dvd_pow 2 (Nat.le_succ j)) h) with ⟨-, he⟩ | ⟨hd, he⟩
  · exact he
  · exfalso
    rw [he] at h
    have := Nat.le_of_dvd hpos ((Nat.dvd_add_right hd).1 h)
    rw [pow_succ] at this
    omega

theorem dvd_buddy {j off : ℕ} (h : 2 ^ j ∣ off) : 2 ^ j ∣ buddy j off := by
  obtain ⟨q, rfl⟩ := h
  rw [buddy_mul]
  exact Nat.dvd_mul_right _ _

/-- A block inside `2^J` bytes, smaller than that, has its buddy there too. -/
theorem buddy_lt {j J off : ℕ} (hJ : j < J) (hdvd : 2 ^ j ∣ off) (hoff : off < 2 ^ J) :
    buddy j off + 2 ^ j ≤ 2 ^ J := by
  have hpow : 2 ^ (j + 1) ∣ 2 ^ J := Nat.pow_dvd_pow 2 hJ
  have hs : 2 ^ (j + 1) = 2 ^ j + 2 ^ j := by rw [pow_succ]; omega
  rcases buddy_cases hdvd with ⟨h₁, h₂⟩ | ⟨h₁, h₂⟩
  · have := Nat.le_of_lt_add_of_dvd (n := 2 ^ (j + 1)) (a := off + 2 ^ (j + 1)) (b := 2 ^ J)
      (by omega) (Nat.dvd_add h₁ (dvd_refl _)) hpow
    omega
  · omega

end AbcMalloc.Foundation
