import Mathlib.Tactic

/-! Bitmaps of non-empty lists: setting and clearing one bit of a machine word. -/
namespace AbcMalloc.Foundation

variable {w : ℕ}

theorem getLsbD_setBit (x : BitVec w) {k : ℕ} (hk : k < w) (j : ℕ) :
    (x ||| 1#w <<< k).getLsbD j = (x.getLsbD j || decide (j = k)) := by
  rw [BitVec.getLsbD_or, BitVec.getLsbD_shiftLeft]
  congr 1
  by_cases hj : j = k
  · subst hj
    simp [hk, show 0 < w by omega]
  · by_cases hlt : j < k
    · simp [hlt, hj]
    · have : j - k ≠ 0 := by omega
      simp [hj, this]

theorem getLsbD_clearBit (x : BitVec w) {k : ℕ} (hk : k < w) (j : ℕ) :
    (x &&& ~~~(1#w <<< k)).getLsbD j = (x.getLsbD j && decide (j ≠ k)) := by
  have hset := getLsbD_setBit 0#w hk j
  rw [BitVec.zero_or, BitVec.getLsbD_zero, Bool.false_or] at hset
  rw [BitVec.getLsbD_and, BitVec.getLsbD_not, hset]
  by_cases hj : j < w
  · simp [hj]
  · rw [BitVec.getLsbD_of_ge x j (by omega)]
    simp

theorem getLsbD_below {j k : ℕ} (hj : j < 64) (hk : k < 64) :
    (1#64 <<< k - 1#64).getLsbD j = decide (j < k) := by
  have htable : ∀ k j : Fin 64, (1#64 <<< k.val - 1#64).getLsbD j.val = decide (j.val < k.val) := by
    decide +kernel
  exact htable ⟨k, hk⟩ ⟨j, hj⟩

theorem bitvec_ne_zero_iff {x : BitVec w} : x ≠ 0 ↔ ∃ j, x.getLsbD j = true := by
  constructor
  · intro h
    by_contra hc
    refine h (BitVec.eq_of_getLsbD_eq fun j _ => ?_)
    simpa using fun hj => hc ⟨j, hj⟩
  · rintro ⟨j, hj⟩ rfl
    simp at hj

end AbcMalloc.Foundation
