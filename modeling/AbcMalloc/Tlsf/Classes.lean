import AbcMalloc.Tlsf.Model

/-! Size classes of the TLSF list. Class `i` holds the sizes from `classLower i` up to
`classLower (i + 1)`; the search mapping names a class whose lower bound is at least the
request, so every block at or above it is large enough. -/
namespace AbcMalloc.Tlsf

/-- Smallest size of a class, with first level `i / 16` and second level `i % 16`. -/
def classLower (i : ℕ) : ℕ := (16 + i % 16) * 2 ^ (i / 16 + 2)

theorem classLower_idx (fi si : ℕ) (h : si < 16) :
    classLower (idx fi si) = (16 + si) * 2 ^ (fi + 2) := by
  unfold classLower idx
  rw [show (fi * 16 + si) % 16 = si by omega, show (fi * 16 + si) / 16 = fi by omega]

theorem classLower_le_succ (i : ℕ) : classLower i ≤ classLower (i + 1) := by
  unfold classLower
  by_cases h : i % 16 = 15
  · rw [show (i + 1) % 16 = 0 by omega, show (i + 1) / 16 = i / 16 + 1 by omega, h,
      show i / 16 + 1 + 2 = (i / 16 + 2) + 1 by omega, pow_succ 2 (i / 16 + 2)]
    have := Nat.two_pow_pos (i / 16 + 2)
    omega
  · rw [show (i + 1) % 16 = i % 16 + 1 by omega, show (i + 1) / 16 = i / 16 by omega]
    exact Nat.mul_le_mul_right _ (by omega)

theorem classLower_mono {i j : ℕ} (h : i ≤ j) : classLower i ≤ classLower j :=
  monotone_nat_of_le_succ classLower_le_succ h

theorem two_pow_log2_le {s : ℕ} (h : s ≠ 0) : 2 ^ Nat.log2 s ≤ s := Nat.log2_self_le h

theorem lt_two_pow_log2 (s : ℕ) : s < 2 ^ (Nat.log2 s + 1) := Nat.lt_log2_self

theorem six_le_log2 {s : ℕ} (h : 64 ≤ s) : 6 ≤ Nat.log2 s :=
  (Nat.le_log2 (by omega)).2 (by simpa using h)

theorem mappingInsert_fst {s : ℕ} (h : 64 ≤ s) :
    (mappingInsert s).1 = ((Nat.log2 s - 6 : ℕ) : ℤ) := by
  have := six_le_log2 h
  simp only [mappingInsert, fls64]
  omega

/-- The second level of a size is its quotient by the class width, less 16. -/
theorem mappingInsert_snd {s : ℕ} (h : 64 ≤ s) :
    (mappingInsert s).2 + 16 = s / 2 ^ (Nat.log2 s - 4) ∧ (mappingInsert s).2 < 16 := by
  have hl := six_le_log2 h
  have hlo := two_pow_log2_le (s := s) (by omega)
  have hhi := lt_two_pow_log2 s
  have hpow : 2 ^ Nat.log2 s = 16 * 2 ^ (Nat.log2 s - 4) := by
    rw [show (16 : ℕ) = 2 ^ 4 by norm_num, ← pow_add]
    congr 1
    omega
  have hpos := Nat.two_pow_pos (Nat.log2 s - 4)
  have h16 : 16 ≤ s / 2 ^ (Nat.log2 s - 4) := by
    rw [Nat.le_div_iff_mul_le hpos, ← hpow]
    exact hlo
  have h32 : s / 2 ^ (Nat.log2 s - 4) < 32 := by
    rw [Nat.div_lt_iff_lt_mul hpos]
    rw [pow_succ, hpow] at hhi
    omega
  simp only [mappingInsert, fls64, Nat.shiftRight_eq_div_pow]
  rw [show (15 : ℕ) = 2 ^ 4 - 1 by norm_num, Nat.and_two_pow_sub_one_eq_mod]
  norm_num
  omega

theorem mappingInsert_snd_lt {s : ℕ} (h : 64 ≤ s) : (mappingInsert s).2 < 16 :=
  (mappingInsert_snd h).2

theorem classIndex_eq {s : ℕ} (h : 64 ≤ s) :
    classIndex s = idx (Nat.log2 s - 6) (mappingInsert s).2 := by
  unfold classIndex
  rw [mappingInsert_fst h, Int.toNat_natCast]

theorem mappingSearch_snd_lt (q : ℕ) : (mappingSearch q).2 < 16 :=
    Nat.and_lt_two_pow _ (by decide : 15 < 2 ^ 4)

/-- A size lies in its class. -/
theorem classLower_classIndex {s : ℕ} (h : 64 ≤ s) : classLower (classIndex s) ≤ s := by
  obtain ⟨hs, hlt⟩ := mappingInsert_snd h
  have hl := six_le_log2 h
  rw [classIndex_eq h, classLower_idx _ _ hlt, Nat.add_comm 16, hs,
    show Nat.log2 s - 6 + 2 = Nat.log2 s - 4 by omega]
  exact Nat.div_mul_le_self s _

theorem log2_lt_of_lt {s k : ℕ} (hs : s ≠ 0) (h : s < 2 ^ k) : Nat.log2 s < k :=
  (Nat.log2_lt hs).2 h

/-- The size `mapping_search` looks up, free of wrap-around. -/
theorem mappingSearch_eq {q : ℕ} (h : 64 ≤ q) (hq : q ≤ 2 ^ 64 - 2 ^ 59) :
    mappingSearch q = mappingInsert (q + (2 ^ (Nat.log2 q - 4) - 1)) := by
  have hlog : Nat.log2 q < 64 := log2_lt_of_lt (by omega) (by omega)
  have hw : 2 ^ (Nat.log2 q - 4) ≤ 2 ^ 59 := Nat.pow_le_pow_right (by norm_num) (by omega)
  have hpos := Nat.two_pow_pos (Nat.log2 q - 4)
  simp only [mappingSearch, fls64, Nat.shiftLeft_eq, one_mul]
  rw [Nat.mod_eq_of_lt (by omega)]

/-- Every size of the class that `mapping_search` names is at least the request. -/
theorem le_classLower_search {q : ℕ} (h : 64 ≤ q) (hq : q ≤ 2 ^ 64 - 2 ^ 59) :
    0 ≤ (mappingSearch q).1 ∧ (mappingSearch q).2 < 16 ∧
      q ≤ classLower (idx (mappingSearch q).1.toNat (mappingSearch q).2) := by
  rw [mappingSearch_eq h hq]
  set r := 2 ^ (Nat.log2 q - 4) with hr
  have hpos : 0 < r := Nat.two_pow_pos _
  have h64 : 64 ≤ q + (r - 1) := by omega
  obtain ⟨hs, hlt⟩ := mappingInsert_snd h64
  have hfst := mappingInsert_fst h64
  refine ⟨by rw [hfst]; omega, hlt, ?_⟩
  rw [hfst, Int.toNat_natCast, classLower_idx _ _ hlt, Nat.add_comm 16, hs]
  have hlq := six_le_log2 h
  have hl6 := six_le_log2 h64
  have hmono : Nat.log2 q ≤ Nat.log2 (q + (r - 1)) :=
    (Nat.le_log2 (by omega)).2 ((two_pow_log2_le (by omega)).trans (by omega))
  rw [show Nat.log2 (q + (r - 1)) - 6 + 2 = Nat.log2 (q + (r - 1)) - 4 by omega]
  -- Either the rounding stays in the same power of two, or it carries into the next one.
  rcases hmono.eq_or_lt with heq | hlt'
  · rw [← heq, ← hr]
    have hdm := Nat.div_add_mod (q + (r - 1)) r
    have hmod := Nat.mod_lt (q + (r - 1)) hpos
    rw [mul_comm] at hdm
    omega
  · have hlo := two_pow_log2_le (s := q + (r - 1)) (by omega)
    have hup := lt_two_pow_log2 q
    have hle : 2 ^ (Nat.log2 q + 1) ≤ 2 ^ Nat.log2 (q + (r - 1)) :=
      Nat.pow_le_pow_right (by norm_num) hlt'
    set f := Nat.log2 (q + (r - 1)) with hf
    have hp : 2 ^ f = 16 * 2 ^ (f - 4) := by
      rw [show (16 : ℕ) = 2 ^ 4 by norm_num, ← pow_add]
      congr 1
      omega
    have h16 : 16 ≤ (q + (r - 1)) / 2 ^ (f - 4) := by
      rw [Nat.le_div_iff_mul_le (Nat.two_pow_pos _), ← hp]
      exact hlo
    have := Nat.mul_le_mul_right (2 ^ (f - 4)) h16
    omega

/-- Index of the free list in which a search for `q` bytes starts. -/
def searchClass (q : ℕ) : ℕ := idx (mappingSearch q).1.toNat (mappingSearch q).2

/-- Good fit: a block whose class is at or above the class of the search can hold the
request. -/
theorem le_of_search_le_class {q b : ℕ} (hq : 64 ≤ q) (hlim : q ≤ 2 ^ 64 - 2 ^ 59) (hb : 64 ≤ b)
    (h : idx (mappingSearch q).1.toNat (mappingSearch q).2 ≤ classIndex b) : q ≤ b :=
  (le_classLower_search hq hlim).2.2.trans
    ((classLower_mono h).trans (classLower_classIndex hb))

theorem log2_sub_lt_flMax {s : ℕ} (h : 64 ≤ s) (hs : s < 2 ^ 32) : Nat.log2 s - 6 < 26 := by
  have := log2_lt_of_lt (s := s) (k := 32) (by omega) hs
  omega

theorem adjustedBlockSize_spec {n : ℕ} (h : adjustedBlockSize n ≠ 0) :
    64 ≤ adjustedBlockSize n ∧ adjustedBlockSize n % 32 = 0 ∧ n + 64 ≤ adjustedBlockSize n ∧
      adjustedBlockSize n < 2 ^ 64 := by
  simp only [adjustedBlockSize, alignDown] at h ⊢
  split_ifs at h ⊢ with hn
  · omega
  · refine ⟨by omega, ?_, by omega, ?_⟩
    · rcases Nat.le_total (2 * 32) ((n + (32 + 32) + (32 - 1)) / 32 * 32) with hle | hle
      · rw [Nat.max_eq_right hle]
        exact Nat.mul_mod_left _ _
      · rw [Nat.max_eq_left hle]
    · rw [Nat.max_lt]
      omega

end AbcMalloc.Tlsf
