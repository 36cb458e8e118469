import AbcMalloc.Tlsf.Complete
import Mathlib.Data.Prod.Lex

/-! Good fit of the two-level mapping. Classes in lexicographic order are their indices in
order, class `i` starts at `classLower i`, and the search wastes less than a sixteenth. -/
namespace AbcMalloc.Tlsf

section Classes
variable {s b q : ℕ} {c d : ℤ × ℕ}

theorem toLex_le_iff_idx (hc : 0 ≤ c.1) (hc' : c.2 < 16) (hd : 0 ≤ d.1) (hd' : d.2 < 16) :
    toLex c ≤ toLex d ↔ idx c.1.toNat c.2 ≤ idx d.1.toNat d.2 := by
  rw [Prod.Lex.toLex_le_toLex]
  unfold idx
  omega

theorem eq_of_idx_eq (hc : 0 ≤ c.1) (hc' : c.2 < 16) (hd : 0 ≤ d.1) (hd' : d.2 < 16)
    (h : idx c.1.toNat c.2 = idx d.1.toNat d.2) : c = d := by
  apply toLex.injective
  apply le_antisymm
  · exact (toLex_le_iff_idx hc hc' hd hd').2 h.le
  · exact (toLex_le_iff_idx hd hd' hc hc').2 h.ge

theorem mappingInsert_nonneg (hs : 64 ≤ s) : 0 ≤ (mappingInsert s).1 := by
  rw [mappingInsert_fst hs]
  exact Int.natCast_nonneg _

theorem mappingInsert_lt (hs : 64 ≤ s) (hs' : s < 2 ^ 32) : (mappingInsert s).1 < 26 := by
  have := log2_sub_lt_flMax hs hs'
  rw [mappingInsert_fst hs]
  omega

/-- Only sizes from the smallest block on have a first level. -/
theorem le_of_mappingInsert_nonneg (h : 0 ≤ (mappingInsert s).1) : 64 ≤ s := by
  by_contra hlt
  have hlog : Nat.log2 s < 6 := by
    by_cases h0 : s = 0
    · subst h0
      decide
    · exact log2_lt_of_lt h0 (by omega)
  simp only [mappingInsert, fls64] at h
  omega

theorem classIndex_mono (hs : 64 ≤ s) (h : s ≤ b) : classIndex s ≤ classIndex b :=
  (le_classIndex_iff (hs.trans h) _).2 ((classLower_classIndex hs).trans h)

theorem le_classLower (i : ℕ) : 64 ≤ classLower i := classLower_mono (Nat.zero_le i)

theorem classIndex_classLower (i : ℕ) : classIndex (classLower i) = i := by
  apply le_antisymm
  · by_contra hlt
    have hnext := (le_classIndex_iff (le_classLower i) (i + 1)).1 (by omega)
    have := Nat.two_pow_pos (i / 16 + 2)
    rw [classLower_succ] at hnext
    omega
  · exact (le_classIndex_iff (le_classLower i) i).2 le_rfl

theorem isLeast_search (hq : 64 ≤ q) (hlim : q ≤ 2 ^ 64 - 2 ^ 59) :
    IsLeast {b | mappingInsert b = mappingSearch q} (classLower (searchClass q)) := by
  obtain ⟨hfi, hsi, -⟩ := le_classLower_search hq hlim
  constructor
  · have h64 := le_classLower (searchClass q)
    apply eq_of_idx_eq (mappingInsert_nonneg h64) (mappingInsert_snd_lt h64) hfi hsi
    exact classIndex_classLower (searchClass q)
  · intro b hb
    have heq : mappingInsert b = mappingSearch q := hb
    have h64 := le_of_mappingInsert_nonneg (heq.symm ▸ hfi)
    have hclass : classIndex b = searchClass q := by
      rw [classIndex, heq]
      rfl
    rw [← hclass]
    exact classLower_classIndex h64

theorem classWidth_le (hq : 64 ≤ q) : 2 ^ (Nat.log2 q - 4) ≤ q / 16 := by
  have hl := six_le_log2 hq
  have hlo := two_pow_log2_le (s := q) (by omega)
  rw [Nat.le_div_iff_mul_le (by norm_num)]
  calc 2 ^ (Nat.log2 q - 4) * 16 = 2 ^ (Nat.log2 q - 4 + 4) := (pow_add 2 (Nat.log2 q - 4) 4).symm
    _ = 2 ^ Nat.log2 q := by rw [Nat.sub_add_cancel (by omega)]
    _ ≤ q := hlo

end Classes

/-- Sizes map to classes of the table in order, a block of a class at or above the one searched
for a request holds it, and the smallest size of that class exceeds the request by less than a
sixteenth. The searches are those of a 64-bit `usize`. -/
theorem class_laws :
    (∀ s, 64 ≤ s → s < 2 ^ 32 →
      0 ≤ (mappingInsert s).1 ∧ (mappingInsert s).1 < 26 ∧ (mappingInsert s).2 < 16) ∧
    (∀ s s', 64 ≤ s → s ≤ s' → s' < 2 ^ 32 → toLex (mappingInsert s) ≤ toLex (mappingInsert s')) ∧
    (∀ q b, 64 ≤ q → q < 2 ^ 32 → 64 ≤ b → b < 2 ^ 32 →
      toLex (mappingSearch q) ≤ toLex (mappingInsert b) → q ≤ b) ∧
    ∀ q, 64 ≤ q → q < 2 ^ 32 →
      ∃ b, IsLeast {b | mappingInsert b = mappingSearch q} b ∧ b < q + q / 16 := by
  refine ⟨fun s hs hs' => ?_, fun s s' hs h _ => ?_, fun q b hq hq' hb _ h => ?_,
    fun q hq hq' => ?_⟩
  · exact ⟨mappingInsert_nonneg hs, mappingInsert_lt hs hs', mappingInsert_snd_lt hs⟩
  · have hs' := hs.trans h
    rw [toLex_le_iff_idx (mappingInsert_nonneg hs) (mappingInsert_snd_lt hs)
      (mappingInsert_nonneg hs') (mappingInsert_snd_lt hs')]
    exact classIndex_mono hs h
  · obtain ⟨hfi, hsi, -⟩ := le_classLower_search hq (by omega)
    rw [toLex_le_iff_idx hfi hsi (mappingInsert_nonneg hb) (mappingInsert_snd_lt hb)] at h
    exact le_of_search_le_class hq (by omega) hb h
  · have hwidth := classWidth_le hq
    have hpos := Nat.two_pow_pos (Nat.log2 q - 4)
    have hle := classLower_searchClass_le_add hq (show q ≤ 2 ^ 64 - 2 ^ 59 by omega)
    exact ⟨_, isLeast_search hq (by omega), by omega⟩

end AbcMalloc.Tlsf
