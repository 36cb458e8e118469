import AbcMalloc.Tlsf.Release

/-! The temporal rings: per size class, two slots that remember blocks carved by
`temporal_allocate`. A remembered block is in use, and it is found again under its own
class or under that of the size 32 bytes below. -/
namespace AbcMalloc.Tlsf
open Function Foundation

def RingOf (s : TlsfList) (q i : ℕ) : Prop :=
  inClasses s (mappingSearch q) = true ∧ i = idx (mappingSearch q).1.toNat (mappingSearch q).2

/-- Slots hold temporal blocks, or blocks tombstoned since; no block is in two slots. -/
structure Rings (s : TlsfList) (A : Blocks) : Prop where
  classes : s.flCount ≤ 26
  rotor : ∀ i, s.temporalRotor i < 2
  entry : ∀ {i r}, r < 2 → s.temporalActive i r ≠ 0 →
    ∃ n f q, used A (s.temporalActive i r) = some (n, f) ∧
      (f = blockAlloc + blockTemporal ∨ f = blockTombstone) ∧
      64 ≤ q ∧ RingOf s q i ∧ (n = q ∨ n = q + 32)
  unique : ∀ {i r i' r'}, r < 2 → r' < 2 → s.temporalActive i r ≠ 0 →
    s.temporalActive i r = s.temporalActive i' r' → i = i' ∧ r = r'

theorem xor_one_lt_two {r : ℕ} (h : r < 2) : r ^^^ 1 < 2 := by
  interval_cases r <;> decide

theorem and_one_of_lt_two {r : ℕ} (h : r < 2) : r &&& 1 = r := by
  interval_cases r <;> rfl

theorem ringSlot_lt {s : TlsfList} {i : ℕ} (h : s.temporalRotor i < 2) : ringSlot s i < 2 := by
  simp only [ringSlot, and_one_of_lt_two h]
  split_ifs
  · exact xor_one_lt_two h
  · exact h

namespace Rings
variable {s s' : TlsfList} {A A' : Blocks} {b n f : ℕ}

theorem congr (h : Rings s A) (hact : s'.temporalActive = s.temporalActive)
    (hrot : ∀ i, s'.temporalRotor i < 2) (hfl : s'.flCount = s.flCount)
    (hA : ∀ {i r}, r < 2 → s.temporalActive i r ≠ 0 →
      used A' (s.temporalActive i r) = used A (s.temporalActive i r)) : Rings s' A' where
  classes := hfl ▸ h.classes
  rotor := hrot
  entry {i r} hr h0 := by
    rw [hact] at h0 ⊢
    rw [hA hr h0]
    obtain ⟨n, f, q, h₁, h₂, h₃, h₄, h₅⟩ := h.entry hr h0
    refine ⟨n, f, q, h₁, h₂, h₃, ?_, h₅⟩
    simpa only [RingOf, inClasses, hfl] using h₄
  unique hr hr' h0 he := by
    rw [hact] at h0 he
    exact h.unique hr hr' h0 he

/-- Ring blocks are blocks in use, so a block that is not cannot be in a ring. -/
theorem ne_of_not_used (h : Rings s A) (hb : used A b = none) {i r : ℕ} (hr : r < 2)
    (h0 : s.temporalActive i r ≠ 0) : s.temporalActive i r ≠ b := by
  rintro rfl
  obtain ⟨n, f, q, h₁, -⟩ := h.entry hr h0
  rw [hb] at h₁
  cases h₁

/-- Remembering a freshly carved block. -/
theorem install {q : ℕ} (h : Rings s A) (hb : used A b = none) (hb0 : b ≠ 0) (hq : 64 ≤ q)
    (hn : n = q ∨ n = q + 32)
    (hA : used A' = update (used A) b (some (n, blockAlloc + blockTemporal))) :
    Rings (ringInstall s (mappingSearch q) b) A' := by
  have hkeep : ∀ {i r}, r < 2 → s.temporalActive i r ≠ 0 →
      used A' (s.temporalActive i r) = used A (s.temporalActive i r) := by
    intro i r hr h0
    rw [hA, update_of_ne (h.ne_of_not_used hb hr h0)]
  simp only [ringInstall]
  split_ifs with hin
  · set i₀ := idx (mappingSearch q).1.toNat (mappingSearch q).2 with hi₀
    have hr₀ := h.rotor i₀
    have hslot : ∀ i r, update s.temporalActive i₀
        (update (s.temporalActive i₀) (s.temporalRotor i₀) b) i r =
        if i = i₀ ∧ r = s.temporalRotor i₀ then b else s.temporalActive i r := by
      intro i r
      by_cases hi : i = i₀
      · simp [hi, update_apply]
      · simp [hi]
    refine ⟨h.classes, fun i => ?_, fun {i r} hr h0 => ?_, fun {i r i' r'} hr hr' h0 he => ?_⟩
    · by_cases hi : i = i₀
      · subst hi
        simpa using xor_one_lt_two hr₀
      · simpa [hi] using h.rotor i
    · simp only [hslot] at h0 ⊢
      split_ifs at h0 ⊢ with hc
      · refine ⟨n, blockAlloc + blockTemporal, q, ?_, Or.inl rfl, hq, ⟨hin, hc.1⟩, hn⟩
        rw [hA, update_self]
      · rw [hkeep hr h0]
        exact h.entry hr h0
    · simp only [hslot] at h0 he
      split_ifs at h0 he with hc hc' hc'
      · exact ⟨hc.1.trans hc'.1.symm, hc.2.trans hc'.2.symm⟩
      · exact absurd he.symm (h.ne_of_not_used hb hr' (he ▸ hb0))
      · exact absurd he (h.ne_of_not_used hb hr h0)
      · exact h.unique hr hr' h0 he
  · exact h.congr rfl h.rotor rfl hkeep

/-- Clearing one class either finds the block in one of its two slots or changes nothing. -/
theorem clearTemporalClass_cases (s : TlsfList) (b q : ℕ) :
    (∃ i r, r < 2 ∧ s.temporalActive i r = b ∧ clearTemporalClass s b q = some { s with
        temporalActive := update s.temporalActive i (update (s.temporalActive i) r 0) }) ∨
      (clearTemporalClass s b q = none ∧
        ∀ i r, RingOf s q i → r < 2 → s.temporalActive i r ≠ b) := by
  simp only [clearTemporalClass]
  split_ifs with hin h₀ h₁
  · exact Or.inl ⟨_, 0, by decide, h₀, rfl⟩
  · exact Or.inl ⟨_, 1, by decide, h₁, rfl⟩
  · right
    refine ⟨rfl, ?_⟩
    rintro i r ⟨-, rfl⟩ hr
    interval_cases r
    · exact h₀
    · exact h₁
  · right
    refine ⟨rfl, ?_⟩
    rintro i r ⟨hin', -⟩
    exact absurd hin' hin

theorem clearTemporal (h : Rings s A) (hb : used A b = some (n, f)) (hb0 : b ≠ 0) :
    (∃ i r, r < 2 ∧ s.temporalActive i r = b ∧ clearTemporal s b n =
      { s with temporalActive := update s.temporalActive i (update (s.temporalActive i) r 0) }) ∨
      (clearTemporal s b n = s ∧ ∀ i r, r < 2 → s.temporalActive i r ≠ b) := by
  simp only [Tlsf.clearTemporal]
  rcases clearTemporalClass_cases s b n with ⟨i, r, hr, he, hc⟩ | ⟨hc, hnot⟩
  · exact Or.inl ⟨i, r, hr, he, by rw [hc]⟩
  · rw [hc]
    simp only
    -- the block may have been remembered under the class of the smaller size
    have hsmall : ∀ i r, r < 2 → s.temporalActive i r = b → 64 < n ∧ RingOf s (n - 32) i := by
      intro i r hr he
      obtain ⟨n', f', q, h₁, -, hq, hring, hn⟩ := h.entry (i := i) hr (he ▸ hb0)
      rw [he, hb] at h₁
      simp only [Option.some.injEq, Prod.mk.injEq] at h₁
      rcases hn with hn | hn
      · refine absurd he (hnot i r ?_ hr)
        rwa [h₁.1, hn]
      · have : n - 32 = q := by omega
        exact ⟨by omega, this ▸ hring⟩
    split_ifs with hlt
    · rcases clearTemporalClass_cases s b (n - 32) with ⟨i, r, hr, he, hc'⟩ | ⟨hc', hnot'⟩
      · exact Or.inl ⟨i, r, hr, he, by rw [hc']; rfl⟩
      · right
        rw [hc']
        refine ⟨rfl, fun i r hr he => ?_⟩
        exact hnot' i r (hsmall i r hr he).2 hr he
    · right
      exact ⟨rfl, fun i r hr he => hlt (hsmall i r hr he).1⟩

theorem clear (h : Rings s A) (hb : used A b = some (n, f)) (hb0 : b ≠ 0)
    (hA : used A' = update (used A) b none) : Rings (Tlsf.clearTemporal s b n) A' := by
  rcases h.clearTemporal hb hb0 with ⟨i₀, r₀, hr₀, he₀, hc⟩ | ⟨hc, hnot⟩
  · have hslot : ∀ i r, update s.temporalActive i₀ (update (s.temporalActive i₀) r₀ 0) i r =
        if i = i₀ ∧ r = r₀ then 0 else s.temporalActive i r := by
      intro i r
      by_cases hi : i = i₀
      · simp [hi, update_apply]
      · simp [hi]
    rw [hc]
    refine ⟨h.classes, h.rotor, fun {i r} hr h0 => ?_, fun {i r i' r'} hr hr' h0 he => ?_⟩
    · simp only [hslot] at h0 ⊢
      split_ifs at h0 ⊢ with hcase
      · exact absurd rfl h0
      · have hne : s.temporalActive i r ≠ b := fun he =>
          hcase (h.unique hr hr₀ h0 (he.trans he₀.symm))
        rw [hA, update_of_ne hne]
        exact h.entry hr h0
    · simp only [hslot] at h0 he
      split_ifs at h0 he with h₁ h₂
      · exact absurd rfl h0
      · exact absurd rfl h0
      · exact absurd he h0
      · exact h.unique hr hr' h0 he
  · rw [hc]
    refine h.congr rfl h.rotor rfl fun {i r} hr _ => ?_
    rw [hA, update_of_ne (hnot i r hr)]

end Rings
end AbcMalloc.Tlsf
