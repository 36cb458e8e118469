import AbcMalloc.Tlsf.DoubleFree
import AbcMalloc.Tlsf.Refinement

/-! What the cell in front of an address reads. Where no block in use starts the cell reads as
free, unless a client wrote into it or a block there was merged into its predecessor. -/
namespace AbcMalloc.Tlsf
open Function Foundation

theorem Good.used_eq {h : Heap} {A B : Blocks} (hA : Good h A) (hB : Good h B) : used B =
    used A := by
  have hle : ∀ {A B : Blocks}, Good h A → Good h B → ∀ {b n f}, used A b = some (n, f) →
      used B b = some (n, f) := by
    intro A B hA hB b n f hb
    obtain ⟨hAb, hf⟩ := used_eq_some.1 hb
    obtain ⟨n', k, hBb⟩ := (hB.mem_blocks b).1 ((hA.mem_blocks b).2 ⟨_, _, hAb⟩)
    obtain rfl : n' = n := by rw [← hB.phys.lo hBb, hA.phys.lo hAb]
    cases k with
    | none => exact absurd hBb hB.closed
    | some g =>
      obtain rfl : g = f := by rw [← hB.phys.hi hBb, hA.phys.hi hAb]
      exact used_eq_some.2 ⟨hBb, hf⟩
  funext b
  cases hu : used A b with
  | some v => exact hle hA hB hu
  | none =>
    cases hv : used B b with
    | none => rfl
    | some v =>
      rw [hle hB hA hv] at hu
      exact absurd hu (by simp)

/-- The cell `x` of the pool reads as free, or a block in use starts there. -/
def Truthful (h : Heap) (x : ℕ) : Prop :=
  ∃ A, Good h A ∧ (h.ctl.base + 32 ≤ x → x < h.ctl.endSentinel →
    h.mem.hi x = blockFree ∨ (used A x).isSome = true)

namespace Truthful
variable {h h' : Heap} {A : Blocks} {x b n f : ℕ}

theorem of_used (hG : Good h A) (hx : used A x = some (n, f)) : Truthful h x :=
  ⟨A, hG, fun _ _ => Or.inr (by rw [hx]; rfl)⟩

theorem isAllocated (ht : Truthful h x) (hx : Tlsf.isAllocated h (x + 32) = true) :
    ∃ A n f, Good h A ∧ used A x = some (n, f) := by
  obtain ⟨A, hG, ht⟩ := ht
  simp only [Tlsf.isAllocated, inData, Nat.add_sub_cancel, Bool.and_eq_true,
    decide_eq_true_eq] at hx
  obtain ⟨⟨-, hlo, hhi⟩, hne⟩ := hx
  rcases ht hlo hhi with hfree | hsome
  · exact absurd hfree hne
  · obtain ⟨⟨n, f⟩, hu⟩ := Option.isSome_iff_exists.1 hsome
    exact ⟨A, n, f, hG, hu⟩

theorem allocate (ht : Truthful h x) {u : ℕ} {c : Chunk} (hfit : fitsRequest u = true)
    (hrun : Tlsf.allocate h u = some (c, h')) : Truthful h' x := by
  obtain ⟨A, hG, ht⟩ := ht
  rcases hG.allocate (of_decide_eq_true hfit) with hnull | ⟨b, sz, h₁, A', hal, hG', hT, -, -, hc⟩
  · rw [hnull] at hrun
    simp only [Option.some.injEq, Prod.mk.injEq] at hrun
    exact hrun.2 ▸ ⟨A, hG, ht⟩
  · rw [hal] at hrun
    simp only [Option.some.injEq, Prod.mk.injEq] at hrun
    obtain ⟨-, rfl⟩ := hrun
    refine ⟨A', hG', fun hlo hhi => ?_⟩
    rw [hc.base] at hlo
    rw [hc.endSentinel] at hhi
    by_cases hxb : x = b
    · subst hxb
      exact Or.inr (by rw [hT.used, update_self]; rfl)
    · rcases ht hlo hhi with hfree | hsome
      · exact Or.inl (hT.flags x hxb hfree)
      · exact Or.inr (by rw [hT.used, update_of_ne hxb]; exact hsome)

theorem tombstone (ht : Truthful h x) (hG : Good h A) (hb : used A b = some (n, f))
    (hf : f ≠ blockTombstone) : Truthful (Tlsf.tombstone h (b + 32)).2 x := by
  obtain ⟨B, hGB, ht⟩ := ht
  rw [hG.used_eq hGB] at ht
  obtain ⟨h', hts, hm, hG', hc⟩ := hG.tombstone hb hf
  have hU : used (update A b (some (n, some blockTombstone))) =
      update (used A) b (some (n, blockTombstone)) := by
    rw [used_update, usedEntry_flags (by decide)]
  rw [hts]
  refine ⟨_, hG', fun hlo hhi => ?_⟩
  rw [hc.base] at hlo
  rw [hc.endSentinel] at hhi
  by_cases hxb : x = b
  · subst hxb
    exact Or.inr (by rw [hU, update_self]; rfl)
  · rcases ht hlo hhi with hfree | hsome
    · left
      show h'.mem.hi x = blockFree
      rw [hm, Mem.setHi_hi, update_of_ne hxb, hfree]
    · exact Or.inr (by rw [hU, update_of_ne hxb]; exact hsome)

/-- A deallocation that does not merge backward clears the flags of the block itself. -/
theorem deallocate (ht : Truthful h x) (hG : Good h A) (hb : used A b = some (n, f))
    (hring : f = blockTombstone → ∀ i r, r < 2 → h.ctl.temporalActive i r ≠ b)
    (hfwd : mergesBackward h (b + 32) = false) : Truthful (Tlsf.deallocate h (b + 32)).2 x := by
  obtain ⟨B, hGB, ht⟩ := ht
  rw [hG.used_eq hGB] at ht
  obtain ⟨h', A', r, hde, hG', hR, hc⟩ := hG.deallocate hb hring
  simp only [mergesBackward, Nat.add_sub_cancel, beq_eq_false_iff_ne] at hfwd
  have hr : r = b := by
    rcases hR.root with hr | ⟨hr, hfree⟩
    · exact hr
    · exact absurd (hr ▸ hfree) hfwd
  subst hr
  rw [hde]
  refine ⟨A', hG', fun hlo hhi => ?_⟩
  rw [hc.base] at hlo
  rw [hc.endSentinel] at hhi
  by_cases hxr : x = r
  · subst hxr
    left
    show h'.mem.hi x = blockFree
    rw [hR.flags, update_self]
  · rcases ht hlo hhi with hfree | hsome
    · left
      show h'.mem.hi x = blockFree
      rw [hR.flags, update_of_ne hxr, hfree]
    · exact Or.inr (by rw [hR.used, update_of_ne hxr]; exact hsome)

theorem store (ht : Truthful h x) (hG : Good h A) {y : ℕ} (hy : Payload A y) (c : Cell)
    (hxy : x ≠ y) : Truthful ⟨h.ctl, h.mem.store y c⟩ x := by
  obtain ⟨B, hGB, ht⟩ := ht
  rw [hG.used_eq hGB] at ht
  refine ⟨A, hG.store hy c, fun hlo hhi => ?_⟩
  refine (ht hlo hhi).imp_left fun hfree => ?_
  show update h.mem.hi y c.hi x = blockFree
  rw [update_of_ne hxy, hfree]

end Truthful

theorem initMemory_truthful {m : Mem} {ptr len : ℕ} (hlen : ptr + len ≤ 2 ^ 64)
    (hacc : (initMemory m ptr len).ctl.base ≠ 0) (hm : ∀ x, m.hi x = blockFree) (x : ℕ) :
    Truthful (initMemory m ptr len) x := by
  refine ⟨_, initMemory_good hlen hacc, fun hlo hhi => Or.inl ?_⟩
  have hformat : ∀ {r data : ℕ}, r + 32 ≤ x → x < r + 32 + data →
      (formatPool m r data).mem.hi x = blockFree := by
    intro r data hlo hhi
    have hr : x ≠ r := by omega
    have hes : x ≠ r + 32 + data := by omega
    simp only [formatPool, flInsert_hi, writeHdr, Mem.setW1_hi, Mem.setW2_hi, Mem.setW3_hi,
      Mem.setHi_hi, Mem.setLo_hi, TlsfList.endSentinel, update_apply, hr, hes, if_false, hm,
      ite_self]
  revert hlo hhi
  simp only [initMemory] at hacc ⊢
  split_ifs at hacc ⊢
  · exact absurd rfl hacc
  · exact absurd rfl hacc
  · exact absurd rfl hacc
  · exact hformat

end AbcMalloc.Tlsf
