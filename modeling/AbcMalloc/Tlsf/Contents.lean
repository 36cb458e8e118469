import AbcMalloc.Contents
import AbcMalloc.Tlsf.Refinement

/-! What the operations of `__tlsf_list` write: headers and the links of free blocks. The cells
behind the headers of blocks in use stay. -/
namespace AbcMalloc.Tlsf
open Function Foundation

theorem AgreeOff.cell {S : ℕ → Prop} {m m' : Mem} (h : AgreeOff S m m') {x : ℕ} (hx : ¬S x) :
    m'.cell x = m.cell x := by
  obtain ⟨h₁, h₂, h₃, h₄, h₅⟩ := h x hx
  simp only [Mem.cell, h₁, h₂, h₃, h₄, h₅]

theorem payload_of_cellOf {h : Heap} {A : Blocks} {b x : ℕ} (hx : (tlsfLedger h A).CellOf 32 b x) :
    Payload A x ∧ x ≠ b := by
  obtain ⟨n, f, i, hb, rfl, hi⟩ := hx
  exact ⟨⟨b, n, f, hb, by omega, by omega⟩, by omega⟩

theorem tlsf_preserves : Preserves tlsfBook fitsRequest TlsfRep fun h => h.mem.cell where
  allocate := by
    rintro h h' L u c b x ⟨A, hG, rfl⟩ hfit hrun hx
    rcases hG.allocate (of_decide_eq_true hfit) with hnull | ⟨d, sz, h₁, A', hal, -, hT, -⟩
    · obtain ⟨-, rfl⟩ := Prod.mk.inj (Option.some.inj (hnull.symm.trans hrun))
      rfl
    · obtain ⟨-, rfl⟩ := Prod.mk.inj (Option.some.inj (hal.symm.trans hrun))
      exact hT.payload.cell (not_not.2 (payload_of_cellOf hx).1)
  temporalAllocate := by
    rintro h h' L u c b x ⟨A, hG, rfl⟩ hfit hrun hx
    rcases hG.temporalAllocate (of_decide_eq_true hfit) with hnull |
      ⟨i, r, d, sz, f, h₁, -, -, -, hal, -, hm, -⟩ | ⟨d, sz, h₁, A', hal, -, hT, -⟩
    · obtain ⟨-, rfl⟩ := Prod.mk.inj (Option.some.inj (hnull.symm.trans hrun))
      rfl
    · obtain ⟨-, rfl⟩ := Prod.mk.inj (Option.some.inj (hal.symm.trans hrun))
      simp only [hm]
    · obtain ⟨-, rfl⟩ := Prod.mk.inj (Option.some.inj (hal.symm.trans hrun))
      exact hT.payload.cell (not_not.2 (payload_of_cellOf hx).1)
  tombstone := by
    rintro h L b n f a x ⟨A, hG, rfl⟩ hb hf hx
    obtain ⟨h', hts, hm, -⟩ := hG.tombstone hb hf
    have hne : x ≠ b := by
      obtain ⟨m, g, i, ha, he, hi⟩ := hx
      have he : x = a + 32 + 32 * i := he
      by_cases hab : a = b
      · omega
      · have := hG.ledger_valid.disjoint ha hb hab
        have := hG.ledger_valid.size hb
        omega
    show (Tlsf.tombstone h (b + 32)).2.mem.cell x = _
    rw [hts]
    simp [Mem.cell, hm, update_of_ne hne]
  deallocate := by
    rintro h L b n f a x ⟨A, hG, rfl⟩ hb hring hx -
    obtain ⟨h', A', r, hde, -, hR, -⟩ := hG.deallocate hb fun hf i r hr he =>
      hring hf ⟨hG.used_pos hb, i, r, hr, he⟩
    show (Tlsf.deallocate h (b + 32)).2.mem.cell x = _
    rw [hde]
    exact hR.payload.cell (not_not.2 (payload_of_cellOf hx).1)
  store h x c := Mem.cell_store h.mem x c

end AbcMalloc.Tlsf
