import AbcMalloc.LedgerRuns
import AbcMalloc.Tlsf.Runs

/-! `__tlsf_list` refines a ledger: a good pool is a ledger of its blocks in use, its rings
and its counters. -/
namespace AbcMalloc.Tlsf
open Function Foundation

def tlsfLedger (h : Heap) (A : Blocks) : Ledger where
  lo := h.ctl.base + 32
  hi := h.ctl.endSentinel
  used := used A
  ring x := x ≠ 0 ∧ InRing h.ctl x
  allocated := h.ctl.allocatedBytes
  tombstoned := h.ctl.tombstonedBytes

def TlsfRep (h : Heap) (L : Ledger) : Prop := ∃ A, Good h A ∧ L = tlsfLedger h A

theorem Good.ledger_valid {h : Heap} {A : Blocks} (hG : Good h A) : (tlsfLedger h A).Valid where
  pos := Nat.succ_pos _
  top := by
    have := hG.geo.top
    show h.ctl.endSentinel < 2 ^ 64
    omega
  within ha := hG.phys.base_lt (used_eq_some.1 ha).1
  size ha := by
    have := hG.phys.size_ge (used_eq_some.1 ha).1
    omega
  disjoint ha hb hne := hG.phys.tiles.disjoint (used_eq_some.1 ha).1 (used_eq_some.1 hb).1 hne
  kinds ha := hG.kinds ha
  ring := by
    rintro a ⟨h0, i, r, hr, rfl⟩
    obtain ⟨n, f, q, h₁, h₂, -⟩ := hG.rings.entry hr h0
    exact ⟨n, f, h₁, h₂⟩

theorem Counts.endSentinel {s s' : TlsfList} {b a t : ℕ} (h : Counts s s' b a t) :
    s'.endSentinel = s.endSentinel := by
  unfold TlsfList.endSentinel
  rw [h.base, h.total]

theorem Takes.opens {h h' : Heap} {A A' : Blocks} {b sz f : ℕ} (hT : Takes h h' A A' b sz f)
    (hc : Counts h.ctl h'.ctl b ((h.ctl.allocatedBytes + sz) % 2 ^ 64) h.ctl.tombstonedBytes) :
    (tlsfLedger h A).Opens (tlsfLedger h' A') b sz f where
  lo := congrArg (· + 32) hc.base
  hi := hc.endSentinel
  unused := hT.not_used
  used := hT.used
  ring hx := (hc.ring hx.1 hx.2).imp id fun hin => ⟨hx.1, hin⟩
  allocated := hc.allocated
  tombstoned := hc.tombstoned

theorem tlsf_refines : Refines tlsfBook fitsRequest TlsfRep where
  header_le := le_rfl
  valid := by
    rintro h L ⟨A, hG, rfl⟩
    exact hG.ledger_valid
  used := by
    rintro h L ⟨A, hG, rfl⟩
    rfl
  tombstoned := by
    rintro h L ⟨A, hG, rfl⟩
    rfl
  isAllocated := by
    rintro h L b n f ⟨A, hG, rfl⟩ hb
    exact hG.isAllocated hb
  isTombstoned := by
    rintro h L b n f ⟨A, hG, rfl⟩ hb
    exact hG.isTombstoned hb
  isTemporal := by
    rintro h L b n f ⟨A, hG, rfl⟩ hb
    exact hG.isTemporal hb
  blockSize := by
    rintro h L b n f ⟨A, hG, rfl⟩ hb
    exact hG.blockSize hb
  allocate := by
    rintro h L u ⟨A, hG, rfl⟩ hfit
    rcases hG.allocate (of_decide_eq_true hfit) with hnull
      | ⟨b, sz, h', A', hal, hG', hT, -, hu, hc⟩
    · exact Or.inl hnull
    · exact Or.inr ⟨b, sz, h', _, hal, ⟨A', hG', rfl⟩, hT.opens hc, by omega⟩
  temporalAllocate := by
    rintro h L u ⟨A, hG, rfl⟩ hfit
    rcases hG.temporalAllocate (of_decide_eq_true hfit) with hnull |
      ⟨i, r, b, sz, f, h', hr, hring, hb, hal, hG', hm, hc⟩ | ⟨b, sz, h', A', hal, hG', hT, hc⟩
    · exact Or.inl hnull
    · refine Or.inr (Or.inl ⟨b, sz, f, h', _, hal, ⟨A, hG', rfl⟩,
        ⟨congrArg (· + 32) hc.base, hc.endSentinel, rfl, fun {x} hx => ⟨hx.1, ?_⟩, hc.allocated,
          hc.tombstoned⟩, ⟨hG.used_pos hb, i, r, hr, hring⟩, hb⟩)
      exact (hc.ring hx.1 hx.2).resolve_left hx.1
    · exact Or.inr (Or.inr ⟨b, sz, h', _, hal, ⟨A', hG', rfl⟩, hT.opens hc⟩)
  tombstone := by
    rintro h L b n f ⟨A, hG, rfl⟩ hb hf
    obtain ⟨h', hts, hm, hG', hc⟩ := hG.tombstone hb hf
    refine ⟨h', _, hts, ⟨_, hG', rfl⟩, congrArg (· + 32) hc.base, hc.endSentinel, ?_,
      fun {x} hx => ⟨hx.1, (hc.ring hx.1 hx.2).resolve_left hx.1⟩, hc.allocated, hc.tombstoned⟩
    show used (update A b _) = _
    rw [used_update, usedEntry_flags (by decide)]
    rfl
  tombstone_again := by
    rintro h L b n ⟨A, hG, rfl⟩ hb
    exact hG.tombstone_again hb
  deallocate := by
    rintro h L b n f ⟨A, hG, rfl⟩ hb hring
    obtain ⟨h', A', r, hde, hG', hR, hc⟩ := hG.deallocate hb fun hf i r hr he =>
      hring hf ⟨hG.used_pos hb, i, r, hr, he⟩
    exact ⟨h', _, hde, ⟨A', hG', rfl⟩, congrArg (· + 32) hc.base, hc.endSentinel, hR.used,
      fun {x} hx => ⟨hx.1, (hc.ring hx.1 hx.2).resolve_left hx.1⟩, hc.allocated, hc.tombstoned⟩
  store := by
    rintro h L x c ⟨A, hG, rfl⟩ ⟨b, n, f, i, hb, rfl, hi⟩
    have hx : Payload A (b + 32 + 32 * i) := ⟨b, n, f, hb, by omega, by omega⟩
    exact ⟨A, hG.store hx c, rfl⟩

/-! ## Accounting over the blocks of the pool -/

/-- Sum of the sizes of the blocks of the pool whose flags satisfy `p`. -/
def sumBlocks (h : Heap) (p : ℕ → Bool) : ℕ :=
  ((blocks h).map fun b => if p (h.mem.hi b) then h.mem.lo b else 0).sum

def isLiveFlags (f : ℕ) : Bool := f ≠ blockFree && f &&& blockTombstone = 0

def isTombFlags (f : ℕ) : Bool := f &&& blockTombstone ≠ 0

/-- A sum over the headers of the pool is a sum over its blocks in use. -/
theorem Good.sumBlocks_eq {h : Heap} {A : Blocks} (hG : Good h A) (p : ℕ → Bool)
    (g : ℕ × ℕ → ℕ) (hfree : p blockFree = false)
    (hg : ∀ {n f}, IsKind f → g (n, f) = if p f then n else 0) :
    sumBlocks h p = mass g (h.ctl.base + 32) h.ctl.endSentinel (used A) := by
  have hwalk := sum_walk hG.phys.tiles (fun ha => hG.phys.lo ha) hG.first_block.1.le
    (show h.ctl.endSentinel ≤ h.ctl.base + 32 + h.ctl.total from le_rfl)
    (fun b => if p (h.mem.hi b) then h.mem.lo b else 0)
    (fun v => g (v.1, v.2.getD blockFree) * if v.2.getD blockFree = blockFree then 0 else 1)
    (fun {a n k} ha => by
      cases k with
      | none => exact absurd ha hG.closed
      | some f =>
        rw [hG.phys.hi ha, hG.phys.lo ha]
        by_cases hf : f = blockFree
        · simp [hf, hfree]
        · simp [hf, hg (hG.kinds (used_eq_some.2 ⟨ha, hf⟩))])
  rw [sumBlocks, blocks, hwalk]
  unfold mass
  refine Finset.sum_congr rfl fun a _ => ?_
  cases ha : A a with
  | none => simp [used, ha]
  | some v =>
    obtain ⟨n, k⟩ := v
    cases k with
    | none => exact absurd ha hG.closed
    | some f =>
      by_cases hf : f = blockFree
      · simp [used, usedEntry, ha, hf]
      · simp [used, usedEntry, ha, hf]

theorem initMemory_vacant {m : Mem} {ptr len : ℕ} (hlen : ptr + len ≤ 2 ^ 64)
    (hacc : (initMemory m ptr len).ctl.base ≠ 0) :
    ∃ L, TlsfRep (initMemory m ptr len) L ∧ L.Vacant ∧ L.lo = (initMemory m ptr len).ctl.base + 32 ∧
      L.hi = (initMemory m ptr len).ctl.endSentinel := by
  have hG := initMemory_good hlen hacc
  have hctl : (initMemory m ptr len).ctl.allocatedBytes = 0 ∧
      (initMemory m ptr len).ctl.tombstonedBytes = 0 ∧
      ∀ i r, (initMemory m ptr len).ctl.temporalActive i r = 0 := by
    simp only [initMemory]
    split_ifs <;> exact ⟨rfl, rfl, fun _ _ => rfl⟩
  have hused : ∀ x, used (freshBlocks (initMemory m ptr len).ctl) x = none := by
    intro x
    rw [freshBlocks, used_update, usedEntry_free, update_apply]
    split_ifs <;> rfl
  refine ⟨_, ⟨_, hG, rfl⟩, ⟨hused, ?_, hctl.1, hctl.2.1⟩, rfl, rfl⟩
  rintro x ⟨h0, i, r, -, rfl⟩
  exact h0 (hctl.2.2 i r)

theorem initMemory_rep {m : Mem} {ptr len : ℕ} (hlen : ptr + len ≤ 2 ^ 64)
    (hacc : (initMemory m ptr len).ctl.base ≠ 0) :
    ∃ L, TlsfRep (initMemory m ptr len) L ∧ L.Balanced ∧ ∀ x, ¬L.ring x := by
  obtain ⟨L, hrep, hV, -⟩ := initMemory_vacant (m := m) hlen hacc
  exact ⟨L, hrep, hV.balanced, hV.ring⟩

theorem initMemory_bounds {m : Mem} {ptr len : ℕ} (hlen : ptr + len ≤ 2 ^ 64)
    (hacc : (initMemory m ptr len).ctl.base ≠ 0) :
    ptr ≤ (initMemory m ptr len).ctl.base ∧
      (initMemory m ptr len).ctl.endSentinel + 32 ≤ ptr + len := by
  simp only [initMemory] at hacc ⊢
  split_ifs at hacc ⊢ with hadj husable hdata
  · exact absurd rfl hacc
  · exact absurd rfl hacc
  · exact absurd rfl hacc
  · obtain ⟨-, hge, hadj'⟩ := alignUp_spec hlen (by omega)
    rw [hadj'] at husable hadj ⊢
    have hus : alignDown (len - (alignUp ptr 32 - ptr)) 32 ≤ len - (alignUp ptr 32 - ptr) := by
      unfold alignDown
      omega
    refine ⟨hge, ?_⟩
    show alignUp ptr 32 + 32 + (alignDown (len - (alignUp ptr 32 - ptr)) 32 - 2 * 32) + 32 ≤
      ptr + len
    omega

end AbcMalloc.Tlsf
