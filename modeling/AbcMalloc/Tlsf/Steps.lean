import AbcMalloc.Tlsf.Rings

/-! What each operation of `__tlsf_list` does to a pool in a good state. -/
namespace AbcMalloc.Tlsf
open Function Foundation

structure Good (h : Heap) (A : Blocks) : Prop extends Inv h A where
  kinds : ∀ {a n f}, used A a = some (n, f) →
    f = blockAlloc ∨ f = blockTombstone ∨ f = blockAlloc + blockTemporal
  rings : Rings h.ctl A

/-- The block that the rings hold for a request of `n` bytes; `0` is none. -/
def ringBlock (s : TlsfList) (n : ℕ) : ℕ :=
  let c := mappingSearch (adjustedBlockSize n)
  let i := idx c.1.toNat c.2
  if inClasses s c then s.temporalActive i (ringSlot s i) else 0

def InRing (s : TlsfList) (x : ℕ) : Prop := ∃ i r, r < 2 ∧ s.temporalActive i r = x

/-- The bounds of the pool are kept, the byte counters become `a` and `t`, and no block but
`b` enters a ring. -/
structure Counts (s s' : TlsfList) (b a t : ℕ) : Prop where
  base : s'.base = s.base
  total : s'.total = s.total
  allocated : s'.allocatedBytes = a
  tombstoned : s'.tombstonedBytes = t
  ring : ∀ {x}, x ≠ 0 → InRing s' x → x = b ∨ InRing s x

theorem Counts.same_ring {s s' : TlsfList} (b : ℕ) (hb : s'.base = s.base) (ht : s'.total = s.total)
    (hr : s'.temporalActive = s.temporalActive) :
    Counts s s' b s'.allocatedBytes s'.tombstonedBytes :=
  ⟨hb, ht, rfl, rfl, fun _ hx => Or.inr (by simpa only [InRing, hr] using hx)⟩

/-- A step that changes the counters followed by one that keeps them. -/
theorem Counts.trans {s s' s'' : TlsfList} {b a t : ℕ} (h : Counts s s' b a t)
    (h' : Counts s' s'' b s'.allocatedBytes s'.tombstonedBytes) : Counts s s'' b a t where
  base := h'.base.trans h.base
  total := h'.total.trans h.total
  allocated := h'.allocated.trans h.allocated
  tombstoned := h'.tombstoned.trans h.tombstoned
  ring hx hin := (h'.ring hx hin).elim Or.inl (h.ring hx)

theorem SameBook.counts {s s' : TlsfList} (h : SameBook s s') (b : ℕ) :
    Counts s s' b s.allocatedBytes s.tombstonedBytes := by
  obtain ⟨_, _, _, rfl⟩ := h
  exact .same_ring b rfl rfl rfl

theorem ringInstall_counts (s : TlsfList) (c : ℤ × ℕ) (b : ℕ) :
    Counts s (ringInstall s c b) b s.allocatedBytes s.tombstonedBytes := by
  simp only [ringInstall]
  split_ifs
  · refine ⟨rfl, rfl, rfl, rfl, ?_⟩
    rintro x - ⟨i, r, hr, he⟩
    simp only [update_apply] at he
    split_ifs at he with hi
    · simp only [update_apply] at he
      split_ifs at he
      · exact Or.inl he.symm
      · exact Or.inr ⟨_, r, hr, he⟩
    · exact Or.inr ⟨i, r, hr, he⟩
  · exact .same_ring b rfl rfl rfl

theorem Takes.not_used {h h' : Heap} {A A' : Blocks} {b sz f : ℕ} (hT : Takes h h' A A' b sz f) :
    Tlsf.used A b = none := by
  obtain ⟨n, hn, -⟩ := hT.free
  simp [Tlsf.used, hn]

theorem kinds_update {A A' : Blocks} {b n f : ℕ}
    (hk : ∀ {a n f}, used A a = some (n, f) →
      f = blockAlloc ∨ f = blockTombstone ∨ f = blockAlloc + blockTemporal)
    (hA : used A' = update (used A) b (some (n, f)))
    (hf : f = blockAlloc ∨ f = blockTombstone ∨ f = blockAlloc + blockTemporal) {a n' f' : ℕ}
    (ha : used A' a = some (n', f')) :
    f' = blockAlloc ∨ f' = blockTombstone ∨ f' = blockAlloc + blockTemporal := by
  rw [hA] at ha
  by_cases hab : a = b
  · subst hab
    simp only [update_self, Option.some.injEq, Prod.mk.injEq] at ha
    exact ha.2 ▸ hf
  · rw [update_of_ne hab] at ha
    exact hk ha

namespace Good
variable {h : Heap} {A A' : Blocks} {b n f : ℕ}

theorem base_ne_zero (hG : Good h A) : h.ctl.base ≠ 0 := by
  have := hG.geo.base_pos
  omega

theorem used_pos (hG : Good h A) (hb : used A b = some (n, f)) : b ≠ 0 :=
  hG.pos (used_eq_some.1 hb).1

theorem blockSize (hG : Good h A) (hb : used A b = some (n, f)) : blockSize h (b + 32) = n := by
  obtain ⟨hA, -⟩ := used_eq_some.1 hb
  have hlt := hG.phys.base_lt hA
  have hpos := hG.phys.size_ge hA
  have hin : inData h.ctl (b + 32) = true := by
    simp only [inData, Nat.add_sub_cancel, decide_eq_true_eq]
    omega
  rw [Tlsf.blockSize, if_pos ⟨hG.base_ne_zero, by omega, hin⟩, Nat.add_sub_cancel]
  exact hG.phys.lo hA

theorem isAllocated (hG : Good h A) (hb : used A b = some (n, f)) :
    isAllocated h (b + 32) = true := by
  obtain ⟨hA, hf⟩ := used_eq_some.1 hb
  have hlt := hG.phys.base_lt hA
  have hpos := hG.phys.size_ge hA
  have hin : inData h.ctl (b + 32) = true := by
    simp only [inData, Nat.add_sub_cancel, decide_eq_true_eq]
    omega
  have hhi : h.mem.hi b ≠ blockFree := (hG.phys.hi hA).symm ▸ hf
  simp [Tlsf.isAllocated, hin, hG.base_ne_zero, hhi]

theorem isTombstoned (hG : Good h A) (hb : used A b = some (n, f)) :
    isTombstoned h (b + 32) = decide (f = blockTombstone) := by
  simp only [Tlsf.isTombstoned, Nat.add_sub_cancel, hG.phys.hi (used_eq_some.1 hb).1]
  rcases hG.kinds hb with rfl | rfl | rfl <;> rfl

theorem isTemporal (hG : Good h A) (hb : used A b = some (n, f)) :
    isTemporal h (b + 32) = decide (f = blockAlloc + blockTemporal) := by
  simp only [Tlsf.isTemporal, Nat.add_sub_cancel, hG.phys.hi (used_eq_some.1 hb).1]
  rcases hG.kinds hb with rfl | rfl | rfl <;> rfl

theorem handOut {h₂ : Heap} {sz : ℕ} (hG : Good h A) (hlo : h₂.mem.lo b = sz)
    (hbook : SameBook h.ctl h₂.ctl) (hT : Takes h ⟨h₂.ctl, h₂.mem.setHi b f⟩ A A' b sz f) :
    (Tlsf.handOut h₂ b f).1 = ⟨b + 32, sz - 32⟩ ∧ Takes h (Tlsf.handOut h₂ b f).2 A A' b sz f ∧
      Counts h.ctl (Tlsf.handOut h₂ b f).2.ctl b ((h.ctl.allocatedBytes + sz) % 2 ^ 64)
        h.ctl.tombstonedBytes ∧
      Rings (Tlsf.handOut h₂ b f).2.ctl A := by
  obtain ⟨_, _, _, hs⟩ := hbook
  refine ⟨by simp only [Tlsf.handOut, hlo], ?_, ?_, ?_⟩
  · exact ⟨hT.inv.congr rfl rfl rfl rfl rfl, hT.free, hT.used, hT.payload, hT.flags⟩
  · simp only [Tlsf.handOut, hlo, hs]
    exact .same_ring b rfl rfl rfl
  · simp only [Tlsf.handOut, hs]
    exact hG.rings.congr rfl hG.rings.rotor rfl fun _ _ => rfl

theorem allocate (hG : Good h A) {u : ℕ} (hreq : adjustedBlockSize u ≤ 2 ^ 64 - 2 ^ 59) :
    allocate h u = some (.null, h) ∨
      ∃ b sz h' A', allocate h u = some (⟨b + 32, sz - 32⟩, h') ∧ Good h' A' ∧
        Takes h h' A A' b sz blockAlloc ∧ adjustedBlockSize u ≤ sz ∧ u + 64 ≤ sz ∧
        Counts h.ctl h'.ctl b ((h.ctl.allocatedBytes + sz) % 2 ^ 64) h.ctl.tombstonedBytes := by
  simp only [Tlsf.allocate, if_neg hG.base_ne_zero]
  split_ifs with hzero
  · exact Or.inl rfl
  · obtain ⟨hq, hqm, hu, -⟩ := adjustedBlockSize_spec hzero
    rcases hG.take hq hqm hreq with hnone
      | ⟨b, h₁, h₂, sz, hb0, hfind, hsplit, hlo, hsz, hbook, htake⟩
    · left
      simp [hnone]
    · right
      obtain ⟨A', hT⟩ := htake blockAlloc (by decide)
      obtain ⟨hchunk, hT', hcnt, hR⟩ := hG.handOut hlo hbook hT
      refine ⟨b, sz, (Tlsf.handOut h₂ b blockAlloc).2, A', ?_, ⟨hT'.inv, ?_, ?_⟩, hT', by omega,
        by omega, hcnt⟩
      · simp [hfind, if_neg hb0, hsplit, ← hchunk]
      · exact kinds_update hG.kinds hT'.used (Or.inl rfl)
      · refine hR.congr rfl hR.rotor rfl fun hr h0 => ?_
        rw [hT'.used, update_of_ne (hR.ne_of_not_used hT'.not_used hr h0)]

theorem temporalAllocate_ring (hG : Good h A) {u : ℕ} (h0 : ringBlock h.ctl u ≠ 0) :
    ∃ i r sz f h', r < 2 ∧ h.ctl.temporalActive i r = ringBlock h.ctl u ∧
      used A (ringBlock h.ctl u) = some (sz, f) ∧
      temporalAllocate h u = some (⟨ringBlock h.ctl u + 32, sz - 32⟩, h') ∧ Good h' A ∧
      h'.mem = h.mem ∧ Counts h.ctl h'.ctl 0 h.ctl.allocatedBytes h.ctl.tombstonedBytes := by
  have hzero : adjustedBlockSize u ≠ 0 := by
    intro hz
    apply h0
    simp only [ringBlock, hz]
    rfl
  simp only [Tlsf.temporalAllocate, if_neg hG.base_ne_zero, if_neg hzero]
  simp only [ringBlock] at h0 ⊢
  by_cases hin : inClasses h.ctl (mappingSearch (adjustedBlockSize u)) = true
  · rw [if_pos hin] at h0
    simp only [if_pos hin]
    rw [if_pos ⟨hin, h0⟩]
    set i := idx (mappingSearch (adjustedBlockSize u)).1.toNat
      (mappingSearch (adjustedBlockSize u)).2
    have hr := ringSlot_lt (hG.rings.rotor i)
    obtain ⟨sz, f, q, hused, -⟩ := hG.rings.entry hr h0
    refine ⟨i, ringSlot h.ctl i, sz, f,
      ⟨{ h.ctl with
        temporalRotor := update h.ctl.temporalRotor i (ringSlot h.ctl i ^^^ 1) }, h.mem⟩,
      hr, rfl, hused, ?_, ⟨?_, hG.kinds, ?_⟩, rfl, .same_ring 0 rfl rfl rfl⟩
    · rw [hG.phys.lo (used_eq_some.1 hused).1]
    · exact hG.toInv.congr rfl rfl rfl rfl rfl
    · refine hG.rings.congr rfl (fun j => ?_) rfl fun _ _ => rfl
      simp only [update_apply]
      split_ifs
      · exact xor_one_lt_two hr
      · exact hG.rings.rotor j
  · exact absurd (if_neg hin) h0

/-- Without a ring block the request is refused or carved. -/
theorem temporalAllocate_carve (hG : Good h A) {u : ℕ} (h0 : ringBlock h.ctl u = 0) :
    temporalAllocate h u = some (.null, h) ∨ (adjustedBlockSize u ≠ 0 ∧
      temporalAllocate h u = temporalCarve h (adjustedBlockSize u)) := by
  simp only [Tlsf.temporalAllocate, if_neg hG.base_ne_zero]
  by_cases hzero : adjustedBlockSize u = 0
  · exact Or.inl (if_pos hzero)
  · right
    refine ⟨hzero, ?_⟩
    rw [if_neg hzero]
    apply if_neg
    rintro ⟨hin, hne⟩
    simp only [ringBlock, if_pos hin] at h0
    exact hne h0

theorem temporalCarve (hG : Good h A) {q : ℕ} (hq : 64 ≤ q) (hqm : q % 32 = 0)
    (hlim : q ≤ 2 ^ 64 - 2 ^ 59) :
    temporalCarve h q = some (.null, h) ∨
      ∃ b sz h' A', temporalCarve h q = some (⟨b + 32, sz - 32⟩, h') ∧ q ≤ sz ∧ Good h' A' ∧
        Takes h h' A A' b sz (blockAlloc + blockTemporal) ∧
        Counts h.ctl h'.ctl b ((h.ctl.allocatedBytes + sz) % 2 ^ 64) h.ctl.tombstonedBytes := by
  simp only [Tlsf.temporalCarve]
  rcases hG.take hq hqm hlim with hnone
    | ⟨b, h₁, h₂, sz, hb0, hfind, hsplit, hlo, hsz, hbook, htake⟩
  · left
    simp [hnone]
  · right
    obtain ⟨A', hT⟩ := htake (blockAlloc + blockTemporal) (by decide)
    obtain ⟨hchunk, hT', hcnt, hR⟩ := hG.handOut hlo hbook hT
    have hsame : ∀ s c x, (ringInstall s c x).heads = s.heads ∧
        (ringInstall s c x).slBitmap = s.slBitmap ∧ (ringInstall s c x).flBitmap = s.flBitmap := by
      intro s c x
      simp only [ringInstall]
      split_ifs <;> exact ⟨rfl, rfl, rfl⟩
    generalize hho : Tlsf.handOut h₂ b (blockAlloc + blockTemporal) = o at hchunk hT' hcnt hR
    have hc' := ringInstall_counts o.2.ctl (mappingSearch q) b
    obtain ⟨hh, hs, hf⟩ := hsame o.2.ctl (mappingSearch q) b
    have hI' := hT'.inv.congr hc'.base hc'.total hh hs hf
    refine ⟨b, sz, _, A', ?_, by omega, ⟨hI', kinds_update hG.kinds hT'.used (by decide), ?_⟩,
      ⟨hI', hT'.free, hT'.used, hT'.payload, hT'.flags⟩, hcnt.trans hc'⟩
    · simp [hfind, if_neg hb0, hsplit, hho, hchunk]
    · exact hR.install hT'.not_used hb0 hq hsz hT'.used

/-- `temporal_allocate` returns null, a block remembered in the ring of the request, or a
fresh block. -/
theorem temporalAllocate (hG : Good h A) {u : ℕ} (hreq : adjustedBlockSize u ≤ 2 ^ 64 - 2 ^ 59) :
    temporalAllocate h u = some (.null, h) ∨
      (∃ i r b sz f h', r < 2 ∧ h.ctl.temporalActive i r = b ∧ used A b = some (sz, f) ∧
        temporalAllocate h u = some (⟨b + 32, sz - 32⟩, h') ∧ Good h' A ∧ h'.mem = h.mem ∧
        Counts h.ctl h'.ctl 0 h.ctl.allocatedBytes h.ctl.tombstonedBytes) ∨
      ∃ b sz h' A', temporalAllocate h u = some (⟨b + 32, sz - 32⟩, h') ∧ Good h' A' ∧
        Takes h h' A A' b sz (blockAlloc + blockTemporal) ∧
        Counts h.ctl h'.ctl b ((h.ctl.allocatedBytes + sz) % 2 ^ 64) h.ctl.tombstonedBytes := by
  by_cases h0 : ringBlock h.ctl u = 0
  · rcases hG.temporalAllocate_carve h0 with hnull | ⟨hzero, hcarve⟩
    · exact Or.inl hnull
    · obtain ⟨hq, hqm, -⟩ := adjustedBlockSize_spec hzero
      rw [hcarve]
      rcases hG.temporalCarve hq hqm hreq with hnull | ⟨b, sz, h', A', hal, -, hG', hT, hc⟩
      · exact Or.inl hnull
      · exact Or.inr (Or.inr ⟨b, sz, h', A', hal, hG', hT, hc⟩)
  · obtain ⟨i, r, sz, f, h', hr, hslot, hb, hal, hG', hm, hc⟩ := hG.temporalAllocate_ring h0
    exact Or.inr (Or.inl ⟨i, r, _, sz, f, h', hr, hslot, hb, hal, hG', hm, hc⟩)

end Good

theorem Inv.relabel {h : Heap} {A : Blocks} {b n f g : ℕ} (hI : Inv h A)
    (hb : used A b = some (n, f)) (hg : g ≠ blockFree) :
    Inv ⟨h.ctl, h.mem.setHi b g⟩ (update A b (some (n, some g))) := by
  obtain ⟨hA, hf⟩ := used_eq_some.1 hb
  have hC := (hI.unmark hA hf).mark (update_self ..) (hI.quiet hA hf) hg
  rw [update_idem] at hC
  have hold : ∀ {x j}, update A b (some (n, some g)) x = some (j, some blockFree) →
      A x = some (j, some blockFree) := by
    intro x j hx
    have hxb : x ≠ b := by
      rintro rfl
      simp only [update_self, Option.some.injEq, Prod.mk.injEq] at hx
      exact hg hx.2
    rwa [update_of_ne hxb] at hx
  refine ⟨hC, fun ha ha' => hI.coalesced (hold ha) (hold ha'), fun {a j} ha => ?_⟩
  have hab : a ≠ b := by
    rintro rfl
    simp at ha
  rw [update_of_ne hab] at ha
  exact hI.closed ha

namespace Good
variable {h : Heap} {A A' : Blocks} {b n f : ℕ}

/-- `tombstone` of an allocated block. -/
theorem tombstone (hG : Good h A) (hb : used A b = some (n, f)) (hf : f ≠ blockTombstone) :
    ∃ h', tombstone h (b + 32) = (.tombstoned, h') ∧ h'.mem = h.mem.setHi b blockTombstone ∧
      Good h' (update A b (some (n, some blockTombstone))) ∧
      Counts h.ctl h'.ctl 0 ((h.ctl.allocatedBytes + (2 ^ 64 - n)) % 2 ^ 64)
        ((h.ctl.tombstonedBytes + n) % 2 ^ 64) := by
  obtain ⟨hA, hf0⟩ := used_eq_some.1 hb
  have hbit : h.mem.hi b &&& blockAlloc ≠ 0 := by
    rw [hG.phys.hi hA]
    rcases hG.kinds hb with rfl | rfl | rfl
    · decide
    · exact absurd rfl hf
    · decide
  have hU : used (update A b (some (n, some blockTombstone))) =
      update (used A) b (some (n, blockTombstone)) := by
    rw [used_update, usedEntry_flags (by decide)]
  simp only [Tlsf.tombstone, Nat.add_sub_cancel, if_neg hbit, hG.phys.lo hA]
  refine ⟨_, rfl, rfl, ⟨(hG.toInv.relabel hb (by decide)).congr rfl rfl rfl rfl rfl,
    kinds_update hG.kinds hU (by decide), hG.rings.classes, ?_, ?_, ?_⟩, .same_ring 0 rfl rfl rfl⟩
  · exact hG.rings.rotor
  · intro i r hr h0
    obtain ⟨n', f', q, h₁, h₂, h₃, h₄, h₅⟩ := hG.rings.entry hr h0
    by_cases he : h.ctl.temporalActive i r = b
    · rw [he, hb] at h₁
      simp only [Option.some.injEq, Prod.mk.injEq] at h₁
      refine ⟨n', blockTombstone, q, ?_, Or.inr rfl, h₃, h₄, h₅⟩
      rw [hU]
      simp only [he, update_self, h₁.1]
    · refine ⟨n', f', q, ?_, h₂, h₃, h₄, h₅⟩
      rw [hU, update_of_ne he, h₁]
  · exact hG.rings.unique

theorem tombstone_again (hG : Good h A) (hb : used A b = some (n, blockTombstone)) :
    Tlsf.tombstone h (b + 32) = (.invalid, h) := by
  have hbit : h.mem.hi b &&& blockAlloc = 0 := by
    rw [hG.phys.hi (used_eq_some.1 hb).1]
    rfl
  simp only [Tlsf.tombstone, Nat.add_sub_cancel, if_pos hbit]

/-- `deallocate` of a block in use; a tombstoned block must not be in a ring, since its slot
is not cleared. -/
theorem deallocate (hG : Good h A) (hb : used A b = some (n, f))
    (hring : f = blockTombstone → ∀ i r, r < 2 → h.ctl.temporalActive i r ≠ b) :
    ∃ h' A' r, deallocate h (b + 32) = (.ok, h') ∧ Good h' A' ∧ Releases h h' A A' b r ∧
      Counts h.ctl h'.ctl 0 ((h.ctl.allocatedBytes + (2 ^ 64 - n)) % 2 ^ 64)
        (if f = blockTombstone then (h.ctl.tombstonedBytes + (2 ^ 64 - n)) % 2 ^ 64
          else h.ctl.tombstonedBytes) := by
  obtain ⟨hA, hf0⟩ := used_eq_some.1 hb
  have hb0 := hG.pos hA
  have htomb : f &&& blockTombstone ≠ 0 ↔ f = blockTombstone := by
    rcases hG.kinds hb with rfl | rfl | rfl <;> decide
  have hpre : ¬(b + 32 = 0 ∨ h.ctl.base = 0) := by
    have := hG.base_ne_zero
    omega
  simp only [Tlsf.deallocate, Nat.add_sub_cancel, if_neg hpre, hG.phys.hi hA, if_neg hf0,
    hG.phys.lo hA, htomb]
  -- the counters first
  generalize hs₁ : { h.ctl with
    allocatedBytes := (h.ctl.allocatedBytes + (2 ^ 64 - n)) % 2 ^ 64
    tombstonedBytes := if f = blockTombstone then (h.ctl.tombstonedBytes + (2 ^ 64 - n)) % 2 ^ 64
      else h.ctl.tombstonedBytes } = s₁
  have hcnt : Counts h.ctl s₁ 0 ((h.ctl.allocatedBytes + (2 ^ 64 - n)) % 2 ^ 64)
      (if f = blockTombstone then (h.ctl.tombstonedBytes + (2 ^ 64 - n)) % 2 ^ 64
        else h.ctl.tombstonedBytes) := by
    rw [← hs₁]
    exact .same_ring 0 rfl rfl rfl
  have hI₁ : Inv ⟨s₁, h.mem⟩ A := hs₁ ▸ hG.toInv.congr rfl rfl rfl rfl rfl
  have hR₁ : Rings s₁ A := hs₁ ▸ hG.rings.congr rfl hG.rings.rotor rfl fun _ _ => rfl
  have hring₁ : f = blockTombstone → ∀ i r, r < 2 → s₁.temporalActive i r ≠ b := by
    rw [← hs₁]
    exact hring
  -- then the ring slot
  set s₂ := if f &&& blockTemporal ≠ 0 then clearTemporal s₁ b n else s₁ with hs₂
  have hs₂' : ∃ ta, s₂ = { s₁ with temporalActive := ta } ∧
      ∀ i r, ta i r = 0 ∨ ta i r = s₁.temporalActive i r := by
    rw [hs₂]
    split_ifs
    · rcases hR₁.clearTemporal hb hb0 with ⟨i, r, -, -, hc⟩ | ⟨hc, -⟩
      · refine ⟨_, hc, fun i' r' => ?_⟩
        by_cases hi : i' = i
        · subst hi
          simp only [update_self, update_apply]
          split_ifs
          · exact Or.inl rfl
          · exact Or.inr rfl
        · rw [update_of_ne hi]
          exact Or.inr rfl
      · exact ⟨_, hc, fun _ _ => Or.inr rfl⟩
    · exact ⟨_, rfl, fun _ _ => Or.inr rfl⟩
  have hR₂ : ∀ A', used A' = update (used A) b none → Rings s₂ A' := by
    intro A' hA'
    rw [hs₂]
    split_ifs with htmp
    · exact hR₁.clear hb hb0 hA'
    · refine hR₁.congr rfl hR₁.rotor rfl fun {i r} hr h0 => ?_
      have hne : s₁.temporalActive i r ≠ b := by
        intro he
        obtain ⟨n', f', q, h₁, h₂, -⟩ := hR₁.entry hr h0
        rw [he, hb] at h₁
        simp only [Option.some.injEq, Prod.mk.injEq] at h₁
        rcases h₂ with h₂ | h₂
        · rw [h₁.2, h₂] at htmp
          exact htmp (by decide)
        · exact hring₁ (h₁.2.trans h₂) i r hr he
      rw [hA', update_of_ne hne]
  -- and the block itself
  obtain ⟨ta, hta, hslots⟩ := hs₂'
  have hI₂ : Inv ⟨s₂, h.mem⟩ A := by
    rw [hta]
    exact hI₁.congr rfl rfl rfl rfl rfl
  obtain ⟨hbook, A', r, hrel⟩ := hI₂.release hA hf0
  have hR₃ := hR₂ A' hrel.used
  refine ⟨_, A', r, rfl, ⟨hrel.inv, fun {a j g} ha => ?_, ?_⟩,
    ⟨hrel.inv, hrel.used, hrel.payload, hrel.flags, hrel.root⟩, ?_⟩
  · rw [hrel.used] at ha
    by_cases hab : a = b
    · simp [hab] at ha
    · rw [update_of_ne hab] at ha
      exact hG.kinds ha
  · obtain ⟨_, _, _, hbk⟩ := hbook
    rw [hbk]
    exact hR₃.congr rfl hR₃.rotor rfl fun _ _ => rfl
  · have h₂ : Counts s₁ s₂ 0 s₁.allocatedBytes s₁.tombstonedBytes := by
      rw [hta]
      refine ⟨rfl, rfl, rfl, rfl, ?_⟩
      rintro x hx ⟨i, r, hr, he⟩
      rcases hslots i r with h0 | heq
      · exact absurd (he.symm.trans h0) hx
      · exact Or.inr ⟨i, r, hr, heq.symm.trans he⟩
    exact (hcnt.trans h₂).trans (hbook.counts 0)

end Good

/-! ## Client writes -/

/-- The invariant only reads headers, so it survives any write to payloads. -/
theorem Inv.agree {h : Heap} {A : Blocks} (hI : Inv h A) {m : Mem}
    (hm : AgreeOff (Payload A) h.mem m) : Inv ⟨h.ctl, m⟩ A := by
  have hhead : ∀ {x}, Header h.ctl A x → ¬ Payload A x := fun hx => hI.header_not_payload hx
  have hblock : ∀ {a n k}, A a = some (n, k) → ¬ Payload A a := fun ha =>
    hhead (Or.inl (by simp [ha]))
  have hnext : ∀ {a n k}, A a = some (n, k) → ¬ Payload A (a + n) := by
    intro a n k ha
    rcases hI.phys.tiles.next ha with he | ⟨n', k', ha'⟩
    · exact hhead (Or.inr he)
    · exact hblock ha'
  have hbase : ∀ {x}, x ≤ h.ctl.base + 32 → ¬ Payload A x := by
    rintro x hx ⟨a, n, f, ha, h₁, -⟩
    have := (hI.phys.base_lt (used_eq_some.1 ha).1).1
    omega
  obtain ⟨fl, hL⟩ := hI.lists
  refine ⟨⟨hI.geo, ⟨hI.phys.tiles, hI.phys.size_ge, hI.phys.size_mod, fun ha => ?_, fun ha => ?_,
    fun ha hd => ?_, ?_, ?_, ?_⟩, ⟨fl, ?_⟩, fun ha hf => ?_⟩, hI.coalesced, hI.closed⟩
  · exact (hm _ (hblock ha)).1.trans (hI.phys.lo ha)
  · exact (hm _ (hblock ha)).2.1.trans (hI.phys.hi ha)
  · exact (hm _ (hnext ha)).2.2.1.trans (hI.phys.back ha hd)
  · exact (hm _ (hbase le_rfl)).2.2.1.trans hI.phys.first
  · exact (hm _ (hbase (Nat.le_add_right _ _))).2.1.trans hI.phys.start_flags
  · exact (hm _ (hhead (Or.inr rfl))).2.1.trans hI.phys.end_flags
  · refine hL.congr rfl rfl rfl (fun _ _ => Iff.rfl) fun x n hx => ?_
    obtain ⟨h₁, -, -, h₂, h₃⟩ := hm x (hblock hx)
    exact ⟨h₁, h₂, h₃⟩
  · exact (hm _ (hblock ha)).2.2.2.2.trans (hI.quiet ha hf)

theorem agreeOff_store {S : ℕ → Prop} (m : Mem) {x : ℕ} (hx : S x) (c : Cell) :
    AgreeOff S m (m.store x c) := by
  intro y hy
  have hne : y ≠ x := fun he => hy (he ▸ hx)
  simp [Mem.store, update_of_ne hne]

theorem Good.store {h : Heap} {A : Blocks} (hG : Good h A) {x : ℕ} (hx : Payload A x) (c : Cell) :
    Good ⟨h.ctl, h.mem.store x c⟩ A :=
  { hG.toInv.agree (agreeOff_store h.mem hx c) with kinds := hG.kinds, rings := hG.rings }

/-! ## Initialisation -/

def freshBlocks (s : TlsfList) : Blocks :=
  update (fun _ => none) (s.base + 32) (some (s.total, some blockFree))

theorem alignUp_spec {ptr len : ℕ} (hlen : ptr + len ≤ 2 ^ 64)
    (hadj : (alignUp ptr 32 + (2 ^ 64 - ptr)) % 2 ^ 64 < len) :
    alignUp ptr 32 % 32 = 0 ∧ ptr ≤ alignUp ptr 32 ∧
      (alignUp ptr 32 + (2 ^ 64 - ptr)) % 2 ^ 64 = alignUp ptr 32 - ptr := by
  unfold alignUp alignDown at *
  rcases Nat.lt_or_ge (ptr + 32 - 1) (2 ^ 64) with hlt | hge
  · rw [Nat.mod_eq_of_lt hlt] at hadj ⊢
    omega
  · have h0 : (ptr + 32 - 1) % 2 ^ 64 / 32 = 0 := by omega
    rw [h0] at hadj
    omega

theorem core_single {s : TlsfList} {m : Mem} (hg : Geometry s) (hmod : s.total % 32 = 0)
    (hge : 64 ≤ s.total) (hsl : s.slBitmap = fun _ => 0) (hfl : s.flBitmap = 0)
    (hheads : s.heads = fun _ => 0) (hlo : m.lo (s.base + 32) = s.total)
    (hw1 : m.w1 (s.base + 32) = s.base) (hback : m.w1 s.endSentinel = s.base + 32)
    (hstart : m.hi s.base = blockAlloc) (hend : m.hi s.endSentinel = blockAlloc) :
    Core ⟨s, m⟩ (update (fun _ => none) (s.base + 32) (some (s.total, none))) 0 := by
  have hes : s.endSentinel = s.base + 32 + s.total := rfl
  have hone : ∀ {a n k}, update (fun _ => none) (s.base + 32) (some (s.total, none)) a =
      some (n, k) → a = s.base + 32 ∧ n = s.total ∧ k = (none : Option ℕ) := by
    intro a n k ha
    grind [update_apply]
  refine ⟨hg, ⟨⟨fun _ => ⟨_, _, update_self ..⟩, fun ha => ?_, fun ha => ?_, fun ha => ?_,
    fun ha => ?_, fun {a n k x} ha h₁ h₂ => ?_⟩, fun ha => ?_, fun ha => ?_, fun ha => ?_,
    fun ha => ?_,
    fun ha _ => ?_, hw1, hstart, hend⟩, ⟨fun _ => [], ⟨fun _ => trivial, fun i => ?_,
    fun i b => ?_, fun _ => List.nodup_nil, fun _ => by simp, fun hb => ?_, ?_, ?_⟩⟩,
    fun ha _ => ?_⟩
  · obtain ⟨-, rfl, -⟩ := hone ha
    omega
  · obtain ⟨rfl, -, -⟩ := hone ha
    exact le_rfl
  · obtain ⟨rfl, rfl, -⟩ := hone ha
    exact hes.ge
  · obtain ⟨rfl, rfl, -⟩ := hone ha
    exact Or.inl hes.symm
  · obtain ⟨rfl, -, -⟩ := hone ha
    rw [update_of_ne (by omega)]
  · obtain ⟨-, rfl, -⟩ := hone ha
    exact hge
  · obtain ⟨-, rfl, -⟩ := hone ha
    exact hmod
  · obtain ⟨rfl, rfl, -⟩ := hone ha
    exact hlo
  · cases (hone ha).2.2
  · obtain ⟨rfl, rfl, -⟩ := hone ha
    exact hback
  · simp [hheads]
  · simp only [List.not_mem_nil, false_iff, not_exists, not_and]
    intro n hn
    cases (hone hn).2.2
  · cases (hone hb).2.2
  · simp [hsl]
  · simp [hsl, hfl]
  · cases (hone ha).2.2

theorem formatPool_good {r data : ℕ} (m : Mem) (hr : 0 < r) (hmod : r % 32 = 0) (hge : 64 ≤ data)
    (hdmod : data % 32 = 0) (hlt : data < 2 ^ 32) (htop : r + 32 + data + 32 ≤ 2 ^ 64) :
    Good (formatPool m r data)
      (update (fun _ => none) (r + 32) (some (data, some blockFree))) := by
  simp only [formatPool]
  generalize hs : { TlsfList.empty with
    base := r, total := data, flCount := max 1 (min 26 (fls64 data - 6 + 1)) } = s
  have hb : s.base = r := by rw [← hs]
  have ht : s.total = data := by rw [← hs]
  have hes : s.endSentinel = r + 32 + data := by rw [TlsfList.endSentinel, hb, ht]
  rw [hes]
  have hne₁ : r + 32 + data ≠ r := by omega
  have hne₂ : r + 32 + data ≠ r + 32 := by omega
  generalize hm : (writeHdr (((writeHdr (((writeHdr m r 32 blockAlloc 0).setW2 r 0).setW3 r 0)
    (r + 32 + data) 32 blockAlloc 0).setW2 (r + 32 + data) 0).setW3 (r + 32 + data) 0) (r + 32)
    data blockFree r).setW1 (r + 32 + data) (r + 32) = m₀
  have hC : Core ⟨s, m₀⟩ (update (fun _ => none) (s.base + 32) (some (s.total, none))) 0 := by
    refine core_single ⟨by omega, by omega, by omega, by omega, by omega⟩ (by omega) (by omega)
      (by rw [← hs]; rfl)
      (by rw [← hs]; rfl) (by rw [← hs]; rfl) ?_ ?_ ?_ ?_ ?_
    · simp [← hm, hb, ht, writeHdr]
    · simp [← hm, hb, writeHdr, update_of_ne hne₂.symm]
    · simp [← hm, hb, hes]
    · simp [← hm, hb, writeHdr, update_of_ne hne₁.symm]
    · simp [← hm, hes, writeHdr, update_of_ne hne₂]
  rw [hb, ht] at hC
  have hI := (hC.insert (update_self ..)).1
  rw [update_idem] at hI
  have hone : ∀ {a n k}, update (fun _ => none) (r + 32) (some (data, some blockFree)) a =
      some (n, k) → a = r + 32 ∧ n = data ∧ k = some blockFree := by
    intro a n k ha
    grind [update_apply]
  refine ⟨⟨hI, fun {a n n'} ha ha' => ?_, fun {a n} ha => ?_⟩, fun {a n f} ha => ?_, ?_⟩
  · have := (hone ha).1
    have := (hone ha').1
    have := hI.phys.size_ge ha
    omega
  · cases (hone ha).2.2
  · obtain ⟨ha, hf⟩ := used_eq_some.1 ha
    have := (hone ha).2.2
    simp only [Option.some.injEq] at this
    exact absurd this hf
  · rw [← hs]
    exact ⟨by show max 1 (min 26 _) ≤ 26; omega, fun _ => Nat.zero_lt_two,
      fun _ h0 => absurd rfl h0, fun _ _ h0 => absurd rfl h0⟩

/-- An accepted pool starts in a good state, with a single free block. -/
theorem initMemory_good {m : Mem} {ptr len : ℕ} (hlen : ptr + len ≤ 2 ^ 64)
    (hacc : (initMemory m ptr len).ctl.base ≠ 0) :
    Good (initMemory m ptr len) (freshBlocks (initMemory m ptr len).ctl) := by
  simp only [initMemory] at hacc ⊢
  split_ifs at hacc ⊢ with hadj husable hdata
  · exact absurd rfl hacc
  · exact absurd rfl hacc
  · exact absurd rfl hacc
  · obtain ⟨hmod, hge, hadj'⟩ := alignUp_spec hlen (by omega)
    rw [hadj'] at hacc husable hdata ⊢
    have hr : alignUp ptr 32 ≠ 0 := hacc
    have hus : alignDown (len - (alignUp ptr 32 - ptr)) 32 % 32 = 0 ∧
        alignDown (len - (alignUp ptr 32 - ptr)) 32 ≤ len - (alignUp ptr 32 - ptr) := by
      unfold alignDown
      omega
    exact formatPool_good m (by omega) hmod (by omega) (by omega) (by omega) (by omega)

end AbcMalloc.Tlsf
