import AbcMalloc.Buddy.Runs
import AbcMalloc.LedgerRuns

/-! `__buddy_list` refines a ledger: a pool whose invariant holds and whose active slots point
to blocks in use is a ledger of its blocks in use, its active slots and its counters. -/
namespace AbcMalloc.Buddy
open Function Foundation

/-! ## Active slots -/

/-- The active slots point to temporal blocks of their order, tombstoned or not, each to
another one. -/
structure Rings (s : BuddyList) (A : Blocks) : Prop where
  entry : ∀ {o r}, s.active o r ≠ 0 → ∃ f, used A (s.active o r) = some (s.orderSize o, f) ∧
    (f = blockAlloc + blockTemporal ∨ f = blockTombstone)
  unique : ∀ {o}, s.active o 0 ≠ 0 → s.active o 0 ≠ s.active o 1
  slots : ∀ {o r}, 2 ≤ r → s.active o r = 0

namespace Rings
variable {s s' : BuddyList} {A A' : Blocks} {b n o f : ℕ}

/-- Slots may be cleared; those kept must still point to blocks in use. -/
theorem shrink (h : Rings s A) (hs : SameShape s s')
    (hsub : ∀ o r, s'.active o r = 0 ∨ s'.active o r = s.active o r ∧
      ∀ f, used A (s.active o r) = some (s.orderSize o, f) →
        (f = blockAlloc + blockTemporal ∨ f = blockTombstone) →
        ∃ f', used A' (s.active o r) = some (s.orderSize o, f') ∧
          (f' = blockAlloc + blockTemporal ∨ f' = blockTombstone)) : Rings s' A' := by
  refine ⟨fun {o r} h0 => ?_, fun {o} h0 => ?_, fun {o r} hr => ?_⟩
  · obtain ⟨he, hk⟩ := (hsub o r).resolve_left h0
    rw [he] at h0 ⊢
    obtain ⟨f, h₁, h₂⟩ := h.entry h0
    rw [hs.orderSize]
    exact hk f h₁ h₂
  · have he := ((hsub o 0).resolve_left h0).1
    rcases hsub o 1 with h1 | ⟨h1, -⟩
    · rwa [h1]
    · rw [he, h1]
      exact h.unique (he ▸ h0)
  · rcases hsub o r with h0 | ⟨he, -⟩
    · exact h0
    · rw [he, h.slots hr]

/-- No slot keeps a freed temporal block. -/
theorem clearActive_sub (h : Rings s A) (hb : b ≠ 0) (hu : used A b = some (s.orderSize o, f))
    (o' r : ℕ) : (clearActive s b o).active o' r = 0 ∨
      (clearActive s b o).active o' r = s.active o' r ∧ s.active o' r ≠ b := by
  have horder : ∀ {i r}, s.active i r = b → i = o := by
    intro i r hi
    obtain ⟨f', h₁, -⟩ := h.entry (hi ▸ hb)
    rw [hi, hu] at h₁
    have h₂ : 2 ^ (s.minLog + o) = 2 ^ (s.minLog + i) := congrArg Prod.fst (Option.some.inj h₁)
    have := Nat.pow_right_injective le_rfl h₂
    omega
  have hslot : ∀ {i r}, s.active i r = b → r < 2 := by
    intro i r hi
    by_contra hr
    exact hb (hi.symm.trans (h.slots (not_lt.1 hr)))
  unfold clearActive
  split_ifs with h₀ h₁
  · by_cases ho : o' = o
    · subst ho
      by_cases hr : r = 0
      · subst hr
        left
        simp
      · right
        refine ⟨by simp [update_of_ne hr], fun he => ?_⟩
        have := hslot he
        obtain rfl : r = 1 := by omega
        exact h.unique (h₀ ▸ hb) (h₀.trans he.symm)
    · right
      exact ⟨by simp [update_of_ne ho], fun he => ho (horder he)⟩
  · by_cases ho : o' = o
    · subst ho
      by_cases hr : r = 1
      · subst hr
        left
        simp
      · right
        refine ⟨by simp [update_of_ne hr], fun he => ?_⟩
        have := hslot he
        obtain rfl : r = 0 := by omega
        exact h₀ he
    · right
      exact ⟨by simp [update_of_ne ho], fun he => ho (horder he)⟩
  · right
    refine ⟨rfl, fun he => ?_⟩
    obtain rfl := horder he
    have := hslot he
    obtain rfl | rfl : r = 0 ∨ r = 1 := by omega
    · exact h₀ he
    · exact h₁ he

theorem ne_of_unused (h : Rings s A) (hu : used A b = none) {o r : ℕ} (h0 : s.active o r ≠ 0) :
    s.active o r ≠ b := by
  rintro rfl
  obtain ⟨f, h₁, -⟩ := h.entry h0
  simp [hu] at h₁

end Rings

structure Good (h : Heap) (A : Blocks) : Prop extends Inv h A where
  rings : Rings h.ctl A

def buddyLedger (h : Heap) (A : Blocks) : Ledger where
  lo := h.ctl.base
  hi := h.ctl.limit
  used := used A
  ring x := x ≠ 0 ∧ ∃ o r, h.ctl.active o r = x
  allocated := h.ctl.allocatedBytes
  tombstoned := h.ctl.tombstonedBytes

def BuddyRep (h : Heap) (L : Ledger) : Prop := ∃ A, Good h A ∧ L = buddyLedger h A

namespace Good
variable {h h' : Heap} {A A' : Blocks} {b n o f r : ℕ}

theorem ledger_valid (hG : Good h A) : (buddyLedger h A).Valid where
  pos := hG.geo.base_pos
  top := lt_of_le_of_lt hG.limit_le hG.geo.top
  within ha := by
    obtain ⟨o, hA⟩ := used_eq_some.1 ha
    exact ⟨(hG.within hA).1, (hG.within hA).2.1⟩
  size ha := by
    obtain ⟨o, hA⟩ := used_eq_some.1 ha
    exact (hG.within hA).2.2
  disjoint ha hb hne := by
    obtain ⟨o, hA⟩ := used_eq_some.1 ha
    obtain ⟨o', hB⟩ := used_eq_some.1 hb
    exact hG.tiles.disjoint hA hB hne
  kinds ha := by
    obtain ⟨o, hA⟩ := used_eq_some.1 ha
    exact (hG.tails hA).2.2
  ring := by
    rintro a ⟨h0, o, r, rfl⟩
    obtain ⟨f, h₁, h₂⟩ := hG.rings.entry h0
    exact ⟨_, f, h₁, h₂⟩

theorem used_pos (hG : Good h A) (hu : used A b = some (n, f)) : b ≠ 0 := by
  obtain ⟨o, hA⟩ := used_eq_some.1 hu
  exact hG.pos hA

theorem opens (hT : Takes h h' A A' b o f)
    (hring : ∀ o' r, h'.ctl.active o' r = b ∨ h'.ctl.active o' r = h.ctl.active o' r) :
    (buddyLedger h A).Opens (buddyLedger h' A') b (h.ctl.orderSize o) f where
  lo := hT.shape.base
  hi := hT.shape.limit
  unused := hT.unused
  used := hT.used
  ring := by
    rintro x ⟨h0, o', r, rfl⟩
    rcases hring o' r with he | he
    · exact Or.inl he
    · exact Or.inr ⟨h0, o', r, he.symm⟩
  allocated := hT.allocated
  tombstoned := hT.tombstoned

theorem rings_of_takes (hG : Good h A) (hT : Takes h h' A A' b o f)
    (hactive : h'.ctl.active = h.ctl.active) : Rings h'.ctl A' := by
  refine hG.rings.shrink hT.shape fun o' r => ?_
  by_cases h0 : h.ctl.active o' r = 0
  · exact Or.inl (by rw [hactive, h0])
  · refine Or.inr ⟨by rw [hactive], fun f' h₁ h₂ => ⟨f', ?_, h₂⟩⟩
    rw [hT.used, update_of_ne (hG.rings.ne_of_unused hT.unused h0)]
    exact h₁

theorem rings_of_takes_temporal (hG : Good h A) (hb : b ≠ 0)
    (hT : Takes h h' A A' b o (blockAlloc + blockTemporal)) (hr : r < 2)
    (hactive : h'.ctl.active = update h.ctl.active o (update (h.ctl.active o) r b)) :
    Rings h'.ctl A' := by
  have hval : ∀ o' r', h'.ctl.active o' r' =
      if o' = o ∧ r' = r then b else h.ctl.active o' r' := by
    intro o' r'
    rw [hactive]
    by_cases ho : o' = o
    · subst ho
      rw [update_self, update_apply]
      simp
    · rw [update_of_ne ho]
      simp [ho]
  refine ⟨fun {o' r'} h0 => ?_, fun {o'} h0 => ?_, fun {o' r'} hr' => ?_⟩
  · rw [hT.shape.orderSize]
    rw [hval] at h0 ⊢
    split_ifs at h0 ⊢ with hc
    · rw [hT.used, update_self, hc.1]
      exact ⟨_, rfl, Or.inl rfl⟩
    · obtain ⟨f, h₁, h₂⟩ := hG.rings.entry h0
      rw [hT.used, update_of_ne (hG.rings.ne_of_unused hT.unused h0)]
      exact ⟨f, h₁, h₂⟩
  · rw [hval] at h0
    rw [hval, hval]
    by_cases ho : o' = o
    · subst ho
      obtain rfl | rfl : r = 0 ∨ r = 1 := by omega
      · simp only [true_and, if_true, one_ne_zero, if_false]
        intro he
        exact hG.rings.ne_of_unused hT.unused (he ▸ hb) he.symm
      · simp only [true_and, zero_ne_one, if_false, if_true] at h0 ⊢
        exact hG.rings.ne_of_unused hT.unused h0
    · simp only [ho, false_and, if_false] at h0 ⊢
      exact hG.rings.unique h0
  · rw [hval, if_neg (by omega)]
    exact hG.rings.slots hr'

theorem rings_of_tombstone (hG : Good h A) (hu : used A b = some (n, f))
    (hs : SameShape h.ctl h'.ctl) (hused : used A' = update (used A) b (some (n, blockTombstone)))
    (hactive : h'.ctl.active = h.ctl.active) : Rings h'.ctl A' := by
  refine hG.rings.shrink hs fun o r => Or.inr ⟨by rw [hactive], fun f' h₁ h₂ => ?_⟩
  rw [hused]
  by_cases hb : h.ctl.active o r = b
  · rw [hb] at h₁ ⊢
    rw [hu] at h₁
    rw [update_self]
    exact ⟨_, congrArg (fun v : ℕ × ℕ => some (v.1, blockTombstone)) (Option.some.inj h₁),
      Or.inr rfl⟩
  · rw [update_of_ne hb]
    exact ⟨f', h₁, h₂⟩

/-- A freed block is in no slot afterwards, unless it was tombstoned while in one. -/
theorem active_of_deallocate (hG : Good h A) (hu : used A b = some (h.ctl.orderSize o, f))
    (hring : f = blockTombstone → ∀ o r, h.ctl.active o r ≠ b) (o' r : ℕ) :
    activeAfter h.ctl b o f o' r = 0 ∨
      activeAfter h.ctl b o f o' r = h.ctl.active o' r ∧ h.ctl.active o' r ≠ b := by
  have hb := hG.used_pos hu
  unfold activeAfter
  split_ifs with hf
  · exact hG.rings.clearActive_sub hb hu o' r
  · refine Or.inr ⟨rfl, fun he => ?_⟩
    obtain ⟨f', h₁, h₂⟩ := hG.rings.entry (he ▸ hb)
    rw [he, hu] at h₁
    have hff : f = f' := congrArg Prod.snd (Option.some.inj h₁)
    rcases h₂ with h₂ | h₂
    · exact hf (hff.trans h₂)
    · exact hring (hff.trans h₂) o' r he

end Good

theorem buddy_refines : Refines buddyBook (fun _ => true) BuddyRep where
  header_le := Nat.zero_le _
  valid := by
    rintro h L ⟨A, hG, rfl⟩
    exact hG.ledger_valid
  used := by
    rintro h L ⟨A, hG, rfl⟩
    rfl
  tombstoned := by
    rintro h L ⟨A, hG, rfl⟩
    rfl
  isAllocated := by
    rintro h L b n f ⟨A, hG, rfl⟩ hb
    exact (hG.isAllocated_iff b).2 ⟨n, f, hb⟩
  isTombstoned := by
    rintro h L b n f ⟨A, hG, rfl⟩ hb
    obtain ⟨o, hA⟩ := used_eq_some.1 hb
    show isTombstoned h b = _
    rw [isTombstoned, (hG.hdrOfTagged hA).2.2, decide_eq_decide]
    exact (kind_bits (hG.tails hA).2.2).2.1
  isTemporal := by
    rintro h L b n f ⟨A, hG, rfl⟩ hb
    obtain ⟨o, hA⟩ := used_eq_some.1 hb
    show isTemporal h b = _
    rw [isTemporal, (hG.hdrOfTagged hA).2.2, decide_eq_decide]
    exact (kind_bits (hG.tails hA).2.2).2.2
  blockSize := by
    rintro h L b n f ⟨A, hG, rfl⟩ hb
    exact hG.toInv.blockSize hb
  allocate := by
    rintro h L u ⟨A, hG, rfl⟩ -
    rcases hG.toInv.allocate u with hnull | ⟨b, o, h', A', hal, hI', hT, hact, hu⟩
    · exact Or.inl hnull
    · exact Or.inr ⟨b, _, h', _, hal, ⟨A', ⟨hI', hG.rings_of_takes hT hact⟩, rfl⟩,
        Good.opens hT fun o' r => Or.inr (by rw [hact]), hu⟩
  temporalAllocate := by
    rintro h L u ⟨A, hG, rfl⟩ -
    rcases hG.toInv.temporalAllocate u with hnull | ⟨o, r, hr, h0, hal⟩ |
      ⟨b, o, r, h', A', hal, hI', hT, hr, h0, hact⟩
    · exact Or.inl hnull
    · obtain ⟨f, h₁, -⟩ := hG.rings.entry h0
      refine Or.inr (Or.inl ⟨_, _, f, _, buddyLedger _ A, hal, ⟨A, ⟨⟨?_, ?_, hG.closed⟩, ?_⟩, rfl⟩,
        ⟨rfl, rfl, rfl, fun hx => hx, rfl, rfl⟩, ⟨h0, o, r, rfl⟩, h₁⟩)
      · exact hG.toCore.congr ⟨rfl, rfl, rfl, rfl, rfl⟩ rfl rfl rfl rfl rfl
      · exact hG.coalesced.mono ⟨rfl, rfl, rfl, rfl, rfl⟩ fun ha => ha
      · exact ⟨hG.rings.entry, hG.rings.unique, hG.rings.slots⟩
    · have hb : b ≠ 0 := by
        have hub : used A' b = some (h.ctl.orderSize o, blockAlloc + blockTemporal) := by
          rw [hT.used, update_self]
        obtain ⟨o', hA'⟩ := used_eq_some.1 hub
        exact hI'.pos hA'
      refine Or.inr (Or.inr ⟨b, _, h', _, hal,
        ⟨A', ⟨hI', hG.rings_of_takes_temporal hb hT hr hact⟩, rfl⟩,
        Good.opens hT fun o' r' => ?_⟩)
      rw [hact]
      by_cases ho : o' = o
      · subst ho
        by_cases hr' : r' = r
        · subst hr'
          simp
        · exact Or.inr (by rw [update_self, update_of_ne hr'])
      · exact Or.inr (by rw [update_of_ne ho])
  tombstone := by
    rintro h L b n f ⟨A, hG, rfl⟩ hb hf
    obtain ⟨h', A', hts, hI', hs, hu, ha, ht, hact, -⟩ := hG.toInv.tombstone hb hf
    exact ⟨h', _, hts, ⟨A', ⟨hI', hG.rings_of_tombstone hb hs hu hact⟩, rfl⟩, hs.base, hs.limit, hu,
      fun {x} hx => ⟨hx.1, by rw [← hact]; exact hx.2⟩, ha, ht⟩
  tombstone_again := by
    rintro h L b n ⟨A, hG, rfl⟩ hb
    exact hG.toInv.tombstone_again hb
  deallocate := by
    rintro h L b n f ⟨A, hG, rfl⟩ hb hring
    obtain ⟨h', A', o, hde, hI', hs, rfl, hu, ha, ht, hact, -⟩ := hG.toInv.deallocate hb
    have hb0 := hG.used_pos hb
    have hsub := hG.active_of_deallocate hb fun hf o r he => hring hf ⟨hb0, o, r, he⟩
    rw [← hact] at hsub
    refine ⟨h', _, hde, ⟨A', ⟨hI', hG.rings.shrink hs fun o' r => (hsub o' r).imp id
      fun ⟨he, hne⟩ => ⟨he, fun f' h₁ h₂ => ⟨f', ?_, h₂⟩⟩⟩, rfl⟩, hs.base, hs.limit, hu,
      fun {x} hx => ?_, ha, ht⟩
    · obtain ⟨h0, o', r, rfl⟩ := hx
      exact ⟨h0, o', r, ((hsub o' r).resolve_left h0).1.symm⟩
    · rw [hu, update_of_ne hne]
      exact h₁
  store := by
    rintro h L x c ⟨A, hG, rfl⟩ ⟨b, n, f, i, hb, rfl, hi⟩
    have hi' : 32 * i + 32 ≤ n - 32 := hi
    refine ⟨A, ⟨hG.toInv.store hb ?_ ?_ c, hG.rings⟩, rfl⟩
    · show b ≤ b + 0 + 32 * i
      omega
    · show b + 0 + 32 * i + 32 ≤ b + n - 32
      omega

/-! ## Accounting over the tags of the pool -/

/-- Sum of the sizes of the blocks marked as allocated whose tail flags satisfy `p`. -/
def sumBlocks (h : Heap) (p : ℕ → Bool) : ℕ :=
  ∑ t ∈ Finset.range h.ctl.tagCount,
    if h.ctl.blockTags t < 128 ∧
        p (h.mem.hi (h.ctl.hdrOf (h.ctl.unit t) (h.ctl.blockTags t))) = true then
      h.ctl.orderSize (h.ctl.blockTags t)
    else 0

theorem Good.unit_weight {h : Heap} {A : Blocks} (hG : Good h A) (p : ℕ → Bool) (g : ℕ × ℕ → ℕ)
    (hg : ∀ {n f}, IsKind f → g (n, f) = if p f then n else 0) {t : ℕ} (ht : t < h.ctl.tagCount) :
    (if h.ctl.blockTags t < 128 ∧
        p (h.mem.hi (h.ctl.hdrOf (h.ctl.unit t) (h.ctl.blockTags t))) = true then
      h.ctl.orderSize (h.ctl.blockTags t) else 0) = (used A (h.ctl.unit t)).elim 0 g := by
  have htag := (hG.unit_tag ht).2
  match hA : A (h.ctl.unit t) with
  | none =>
    rw [hA] at htag
    have h' : h.ctl.blockTags t = 255 := htag
    simp [used, hA, usedEntry, h']
  | some (n, o, k) =>
    rw [hA] at htag
    cases k with
    | free =>
      have h' : h.ctl.blockTags t = tagFree o := htag
      rw [tagFree_eq (hG.order_lt hA)] at h'
      simp [used, hA, usedEntry, h']
    | cached =>
      have h' : h.ctl.blockTags t = 255 := htag
      simp [used, hA, usedEntry, h']
    | inUse f =>
      have h' : h.ctl.blockTags t = o := htag
      have h64 := hG.order_lt hA
      have hlt : o < 128 := by omega
      have htail := (hG.tails hA).2.1
      rw [(hG.size hA).1] at htail
      rw [show used A (h.ctl.unit t) = some (n, f) from used_eq_some.2 ⟨o, hA⟩, h', BuddyList.hdrOf,
        htail, Option.elim_some, hg (hG.tails hA).2.2, (hG.size hA).1]
      simp [hlt]
    | detached => exact absurd hA hG.closed

/-- A sum over the tags of the pool is a sum over its blocks in use. -/
theorem Good.sumBlocks_eq {h : Heap} {A : Blocks} (hG : Good h A) (p : ℕ → Bool)
    (g : ℕ × ℕ → ℕ) (hg : ∀ {n f}, IsKind f → g (n, f) = if p f then n else 0) :
    sumBlocks h p = mass g h.ctl.base h.ctl.limit (used A) := by
  have hM := Nat.two_pow_pos h.ctl.minLog
  -- Blocks in use start at units, and end before the limit.
  have hunit : ∀ {a v}, used A a = some v →
      h.ctl.unit (h.ctl.tagIndex a) = a ∧ h.ctl.tagIndex a < h.ctl.tagCount ∧
        h.ctl.base ≤ a ∧ a < h.ctl.limit := by
    intro a v hu
    obtain ⟨o, hA⟩ := used_eq_some (n := v.1) (f := v.2).1 hu
    obtain ⟨h₁, h₂⟩ := hG.tagIndex_spec hA
    have := hG.within hA
    exact ⟨h₁, h₂, by omega, by omega⟩
  have hsub : Finset.Ico h.ctl.base h.ctl.limit ⊆ Finset.Ico h.ctl.base
    (h.ctl.base + h.ctl.total) :=
    Finset.Ico_subset_Ico_right hG.limit_le
  unfold mass
  rw [Finset.sum_subset hsub fun a _ ha => ?_]
  · refine Finset.sum_of_injOn h.ctl.unit ?_ ?_ ?_ ?_
    · intro t _ t' _ he
      have he' : h.ctl.base + t * 2 ^ h.ctl.minLog = h.ctl.base + t' * 2 ^ h.ctl.minLog := he
      exact Nat.eq_of_mul_eq_mul_right hM (by omega)
    · intro t ht
      have hlt : t < h.ctl.total / 2 ^ h.ctl.minLog := by
        rw [← hG.geo.tagCount]
        simpa using ht
      have : (t + 1) * 2 ^ h.ctl.minLog ≤ h.ctl.total :=
        (Nat.le_div_iff_mul_le hM).1 hlt
      rw [Nat.add_mul, Nat.one_mul] at this
      simp only [Finset.coe_Ico, Set.mem_Ico, BuddyList.unit]
      omega
    · intro a _ hnot
      cases hu : used A a with
      | none => rfl
      | some v =>
        obtain ⟨h₁, h₂, -⟩ := hunit hu
        exact absurd ⟨_, by simpa using h₂, h₁⟩ hnot
    · intro t ht
      exact hG.unit_weight p g hg (by simpa using ht)
  · cases hu : used A a with
    | none => rfl
    | some v =>
      obtain ⟨-, -, h₁, h₂⟩ := hunit hu
      exact absurd (Finset.mem_Ico.2 ⟨h₁, h₂⟩) ha

theorem initMemory_vacant {minLog ptr len : ℕ} {m : Mem} {ext : Bool} {tags : ℕ → ℕ}
    (hmin : 5 ≤ minLog) (hlen : ptr + len < 2 ^ 64)
    (hacc : (initMemory minLog m ptr len ext tags).ctl.base ≠ 0) :
    ∃ L, BuddyRep (initMemory minLog m ptr len ext tags) L ∧ L.Vacant ∧ ptr ≤ L.lo ∧
      L.hi ≤ ptr + len := by
  have hacc' := initMemory_accepted hmin hlen hacc
  have hI := hacc'.fresh.inv
  set h := initMemory minLog m ptr len ext tags with hh
  have hctl : h.ctl.allocatedBytes = 0 ∧ h.ctl.tombstonedBytes = 0 ∧
      ∀ o r, h.ctl.active o r = 0 := by
    rw [hh]
    unfold initMemory formatPool BuddyList.setTag
    dsimp only
    split_ifs <;> exact ⟨rfl, rfl, fun _ _ => rfl⟩
  have hused : ∀ x, used (freshBlocks h.ctl) x = none := by
    intro x
    rw [freshBlocks, used_update, update_apply]
    split_ifs <;> rfl
  have hR : Rings h.ctl (freshBlocks h.ctl) :=
    ⟨fun {o r} h0 => absurd (hctl.2.2 o r) h0, fun {o} h0 => absurd (hctl.2.2 o 0) h0,
      fun {o r} _ => hctl.2.2 o r⟩
  refine ⟨_, ⟨_, ⟨hI, hR⟩, rfl⟩, ⟨hused, ?_, hctl.1, hctl.2.1⟩, hacc'.lower,
    hI.limit_le.trans hacc'.upper⟩
  rintro x ⟨h0, o, r, rfl⟩
  exact h0 (hctl.2.2 o r)

theorem initMemory_rep {minLog ptr len : ℕ} {m : Mem} {ext : Bool} {tags : ℕ → ℕ}
    (hmin : 5 ≤ minLog) (hlen : ptr + len < 2 ^ 64)
    (hacc : (initMemory minLog m ptr len ext tags).ctl.base ≠ 0) :
    ∃ L, BuddyRep (initMemory minLog m ptr len ext tags) L ∧ L.Balanced ∧ ∀ x, ¬L.ring x := by
  obtain ⟨L, hrep, hV, -⟩ := initMemory_vacant hmin hlen hacc
  exact ⟨L, hrep, hV.balanced, hV.ring⟩

end AbcMalloc.Buddy
