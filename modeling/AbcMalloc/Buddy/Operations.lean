import AbcMalloc.Buddy.Splitting

/-! The operations of `__buddy_list` on a pool whose invariant holds: each keeps the invariant,
for any request and any pointer, and does to the blocks in use what it reports. -/
namespace AbcMalloc.Buddy
open Function Foundation

/-! ## Sizes and orders -/

theorem le_orderSize_orderForSize (s : BuddyList) {n : ℕ} (hn : 0 < n) :
    n ≤ s.orderSize (s.orderForSize n) := by
  set q := (n - 1) / 2 ^ s.minLog with hq
  have hlt : n ≤ (q + 1) * 2 ^ s.minLog := by
    have := Nat.lt_div_mul_add (a := n - 1) (Nat.two_pow_pos s.minLog)
    rw [← hq] at this
    rw [Nat.add_mul]
    omega
  refine hlt.trans ?_
  unfold BuddyList.orderForSize BuddyList.orderSize
  dsimp only
  rw [← hq]
  clear_value q
  split_ifs with h1
  · obtain rfl : q = 0 := by omega
    simp
  · rw [Nat.pow_add, Nat.mul_comm]
    refine Nat.mul_le_mul_left _ ?_
    unfold ceilLog2
    have : q < 2 ^ (q.log2 + 1) := Nat.lt_log2_self
    simpa using this

theorem findFreeOrder_bit {s : BuddyList} {o : ℕ}
    (hlt : s.findFreeOrder o < s.maxOrder) :
    o ≤ s.findFreeOrder o ∧ s.freeMask.getLsbD (s.findFreeOrder o) = true := by
  unfold BuddyList.findFreeOrder at hlt ⊢
  dsimp only at hlt ⊢
  split_ifs at hlt ⊢ with hm
  · omega
  · have hbit := BitVec.getLsbD_true_ctz_of_ne_zero hm
    rw [BitVec.getLsbD_ushiftRight] at hbit
    exact ⟨Nat.le_add_right _ _, hbit⟩

/-- A non-zero mask above `o` names a list that is not empty. -/
theorem Core.findFreeOrder {h : Heap} {A : Blocks} {o : ℕ} (hC : Core h A)
    (hlt : h.ctl.findFreeOrder o < h.ctl.maxOrder) :
    o ≤ h.ctl.findFreeOrder o ∧ h.ctl.freeLists (h.ctl.findFreeOrder o) ≠ 0 := by
  obtain ⟨fl, hF⟩ := hC.lists
  have h64 := hC.geo.order_le
  obtain ⟨hle, hbit⟩ := findFreeOrder_bit hlt
  refine ⟨hle, ?_⟩
  rw [hF.head]
  exact fun h0 => (hF.mask _ (by omega)).1 hbit ((headD_eq_zero (hF.pos _)).1 h0)

/-! ## Handing out a block -/

/-- A detached block comes into use. -/
theorem Core.handOut {h : Heap} {A : Blocks} {b n o f : ℕ} (hC : Core h A)
    (hA : A b = some (n, o, .detached))
    (hf : f = blockAlloc ∨ f = blockTombstone ∨ f = blockAlloc + blockTemporal) :
    Core (Buddy.handOut h b o f).2 (update A b (some (n, o, .inUse f))) := by
  obtain ⟨fl, hF⟩ := hC.lists
  obtain ⟨tc, hT⟩ := hC.caches
  have h32 := (hC.within hA).2.2
  have hhdr : h.ctl.hdrOf b o = b + n - 32 := by rw [BuddyList.hdrOf, (hC.size hA).1]
  have hstart : ∀ {x n' o' k}, x ≠ b → A x = some (n', o', k) → x ≠ b + n - 32 := by
    intro x n' o' k hx ha he
    exact (hC.cell_ne hA ha hx.symm (show b ≤ b + n - 32 by omega) (by omega)).1 he.symm
  have htail : ∀ {x n' o' k}, x ≠ b → A x = some (n', o', k) → x + n' - 32 ≠ b + n - 32 := by
    intro x n' o' k hx ha he
    exact (hC.cell_ne hA ha hx.symm (show b ≤ b + n - 32 by omega) (by omega)).2 he.symm
  have hnext : ∀ {x n' o' k}, x ≠ b → A x = some (n', o', k) →
      (Buddy.handOut h b o f).2.mem.next x = h.mem.next x := by
    intro x n' o' k hx ha
    have hne := hstart hx ha
    simp [Buddy.handOut, hhdr, Mem.next, update_of_ne hne]
  refine hC.relabel (.inUse f) hA ⟨rfl, rfl, rfl, rfl, rfl⟩ (fun t ht => update_of_ne ht _ _)
    (update_self _ _ _) ⟨fl, ?_⟩ ⟨tc, ?_⟩ (fun hab ha => ?_) (fun f' hf' => ?_)
  · refine hF.congr rfl rfl (fun x o' => relabel_iff hA .free (by simp) (by simp) x o')
      fun x n' o' hx => ⟨?_, rfl⟩
    refine hnext ?_ hx
    rintro rfl
    simp [hA] at hx
  · refine hT.congr rfl rfl (fun x o' => relabel_iff hA .cached (by simp) (by simp) x o')
      fun x n' o' hx => ?_
    refine hnext ?_ hx
    rintro rfl
    simp [hA] at hx
  · have hne := htail hab ha
    simp [Buddy.handOut, hhdr, update_of_ne hne]
  · cases hf'
    simp [Buddy.handOut, hhdr, hf]

structure Takes (h h' : Heap) (A A' : Blocks) (b o f : ℕ) : Prop where
  shape : SameShape h.ctl h'.ctl
  unused : used A b = none
  used : used A' = update (used A) b (some (h.ctl.orderSize o, f))
  allocated : h'.ctl.allocatedBytes = (h.ctl.allocatedBytes + h.ctl.orderSize o) % 2 ^ 64
  tombstoned : h'.ctl.tombstonedBytes = h.ctl.tombstonedBytes
  w2 : h'.mem.w2 = h.mem.w2
  w3 : h'.mem.w3 = h.mem.w3

/-- Halving a free block and using its left end leaves no free buddies. -/
theorem Splits.coalesced {h : Heap} {A A' : Blocks} {b n o t : ℕ} {v : Option (ℕ × ℕ × Kind)}
    (hI : Inv h A) (hA : A b = some (n, o, .free))
    (hS : Splits h.ctl (update A b (some (n, o, .detached))) A' b o t)
    (hv : ∀ n' o', v ≠ some (n', o', .free)) : Coalesced h.ctl (update A' b v) := by
  have hlow := hI.tiles.lower hA
  have hbuddy : ∀ i, i < o →
      buddy (h.ctl.minLog + i) (b - h.ctl.base) = b - h.ctl.base + h.ctl.orderSize i := by
    intro i hi
    refine buddy_left (dvd_trans ?_ (hI.aligned hA))
    rw [(hI.size hA).1]
    exact Nat.pow_dvd_pow 2 (by omega)
  have hentry : ∀ {x n' o'}, update A' b v x = some (n', o', .free) → x ≠ b ∧
      (A x = some (n', o', .free) ∨ o' < o ∧ x = b + h.ctl.orderSize o') := by
    intro x n' o' hx
    have hxb : x ≠ b := by
      rintro rfl
      rw [update_self] at hx
      exact hv _ _ hx
    rw [update_of_ne hxb] at hx
    rcases hS.entry hxb hx with hx | ⟨i, -, hi, rfl, he⟩
    · rw [update_of_ne hxb] at hx
      exact ⟨hxb, Or.inl hx⟩
    · cases he
      exact ⟨hxb, Or.inr ⟨hi, rfl⟩⟩
  intro a n₁ o₁ ha ho₁ n₂ hb
  obtain ⟨hab, ha⟩ := hentry ha
  obtain ⟨hbb, hb⟩ := hentry hb
  rcases ha with ha | ⟨hi, rfl⟩
  · rcases hb with hb | ⟨hi, he⟩
    · exact hI.coalesced a n₁ o₁ ha ho₁ n₂ hb
    · have hlowa := hI.tiles.lower ha
      have h₁ : buddy (h.ctl.minLog + o₁) (a - h.ctl.base) =
          buddy (h.ctl.minLog + o₁) (b - h.ctl.base) := by
        rw [hbuddy o₁ hi]
        omega
      have h₂ := congrArg (buddy (h.ctl.minLog + o₁)) h₁
      rw [buddy_buddy, buddy_buddy] at h₂
      omega
  · refine hbb ?_
    rw [Nat.sub_add_comm hlow, ← hbuddy o₁ hi, buddy_buddy]
    omega

theorem Inv.take {h : Heap} {A : Blocks} {o t f : ℕ} (hI : Inv h A) (h0 : h.ctl.freeLists o ≠ 0)
    (ht : t ≤ o) (hf : f = blockAlloc ∨ f = blockTombstone ∨ f = blockAlloc + blockTemporal) :
    ∃ b h₁ A', takeAndSplit h o t = some (b, h₁) ∧ Inv (handOut h₁ b t f).2 A' ∧
      Takes h (handOut h₁ b t f).2 A A' b t f ∧ Frame h h₁ := by
  obtain ⟨b, n, h₁, A₁, A₂, htake, hA, rfl, hC, hS, hF⟩ := hI.takeAndSplit h0 ht
  have hsz := hF.shape.orderSize t
  refine ⟨b, h₁, _, htake, ⟨hC.handOut hS.block hf, ?_, fun {a n' o'} ha => ?_⟩,
    ⟨hF.shape.trans ⟨rfl, rfl, rfl, rfl, rfl⟩, by simp [used, hA, usedEntry], ?_, ?_, hF.tombstoned,
      hF.w2, hF.w3⟩, hF⟩
  · have hco := hS.coalesced hI hA
      (v := some (h.ctl.orderSize t, t, .inUse f)) (fun _ _ => by simp)
    exact hco.mono (hF.shape.trans ⟨rfl, rfl, rfl, rfl, rfl⟩) fun ha => ha
  · by_cases hab : a = b
    · subst hab
      simp [update_self] at ha
    · rw [update_of_ne hab] at ha
      rcases hS.entry hab ha with ha | ⟨i, -, -, -, he⟩
      · rw [update_of_ne hab] at ha
        exact hI.closed ha
      · cases he
  · rw [used_update, hS.used, used_update_idle (by simp [hA, usedEntry]) rfl]
    rfl
  · show (h₁.ctl.allocatedBytes + h₁.ctl.orderSize t) % 2 ^ 64 = _
    rw [hF.allocated, hsz]

theorem Inv.reuse {h h₁ : Heap} {A : Blocks} {b n o f : ℕ} (hI : Inv h A)
    (hA : A b = some (n, o, .cached)) (hF : Frame h h₁)
    (hC : Core h₁ (update A b (some (n, o, .detached))))
    (hf : f = blockAlloc ∨ f = blockTombstone ∨ f = blockAlloc + blockTemporal) :
    ∃ A', Inv (handOut h₁ b o f).2 A' ∧ Takes h (handOut h₁ b o f).2 A A' b o f := by
  have hC₂ := hC.handOut (update_self _ _ _) hf
  rw [update_idem] at hC₂
  refine ⟨_, ⟨hC₂, ?_, fun {a n' o'} ha => ?_⟩,
    ⟨hF.shape.trans ⟨rfl, rfl, rfl, rfl, rfl⟩, by simp [used, hA, usedEntry], ?_, ?_, hF.tombstoned,
      hF.w2, hF.w3⟩⟩
  · refine hI.coalesced.mono (hF.shape.trans ⟨rfl, rfl, rfl, rfl, rfl⟩) fun {x n' o'} hx => ?_
    by_cases hxb : x = b
    · subst hxb
      simp [update_self] at hx
    · rwa [update_of_ne hxb] at hx
  · by_cases hab : a = b
    · subst hab
      simp [update_self] at ha
    · rw [update_of_ne hab] at ha
      exact hI.closed ha
  · rw [used_update, (hI.size hA).1]
    rfl
  · show (h₁.ctl.allocatedBytes + h₁.ctl.orderSize o) % 2 ^ 64 = _
    rw [hF.allocated, hF.shape.orderSize]

/-! ## Allocation -/

theorem Inv.base_ne_zero {h : Heap} {A : Blocks} (hI : Inv h A) : h.ctl.base ≠ 0 :=
  hI.geo.base_pos.ne'

theorem Inv.allocate {h : Heap} {A : Blocks} (hI : Inv h A) (u : ℕ) :
    allocate h u = some (.null, h) ∨
      ∃ b o h' A', allocate h u = some (⟨b, h.ctl.orderSize o - 32⟩, h') ∧ Inv h' A' ∧
        Takes h h' A A' b o blockAlloc ∧ h'.ctl.active = h.ctl.active ∧
        u + 32 ≤ h.ctl.orderSize o := by
  unfold Buddy.allocate
  dsimp only
  split_ifs with h₁ h₂ h₃ h₄
  · exact Or.inl rfl
  · exact Or.inl rfl
  · exact Or.inl rfl
  · exact Or.inl rfl
  · right
    obtain ⟨hle, h0⟩ := hI.findFreeOrder (not_le.1 h₄)
    obtain ⟨b, h', A', htake, hI', hT, hF⟩ := hI.take h0 hle (Or.inl rfl)
    rw [htake]
    refine ⟨b, _, _, A', ?_, hI', hT, hF.active, le_orderSize_orderForSize _ (by omega)⟩
    rw [← hF.shape.orderSize]
    rfl

theorem activeSlot_lt (s : BuddyList) (o : ℕ) : activeSlot s o < 2 := by
  have hand : s.activeRotor o &&& 1 = 0 ∨ s.activeRotor o &&& 1 = 1 := by
    rw [Nat.and_one_is_mod]
    omega
  unfold activeSlot
  rcases hand with hr | hr <;> rw [hr] <;> dsimp only <;> split_ifs <;> decide

/-- The block that the rings hold for a request of `n` bytes; `0` is none. -/
def activeBlock (s : BuddyList) (n : ℕ) : ℕ :=
  if 2 ^ 64 - 1 - 32 < n then 0
  else
    let o := s.orderForSize (n + 32)
    if s.maxOrder ≤ o then 0 else s.active o (activeSlot s o)

theorem Inv.temporalAllocate_ring {h : Heap} {A : Blocks} (hI : Inv h A) {u : ℕ}
    (h0 : activeBlock h.ctl u ≠ 0) :
    ∃ o r, r < 2 ∧ o = h.ctl.orderForSize (u + 32) ∧ h.ctl.active o r = activeBlock h.ctl u ∧
      temporalAllocate h u = some (⟨activeBlock h.ctl u, h.ctl.orderSize o - 32⟩,
        { h with ctl :=
          { h.ctl with activeRotor := update h.ctl.activeRotor o (r ^^^ 1) } }) := by
  unfold activeBlock at h0 ⊢
  dsimp only at h0 ⊢
  split_ifs at h0 with h₁ h₂
  · exact absurd rfl h0
  · exact absurd rfl h0
  · unfold Buddy.temporalAllocate
    dsimp only
    rw [if_neg h₁, if_neg h₂, if_neg h₁, if_neg hI.base_ne_zero, if_neg h₂, if_pos h0]
    exact ⟨_, _, activeSlot_lt _ _, rfl, rfl, rfl⟩

/-- Without a ring block the request is refused or brings a fresh block into an empty slot. -/
theorem Inv.temporalAllocate_fresh {h : Heap} {A : Blocks} (hI : Inv h A) {u : ℕ}
    (h0 : activeBlock h.ctl u = 0) :
    temporalAllocate h u = some (.null, h) ∨
      ∃ b o r h' A', o = h.ctl.orderForSize (u + 32) ∧
        temporalAllocate h u = some (⟨b, h.ctl.orderSize o - 32⟩, h') ∧ Inv h' A' ∧
        Takes h h' A A' b o (blockAlloc + blockTemporal) ∧ r < 2 ∧ h.ctl.active o r = 0 ∧
        h'.ctl.active = update h.ctl.active o (update (h.ctl.active o) r b) := by
  unfold activeBlock at h0
  unfold Buddy.temporalAllocate
  dsimp only at h0 ⊢
  by_cases h₁ : 2 ^ 64 - 1 - 32 < u
  · exact Or.inl (if_pos h₁)
  rw [if_neg h₁, if_neg hI.base_ne_zero]
  rw [if_neg h₁] at h0
  by_cases h₃ : h.ctl.maxOrder ≤ h.ctl.orderForSize (u + 32)
  · exact Or.inl (if_pos h₃)
  rw [if_neg h₃]
  rw [if_neg h₃] at h0
  rw [if_neg (not_not.2 h0)]
  set o := h.ctl.orderForSize (u + 32) with ho
  set r := activeSlot h.ctl o with hr
  have hr2 : r < 2 := activeSlot_lt _ _
  have hout : ∀ {h₁ b A'}, Frame h h₁ →
      Inv (handOut h₁ b o (blockAlloc + blockTemporal)).2 A' →
      Takes h (handOut h₁ b o (blockAlloc + blockTemporal)).2 A A' b o
        (blockAlloc + blockTemporal) →
      ∃ b' o' r' h' A', o' = o ∧ some (handOutTemporal h₁ b o r) =
        some (⟨b', h.ctl.orderSize o' - 32⟩, h') ∧ Inv h' A' ∧
        Takes h h' A A' b' o' (blockAlloc + blockTemporal) ∧ r' < 2 ∧ h.ctl.active o' r' = 0 ∧
        h'.ctl.active = update h.ctl.active o' (update (h.ctl.active o') r' b') := by
    intro h₁ b A' hF hI' hT
    refine ⟨b, o, r, (handOutTemporal h₁ b o r).2, A', rfl, ?_, ?_, ?_, hr2, h0, ?_⟩
    · rw [← hF.shape.orderSize]
      rfl
    · exact ⟨hI'.toCore.congr ⟨rfl, rfl, rfl, rfl, rfl⟩ rfl rfl rfl rfl rfl,
        hI'.coalesced.mono ⟨rfl, rfl, rfl, rfl, rfl⟩ fun ha => ha, hI'.closed⟩
    · exact ⟨hT.shape.trans ⟨rfl, rfl, rfl, rfl, rfl⟩, hT.unused, hT.used, hT.allocated,
        hT.tombstoned, hT.w2, hT.w3⟩
    · show update h₁.ctl.active o (update (h₁.ctl.active o) r b) = _
      rw [hF.active]
  rcases hI.tcachePop o with hpop | ⟨b, n, h', hpop, hA, hF, hC⟩
  · rw [hpop]
    simp only [Option.bind_eq_bind, Option.bind_some, ne_eq, not_true_eq_false, if_false]
    by_cases h₅ : h.ctl.maxOrder ≤ h.ctl.findFreeOrder o
    · rw [if_pos h₅]
      exact Or.inl rfl
    · rw [if_neg h₅]
      obtain ⟨hle, hne⟩ := hI.findFreeOrder (not_le.1 h₅)
      obtain ⟨b, h', A', htake, hI', hT, hF⟩ := hI.take hne hle (Or.inr (Or.inr rfl))
      rw [htake]
      exact Or.inr (hout hF hI' hT)
  · obtain ⟨A', hI', hT⟩ := hI.reuse hA hF hC (Or.inr (Or.inr rfl))
    rw [hpop]
    simp only [Option.bind_eq_bind, Option.bind_some, ne_eq, hI.pos hA, not_false_eq_true, if_true]
    exact Or.inr (hout hF hI' hT)

/-- A temporal request fails, hits the ring, or brings a fresh block into an empty slot. -/
theorem Inv.temporalAllocate {h : Heap} {A : Blocks} (hI : Inv h A) (u : ℕ) :
    temporalAllocate h u = some (.null, h) ∨
      (∃ o r, r < 2 ∧ h.ctl.active o r ≠ 0 ∧
        temporalAllocate h u = some (⟨h.ctl.active o r, h.ctl.orderSize o - 32⟩,
          { h with ctl :=
            { h.ctl with activeRotor := update h.ctl.activeRotor o (r ^^^ 1) } })) ∨
      ∃ b o r h' A', temporalAllocate h u = some (⟨b, h.ctl.orderSize o - 32⟩, h') ∧ Inv h' A' ∧
        Takes h h' A A' b o (blockAlloc + blockTemporal) ∧ r < 2 ∧ h.ctl.active o r = 0 ∧
        h'.ctl.active = update h.ctl.active o (update (h.ctl.active o) r b) := by
  by_cases h0 : activeBlock h.ctl u = 0
  · rcases hI.temporalAllocate_fresh h0 with hnull | ⟨b, o, r, h', A', -, hal, hI', hT, hr, hact⟩
    · exact Or.inl hnull
    · exact Or.inr (Or.inr ⟨b, o, r, h', A', hal, hI', hT, hr, hact⟩)
  · obtain ⟨o, r, hr, -, hslot, hal⟩ := hI.temporalAllocate_ring h0
    refine Or.inr (Or.inl ⟨o, r, hr, hslot ▸ h0, ?_⟩)
    rw [hslot]
    exact hal

/-! ## Pointers and tail headers -/

/-- The tag of an address says whether a block in use starts there. -/
theorem Inv.isAllocated_iff {h : Heap} {A : Blocks} (hI : Inv h A) (p : ℕ) :
    isAllocated h p = true ↔ ∃ n f, used A p = some (n, f) := by
  have hdvd := hI.geo.dvd
  constructor
  · intro hal
    simp only [isAllocated, Bool.and_eq_true, decide_eq_true_eq] at hal
    obtain ⟨⟨⟨⟨⟨⟨-, -⟩, hlow⟩, hup⟩, hmod⟩, h128⟩, -⟩ := hal
    have hpd : 2 ^ h.ctl.minLog ∣ p - h.ctl.base := Nat.dvd_of_mod_eq_zero hmod
    have htag := hI.tag_at hlow hpd
      (Nat.add_le_of_le_sub' (by omega) (Nat.le_of_dvd (by omega) (Nat.dvd_sub hdvd hpd)))
    match hA : A p with
    | none =>
      rw [hA] at htag
      have : _ = 255 := htag
      omega
    | some (n, o, k) =>
      rw [hA] at htag
      cases k with
      | free =>
        have h' : _ = tagFree o := htag
        rw [tagFree_eq (hI.order_lt hA)] at h'
        omega
      | cached =>
        have : _ = 255 := htag
        omega
      | inUse f => exact ⟨n, f, used_eq_some.2 ⟨o, hA⟩⟩
      | detached => exact absurd hA hI.closed
  · rintro ⟨n, f, hu⟩
    obtain ⟨o, hA⟩ := used_eq_some.1 hu
    have htag : h.ctl.blockTags (h.ctl.tagIndex p) = o := hI.tag_of hA
    obtain ⟨hlow, hup, h32⟩ := hI.within hA
    have hlim := hI.limit_le
    have h64 := hI.order_lt hA
    simp only [isAllocated, htag, Bool.and_eq_true, decide_eq_true_eq]
    exact ⟨⟨⟨⟨⟨⟨hI.pos hA, hI.base_ne_zero⟩, hlow⟩, by omega⟩,
      Nat.mod_eq_zero_of_dvd (hI.min_dvd hA)⟩, by omega⟩, (hI.size hA).2⟩

theorem Inv.hdrOfTagged {h : Heap} {A : Blocks} {b n o f : ℕ} (hI : Inv h A)
    (hA : A b = some (n, o, .inUse f)) :
    h.ctl.hdrOfTagged b = b + n - 32 ∧ h.mem.lo (h.ctl.hdrOfTagged b) = o ∧
      h.mem.hi (h.ctl.hdrOfTagged b) = f := by
  have htag : h.ctl.blockTags (h.ctl.tagIndex b) = o := hI.tag_of hA
  have h64 := hI.order_lt hA
  have he : h.ctl.hdrOfTagged b = b + n - 32 := by
    rw [BuddyList.hdrOfTagged, htag, Nat.mod_eq_of_lt (by omega), BuddyList.hdrOf, (hI.size hA).1]
  rw [he]
  exact ⟨rfl, (hI.tails hA).1, (hI.tails hA).2.1⟩

theorem Inv.setFlags {h : Heap} {A : Blocks} {b n o f f' : ℕ} (hI : Inv h A)
    (hA : A b = some (n, o, .inUse f))
    (hf : f' = blockAlloc ∨ f' = blockTombstone ∨ f' = blockAlloc + blockTemporal) :
    Inv { h with mem := h.mem.setHi (b + n - 32) f' } (update A b (some (n, o, .inUse f'))) := by
  obtain ⟨fl, hF⟩ := hI.lists
  obtain ⟨tc, hT⟩ := hI.caches
  have h32 := (hI.within hA).2.2
  have hne : ∀ {x n' o' k}, A x = some (n', o', k) → x ≠ b →
      x ≠ b + n - 32 ∧ x + n' - 32 ≠ b + n - 32 := by
    intro x n' o' k hx hxb
    have := hI.cell_ne hA hx hxb.symm (show b ≤ b + n - 32 by omega) (by omega)
    exact ⟨this.1.symm, this.2.symm⟩
  have hother : ∀ {x n' o' k}, A x = some (n', o', k) → k ≠ .inUse f → x ≠ b := by
    rintro x n' o' k hx hk rfl
    rw [hA] at hx
    simp only [Option.some.injEq, Prod.mk.injEq] at hx
    exact hk hx.2.2.symm
  have htag : h.ctl.blockTags (h.ctl.tagIndex b) = o := hI.tag_of hA
  refine ⟨hI.toCore.relabel (.inUse f') hA (.refl _) (fun _ _ => rfl) htag ⟨fl, ?_⟩ ⟨tc, ?_⟩
    (fun hab ha => ⟨rfl, update_of_ne (hne ha hab).2 _ _⟩) (fun f'' he => ?_), ?_,
    fun {a n' o'} ha => ?_⟩
  · refine hF.congr rfl rfl (fun x o' => relabel_iff hA .free (by simp) (by simp) x o')
      fun x n' o' hx => ⟨?_, rfl⟩
    simp [Mem.next, update_of_ne (hne hx (hother hx (by simp))).1]
  · refine hT.congr rfl rfl (fun x o' => relabel_iff hA .cached (by simp) (by simp) x o')
      fun x n' o' hx => ?_
    simp [Mem.next, update_of_ne (hne hx (hother hx (by simp))).1]
  · cases he
    exact ⟨(hI.tails hA).1, update_self _ _ _, hf⟩
  · refine hI.coalesced.mono (.refl _) fun {x n' o'} hx => ?_
    by_cases hxb : x = b
    · subst hxb
      simp [update_self] at hx
    · rwa [update_of_ne hxb] at hx
  · by_cases hab : a = b
    · subst hab
      simp [update_self] at ha
    · rw [update_of_ne hab] at ha
      exact hI.closed ha

/-! ## Tombstones and deallocation -/

theorem Inv.tombstone_unused {h : Heap} {A : Blocks} {p : ℕ} (hI : Inv h A) (hu : used A p = none) :
    tombstone h p = (.invalid, h) := by
  have hal : isAllocated h p = false := by
    rw [Bool.eq_false_iff, ne_eq, hI.isAllocated_iff]
    simp [hu]
  simp [Buddy.tombstone, hal]

theorem Inv.deallocate_unused {h : Heap} {A : Blocks} {p : ℕ} (hI : Inv h A)
    (hu : used A p = none) : deallocate h p = (.invalid, h) := by
  have hal : isAllocated h p = false := by
    rw [Bool.eq_false_iff, ne_eq, hI.isAllocated_iff]
    simp [hu]
  simp [Buddy.deallocate, hal]

theorem Inv.tombstone_again {h : Heap} {A : Blocks} {b n : ℕ} (hI : Inv h A)
    (hu : used A b = some (n, blockTombstone)) : tombstone h b = (.invalid, h) := by
  obtain ⟨o, hA⟩ := used_eq_some.1 hu
  obtain ⟨-, hlo, hhi⟩ := hI.hdrOfTagged hA
  have hal := (hI.isAllocated_iff b).2 ⟨_, _, hu⟩
  simp [Buddy.tombstone, hal, hlo, hhi]

theorem Inv.tombstone {h : Heap} {A : Blocks} {b n f : ℕ} (hI : Inv h A)
    (hu : used A b = some (n, f)) (hf : f ≠ blockTombstone) :
    ∃ h' A', tombstone h b = (.tombstoned, h') ∧ Inv h' A' ∧ SameShape h.ctl h'.ctl ∧
      used A' = update (used A) b (some (n, blockTombstone)) ∧
      h'.ctl.allocatedBytes = (h.ctl.allocatedBytes + (2 ^ 64 - n)) % 2 ^ 64 ∧
      h'.ctl.tombstonedBytes = (h.ctl.tombstonedBytes + n) % 2 ^ 64 ∧
      h'.ctl.active = h.ctl.active ∧ h'.mem.w2 = h.mem.w2 ∧ h'.mem.w3 = h.mem.w3 := by
  obtain ⟨o, hA⟩ := used_eq_some.1 hu
  obtain ⟨he, hlo, hhi⟩ := hI.hdrOfTagged hA
  have hal := (hI.isAllocated_iff b).2 ⟨_, _, hu⟩
  have hflag : f &&& blockAlloc ≠ 0 := by
    rcases (hI.tails hA).2.2 with rfl | rfl | rfl
    · decide
    · exact absurd rfl hf
    · decide
  have hn := (hI.size hA).1
  have hI' := hI.setFlags hA (Or.inr (Or.inl (Eq.refl blockTombstone)))
  refine ⟨⟨{ h.ctl with
      allocatedBytes := (h.ctl.allocatedBytes + (2 ^ 64 - n)) % 2 ^ 64
      tombstonedBytes := (h.ctl.tombstonedBytes + n) % 2 ^ 64 },
    h.mem.setHi (b + n - 32) blockTombstone⟩, _, ?_,
    ⟨hI'.toCore.congr ⟨rfl, rfl, rfl, rfl, rfl⟩ rfl rfl rfl rfl rfl,
      hI'.coalesced.mono ⟨rfl, rfl, rfl, rfl, rfl⟩ fun ha => ha, hI'.closed⟩,
    ⟨rfl, rfl, rfl, rfl, rfl⟩, used_update _ _ _, rfl, rfl, rfl, rfl, rfl⟩
  unfold Buddy.tombstone
  dsimp only
  rw [if_neg (by simp [hal]), hlo, hhi, if_neg (not_le.2 (hI.size hA).2), if_neg hflag, ← hn, he]

/-- A detached block of an otherwise closed pool goes back to the free lists. -/
theorem Core.mergeAndFree {h : Heap} {A : Blocks} {b n o : ℕ} (hC : Core h A)
    (hA : A b = some (n, o, .detached))
    (hsole : ∀ {x n' o'}, A x = some (n', o', .detached) → x = b) (hco : Coalesced h.ctl A) :
    ∃ A', Inv (mergeAndFree h b o) A' ∧ used A' = used A ∧ Frame h (mergeAndFree h b o) := by
  have hlow := hC.tiles.lower hA
  have hsz := hC.size hA
  have hb : h.ctl.base + (b - h.ctl.base) = b := by omega
  have hP : Pending h A (b - h.ctl.base) o :=
    ⟨hC, by rw [hb, hA, hsz.1], fun hx => by rw [hb]; exact hsole hx, hco⟩
  obtain ⟨h', off, o', A', hm, hF, hu, hP', hlast⟩ := mergeUp_spec (h.ctl.maxOrder - 1 - o) hP
    (by omega)
  have hres : Buddy.mergeAndFree h b o =
      pushFree h' (h'.ctl.base + off) o' (h'.ctl.tagIndex (h'.ctl.base + off)) := by
    rw [Buddy.mergeAndFree, hm, BuddyList.tagIndex, Nat.add_sub_cancel_left]
    rfl
  rw [hres]
  have hFp := pushFree_frame h' (h'.ctl.base + off) o' (h'.ctl.tagIndex (h'.ctl.base + off))
  refine ⟨_, ⟨hP'.push hP'.block, ?_, fun {a n' o''} ha => ?_⟩, ?_, hF.trans hFp⟩
  · -- The new free block has no free buddy, on either side of the relation.
    intro a n₁ o₁ ha ho₁ n₂ hb₂
    rw [hFp.shape.base, hFp.shape.minLog] at hb₂
    rw [hFp.shape.maxOrder] at ho₁
    by_cases hab : a = h'.ctl.base + off
    · subst hab
      rw [update_self] at ha
      simp only [Option.some.injEq, Prod.mk.injEq, and_true] at ha
      obtain ⟨-, rfl⟩ := ha
      rw [Nat.add_sub_cancel_left] at hb₂
      have hne : h'.ctl.base + buddy (h'.ctl.minLog + o') off ≠ h'.ctl.base + off := by
        intro he
        exact buddy_ne (h'.ctl.minLog + o') off (by omega)
      rw [update_of_ne hne] at hb₂
      exact hlast ho₁ n₂ hb₂
    · rw [update_of_ne hab] at ha
      by_cases hbb : h'.ctl.base + buddy (h'.ctl.minLog + o₁) (a - h'.ctl.base) = h'.ctl.base + off
      · rw [hbb, update_self] at hb₂
        simp only [Option.some.injEq, Prod.mk.injEq, and_true] at hb₂
        obtain ⟨-, rfl⟩ := hb₂
        have hoff : off = buddy (h'.ctl.minLog + o') (a - h'.ctl.base) := by omega
        have hlowa := hP'.tiles.lower ha
        refine hlast ho₁ n₁ ?_
        rw [hoff, buddy_buddy, Nat.add_sub_cancel' hlowa]
        exact ha
      · rw [update_of_ne hbb] at hb₂
        exact hP'.coalesced a n₁ o₁ ha ho₁ n₂ hb₂
  · by_cases hab : a = h'.ctl.base + off
    · subst hab
      simp [update_self] at ha
    · rw [update_of_ne hab] at ha
      exact hab (hP'.sole ha)
  · rw [used_update_idle (by rw [hP'.block]; rfl) rfl, hu]

theorem kind_bits {f : ℕ} (hf : f = blockAlloc ∨ f = blockTombstone ∨
    f = blockAlloc + blockTemporal) :
    f ≠ blockFree ∧ (f &&& blockTombstone ≠ 0 ↔ f = blockTombstone) ∧
      (f &&& blockTemporal ≠ 0 ↔ f = blockAlloc + blockTemporal) := by
  rcases hf with rfl | rfl | rfl <;> decide

/-- The active slots after a block of order `o` was freed. -/
def activeAfter (s : BuddyList) (b o f : ℕ) : ℕ → ℕ → ℕ :=
  if f = blockAlloc + blockTemporal then (clearActive s b o).active else s.active

/-- The control block after the counters of `deallocate`. -/
def discharge (s : BuddyList) (n f : ℕ) : BuddyList :=
  { s with
    allocatedBytes := (s.allocatedBytes + (2 ^ 64 - n)) % 2 ^ 64
    tombstonedBytes :=
      if f = blockTombstone then (s.tombstonedBytes + (2 ^ 64 - n)) % 2 ^ 64
      else s.tombstonedBytes }

/-- What the counters and the active slots do not touch. -/
structure SameLists (s s' : BuddyList) : Prop where
  shape : SameShape s s'
  tags : s'.blockTags = s.blockTags
  lists : s'.freeLists = s.freeLists
  mask : s'.freeMask = s.freeMask
  cache : s'.tcache = s.tcache
  count : s'.tcacheCount = s.tcacheCount

theorem discharge_lists (s : BuddyList) (n f : ℕ) : SameLists s (discharge s n f) :=
  ⟨⟨rfl, rfl, rfl, rfl, rfl⟩, rfl, rfl, rfl, rfl, rfl⟩

theorem clearActive_lists (s : BuddyList) (b o n f : ℕ) :
    SameLists s (clearActive (discharge s n f) b o) := by
  unfold clearActive
  split_ifs <;> exact ⟨⟨rfl, rfl, rfl, rfl, rfl⟩, rfl, rfl, rfl, rfl, rfl⟩

theorem clearActive_counters (s : BuddyList) (b o n f : ℕ) :
    (clearActive (discharge s n f) b o).allocatedBytes = (discharge s n f).allocatedBytes ∧
      (clearActive (discharge s n f) b o).tombstonedBytes = (discharge s n f).tombstonedBytes ∧
      (clearActive (discharge s n f) b o).active = (clearActive s b o).active := by
  unfold clearActive discharge
  dsimp only
  split_ifs <;> exact ⟨rfl, rfl, rfl⟩

theorem Inv.deallocate_eq {h : Heap} {A : Blocks} {b n o f : ℕ} (hI : Inv h A)
    (hA : A b = some (n, o, .inUse f)) : deallocate h b =
      if f = blockAlloc + blockTemporal then
        let r := tcachePush ⟨clearActive (discharge h.ctl n f) b o, h.mem⟩ b o
        if r.1 then (.ok, { r.2 with ctl := r.2.ctl.setTag (r.2.ctl.tagIndex b) 255 })
        else (.ok, mergeAndFree r.2 b o)
      else (.ok, mergeAndFree ⟨discharge h.ctl n f, h.mem⟩ b o) := by
  obtain ⟨-, hlo, hhi⟩ := hI.hdrOfTagged hA
  have hal := (hI.isAllocated_iff b).2 ⟨_, _, used_eq_some.2 ⟨o, hA⟩⟩
  obtain ⟨hf0, hft, hfp⟩ := kind_bits (hI.tails hA).2.2
  unfold Buddy.deallocate
  dsimp only
  rw [if_neg (by simp [hal]), hlo, hhi, if_neg (not_le.2 (hI.size hA).2), if_neg hf0,
    ← (hI.size hA).1]
  simp only [hft, hfp]
  rfl

theorem Inv.coalesced_update {h : Heap} {A : Blocks} {b n o : ℕ} {k : Kind} (hI : Inv h A)
    (hk : k ≠ .free) : Coalesced h.ctl (update A b (some (n, o, k))) := by
  refine hI.coalesced.mono (.refl _) fun {x n' o'} hx => ?_
  by_cases hxb : x = b
  · subst hxb
    simp only [update_self, Option.some.injEq, Prod.mk.injEq] at hx
    exact absurd hx.2.2 hk
  · rwa [update_of_ne hxb] at hx

theorem Inv.detached_sole {h : Heap} {A : Blocks} {b n o x n' o' : ℕ} (hI : Inv h A)
    (hx : update A b (some (n, o, .detached)) x = some (n', o', .detached)) : x = b := by
  by_contra hxb
  rw [update_of_ne hxb] at hx
  exact hI.closed hx

/-- A block in use is detached and merged into the free lists. -/
theorem Inv.mergeAndFree {h : Heap} {A : Blocks} {s : BuddyList} {b n o f : ℕ} (hI : Inv h A)
    (hA : A b = some (n, o, .inUse f)) (hs : SameLists h.ctl s) :
    ∃ A', Inv (mergeAndFree ⟨s, h.mem⟩ b o) A' ∧ used A' = update (used A) b none ∧
      Frame ⟨s, h.mem⟩ (mergeAndFree ⟨s, h.mem⟩ b o) := by
  have hD := (hI.toCore.detach hA).congr hs.shape hs.tags hs.lists hs.mask hs.cache hs.count
  obtain ⟨A', hI', hu, hF⟩ := hD.mergeAndFree (update_self _ _ _) hI.detached_sole
    ((hI.coalesced_update (by simp)).mono hs.shape fun ha => ha)
  exact ⟨A', hI', hu.trans (used_update _ _ _), hF⟩

/-- A block in use is detached and cached. -/
theorem Inv.cache {h : Heap} {A : Blocks} {s : BuddyList} {b n o f : ℕ} (hI : Inv h A)
    (hA : A b = some (n, o, .inUse f)) (hs : SameLists h.ctl s) (hroom : s.tcacheCount o < 4) :
    Inv (cache ⟨s, h.mem⟩ b o) (update A b (some (n, o, .cached))) := by
  have hD := (hI.toCore.detach hA).congr hs.shape hs.tags hs.lists hs.mask hs.cache hs.count
  have hC := hD.cache (update_self _ _ _) hroom
  rw [update_idem] at hC
  refine ⟨hC, ?_, fun {a n' o'} hx => ?_⟩
  · rw [cache_eq hroom]
    exact (hI.coalesced_update (by simp)).mono (hs.shape.trans ⟨rfl, rfl, rfl, rfl, rfl⟩)
      fun ha => ha
  · by_cases hab : a = b
    · subst hab
      simp [update_self] at hx
    · rw [update_of_ne hab] at hx
      exact hI.closed hx

theorem Inv.deallocate {h : Heap} {A : Blocks} {b n f : ℕ} (hI : Inv h A)
    (hu : used A b = some (n, f)) :
    ∃ h' A' o, deallocate h b = (.ok, h') ∧ Inv h' A' ∧ SameShape h.ctl h'.ctl ∧
      n = h.ctl.orderSize o ∧ used A' = update (used A) b none ∧
      h'.ctl.allocatedBytes = (h.ctl.allocatedBytes + (2 ^ 64 - n)) % 2 ^ 64 ∧
      h'.ctl.tombstonedBytes = (if f = blockTombstone then
        (h.ctl.tombstonedBytes + (2 ^ 64 - n)) % 2 ^ 64 else h.ctl.tombstonedBytes) ∧
      h'.ctl.active = activeAfter h.ctl b o f ∧ h'.mem.w2 = h.mem.w2 ∧ h'.mem.w3 = h.mem.w3 := by
  obtain ⟨o, hA⟩ := used_eq_some.1 hu
  have hn := (hI.size hA).1
  have hs := clearActive_lists h.ctl b o n f
  obtain ⟨ha, ht, hac⟩ := clearActive_counters h.ctl b o n f
  rw [hI.deallocate_eq hA]
  by_cases hf : f = blockAlloc + blockTemporal
  · simp only [activeAfter, if_pos hf]
    by_cases hfull : 4 ≤ (clearActive (discharge h.ctl n f) b o).tcacheCount o
    · obtain ⟨A', hI', hu', hF⟩ := hI.mergeAndFree hA hs
      refine ⟨Buddy.mergeAndFree ⟨clearActive (discharge h.ctl n f) b o, h.mem⟩ b o, A', o, ?_,
        hI', hs.shape.trans hF.shape, hn, hu', hF.allocated.trans ha, hF.tombstoned.trans ht,
        hF.active.trans hac, hF.w2, hF.w3⟩
      simp [tcachePush, hfull]
    · refine ⟨Buddy.cache ⟨clearActive (discharge h.ctl n f) b o, h.mem⟩ b o, _, o, ?_,
        hI.cache hA hs (not_le.1 hfull), ?_, hn, ?_⟩
      · simp [tcachePush, hfull, Buddy.cache]
      · rw [cache_eq (not_le.1 hfull)]
        exact hs.shape.trans ⟨rfl, rfl, rfl, rfl, rfl⟩
      · rw [cache_eq (not_le.1 hfull)]
        exact ⟨used_update _ _ _, ha, ht, hac, rfl, rfl⟩
  · simp only [activeAfter, if_neg hf]
    obtain ⟨A', hI', hu', hF⟩ := hI.mergeAndFree hA (discharge_lists h.ctl n f)
    exact ⟨_, A', o, rfl, hI', (discharge_lists h.ctl n f).shape.trans hF.shape, hn, hu',
      hF.allocated, hF.tombstoned, hF.active, hF.w2, hF.w3⟩

/-! ## Queries and client writes -/

theorem Inv.blockSize {h : Heap} {A : Blocks} {b n f : ℕ} (hI : Inv h A)
    (hu : used A b = some (n, f)) : blockSize h b = n := by
  obtain ⟨o, hA⟩ := used_eq_some.1 hu
  obtain ⟨hlow, hup, h32⟩ := hI.within hA
  have hlim := hI.limit_le
  have htag : h.ctl.blockTags (h.ctl.tagIndex b) = o := hI.tag_of hA
  have h64 := hI.order_lt hA
  have hcond : ¬(h.ctl.base = 0 ∨ b = 0 ∨ b < h.ctl.base ∨ h.ctl.base + h.ctl.total ≤ b ∨
      (b - h.ctl.base) % 2 ^ h.ctl.minLog ≠ 0) := by
    rintro (hc | hc | hc | hc | hc)
    · exact hI.base_ne_zero hc
    · exact hI.pos hA hc
    · omega
    · omega
    · exact hc (Nat.mod_eq_zero_of_dvd (hI.min_dvd hA))
  unfold Buddy.blockSize
  dsimp only
  rw [if_neg hcond, htag, Nat.mod_eq_of_lt (by omega), if_neg (not_le.2 (hI.size hA).2),
    (hI.size hA).1]

theorem Inv.store {h : Heap} {A : Blocks} {b n f x : ℕ} (hI : Inv h A)
    (hu : used A b = some (n, f)) (h₁ : b ≤ x) (h₂ : x + 32 ≤ b + n - 32) (c : Cell) :
    Inv { h with mem := h.mem.store x c } A := by
  obtain ⟨o, hA⟩ := used_eq_some.1 hu
  obtain ⟨fl, hF⟩ := hI.lists
  obtain ⟨tc, hT⟩ := hI.caches
  have h32 := (hI.within hA).2.2
  have hne : ∀ {y n' o' k}, A y = some (n', o', k) → y ≠ b → y ≠ x ∧ y + n' - 32 ≠ x := by
    intro y n' o' k hy hyb
    have := hI.cell_ne hA hy hyb.symm h₁ (by omega)
    exact ⟨this.1.symm, this.2.symm⟩
  have hidle : ∀ {y n' o' k}, A y = some (n', o', k) → k ≠ .inUse f → y ≠ b := by
    rintro y n' o' k hy hk rfl
    rw [hA] at hy
    simp only [Option.some.injEq, Prod.mk.injEq] at hy
    exact hk hy.2.2.symm
  refine ⟨⟨hI.geo, hI.tiles, hI.size, hI.aligned, hI.tags, ⟨fl, ?_⟩, ⟨tc, ?_⟩,
    fun {a n' o' f'} ha => ?_⟩,
    hI.coalesced, hI.closed⟩
  · refine hF.congr rfl rfl (fun _ _ => Iff.rfl) fun y n' o' hy => ?_
    have := (hne hy (hidle hy (by simp))).1
    simp [Mem.next, Mem.store, update_of_ne this]
  · refine hT.congr rfl rfl (fun _ _ => Iff.rfl) fun y n' o' hy => ?_
    have := (hne hy (hidle hy (by simp))).1
    simp [Mem.next, Mem.store, update_of_ne this]
  · have htail : a + n' - 32 ≠ x := by
      by_cases hab : a = b
      · subst hab
        rw [hA] at ha
        simp only [Option.some.injEq, Prod.mk.injEq] at ha
        omega
      · exact (hne ha hab).2
    simp only [Mem.store, update_of_ne htail]
    exact hI.tails ha

end AbcMalloc.Buddy
