import AbcMalloc.Buddy.Refinement

/-! What `temporal_allocate` of `__buddy_list` serves. The rings are indexed by the order, so that a
ring block is as large as any request of its ring; it may have been tombstoned. -/
namespace AbcMalloc.Buddy
open Function Foundation

/-- The chunk starts and ends in a block of the pool that is allocated and not tombstoned. -/
def InAllocated (h : Heap) (c : Chunk) : Prop :=
  ∃ t < h.ctl.tagCount, h.ctl.blockTags t < 128 ∧
    h.mem.hi (h.ctl.hdrOf (h.ctl.unit t) (h.ctl.blockTags t)) &&& blockAlloc ≠ 0 ∧
    h.ctl.unit t ≤ c.ptr ∧ c.ptr < h.ctl.unit t + h.ctl.orderSize (h.ctl.blockTags t) ∧
    c.ptr + c.len ≤ h.ctl.unit t + h.ctl.orderSize (h.ctl.blockTags t)

/-- What is returned for `n` bytes is long enough and in an allocated block. -/
def Serves (h : Heap) (n : ℕ) : Prop :=
  ∀ c h', temporalAllocate h n = some (c, h') → c.ptr ≠ 0 → n ≤ c.len ∧ InAllocated h' c

def ringSuits (h : Heap) (n : ℕ) : Bool :=
  let b := activeBlock h.ctl n
  b = 0 || !isTombstoned h b

section Serving
variable {h h' : Heap} {A : Blocks} {b n sz f : ℕ}

/-- The payload of a block in use is in an allocated block if the block is not tombstoned. -/
theorem Inv.inAllocated_iff (hI : Inv h A) (hb : used A b = some (sz, f)) :
    InAllocated h ⟨b, sz - 32⟩ ↔ f ≠ blockTombstone := by
  obtain ⟨o, hA⟩ := used_eq_some.1 hb
  obtain ⟨hunit, hlt⟩ := hI.tagIndex_spec hA
  have htag : h.ctl.blockTags (h.ctl.tagIndex b) = o := hI.tag_of hA
  have hunit : h.ctl.unit (h.ctl.tagIndex b) = b := hunit
  have hsz := (hI.size hA).1
  have hpos := (hI.within hA).2.2
  have h64 := hI.order_lt hA
  constructor
  · rintro ⟨t, ht, h128, hflag, hle, hin, -⟩ rfl
    simp only at hle hin
    -- the unit starts a block in use, which is the given one
    obtain ⟨-, htagOf⟩ := hI.unit_tag ht
    match hA' : A (h.ctl.unit t) with
    | none =>
      rw [hA'] at htagOf
      have : h.ctl.blockTags t = 255 := htagOf
      omega
    | some (n', o', k) =>
      rw [hA'] at htagOf
      cases k with
      | free =>
        have htag' : h.ctl.blockTags t = tagFree o' := htagOf
        rw [tagFree_eq (hI.order_lt hA')] at htag'
        omega
      | cached =>
        have : h.ctl.blockTags t = 255 := htagOf
        omega
      | detached => exact absurd hA' hI.closed
      | inUse f' =>
        have htag' : h.ctl.blockTags t = o' := htagOf
        rw [htag', ← (hI.size hA').1] at hin
        have heq : h.ctl.unit t = b := by
          by_contra hne
          have := hI.tiles.disjoint hA' hA hne
          omega
        rw [heq] at hA'
        rw [hA'] at hA
        simp only [Option.some.injEq, Prod.mk.injEq, Kind.inUse.injEq] at hA
        obtain ⟨rfl, rfl, rfl⟩ := hA
        rw [heq, htag', BuddyList.hdrOf, ← hsz, (hI.tails hA').2.1] at hflag
        exact hflag (by decide)
  · intro hne
    refine ⟨h.ctl.tagIndex b, hlt, ?_, ?_, ?_, ?_, ?_⟩
    · rw [htag]
      omega
    · rw [hunit, htag, BuddyList.hdrOf, ← hsz, (hI.tails hA).2.1]
      rcases (hI.tails hA).2.2 with rfl | rfl | rfl
      · decide
      · exact absurd rfl hne
      · decide
    · exact hunit.le
    · rw [hunit, htag, ← hsz]
      simp only
      omega
    · rw [hunit, htag, ← hsz]
      simp only
      omega

/-- In a good pool a request is served unless its ring holds a tombstoned block. -/
theorem Good.serves_iff (hG : Good h A) : Serves h n ↔ ringSuits h n = true := by
  by_cases h0 : activeBlock h.ctl n = 0
  · simp only [ringSuits, h0, decide_true, Bool.true_or, iff_true]
    intro c h' hrun hc
    rcases hG.temporalAllocate_fresh h0 with hnull | ⟨b, o, r, h₁, A', rfl, hal, hI', hT, -⟩
    · rw [hnull] at hrun
      simp only [Option.some.injEq, Prod.mk.injEq] at hrun
      exact absurd (by rw [← hrun.1]; rfl) hc
    · rw [hal] at hrun
      simp only [Option.some.injEq, Prod.mk.injEq] at hrun
      obtain ⟨rfl, rfl⟩ := hrun
      have hb : used A' b = some (h.ctl.orderSize (h.ctl.orderForSize (n + 32)),
          blockAlloc + blockTemporal) := by rw [hT.used, update_self]
      have hle := le_orderSize_orderForSize h.ctl (n := n + 32) (by omega)
      exact ⟨by simp only; omega, (hI'.inAllocated_iff hb).2 (by decide)⟩
  · obtain ⟨o, r, hr, ho, hslot, hal⟩ := hG.temporalAllocate_ring h0
    obtain ⟨f, hb, -⟩ := hG.rings.entry (hslot ▸ h0)
    rw [hslot] at hb
    obtain ⟨o', hA⟩ := used_eq_some.1 hb
    have hle := le_orderSize_orderForSize h.ctl (n := n + 32) (by omega)
    rw [← ho] at hle
    have htomb : isTombstoned h (activeBlock h.ctl n) = decide (f = blockTombstone) := by
      rw [isTombstoned, (hG.hdrOfTagged hA).2.2, decide_eq_decide]
      exact (kind_bits (hG.tails hA).2.2).2.1
    have hI' : Inv { h with ctl := { h.ctl with
        activeRotor := update h.ctl.activeRotor o (r ^^^ 1) } } A :=
      ⟨hG.toCore.congr ⟨rfl, rfl, rfl, rfl, rfl⟩ rfl rfl rfl rfl rfl,
        hG.coalesced.mono ⟨rfl, rfl, rfl, rfl, rfl⟩ fun ha => ha, hG.closed⟩
    have hin := hI'.inAllocated_iff hb
    simp only [ringSuits, h0, decide_false, Bool.false_or, htomb, Bool.not_eq_true',
      decide_eq_false_iff_not]
    rw [← ne_eq, ← hin]
    constructor
    · intro hserve
      exact (hserve _ _ hal h0).2
    · intro hgood c h' hrun _
      rw [hal] at hrun
      simp only [Option.some.injEq, Prod.mk.injEq] at hrun
      obtain ⟨rfl, rfl⟩ := hrun
      exact ⟨by simp only; omega, hgood⟩

end Serving

/-! ## Runs -/

def activeHolds (s : BuddyList) (p : ℕ) : Bool :=
  (List.range 64).any fun o => s.active o 0 == p || s.active o 1 == p

/-- The steps of a client that holds the pointers it passes and deallocates no tombstoned block
that an active slot still points to. -/
def Permitted (w : Client Heap) (op : Op) : Prop :=
  w.wellHeld op = true ∧
    match op with
    | .deallocate p => (isTombstoned w.book p && activeHolds w.book.ctl p) = false
    | _ => True

instance (w : Client Heap) (op : Op) : Decidable (Permitted w op) :=
  match op with
  | .deallocate _ => inferInstanceAs (Decidable (_ = true ∧ _ = false))
  | .allocate _ => inferInstanceAs (Decidable (_ = true ∧ True))
  | .temporalAllocate _ => inferInstanceAs (Decidable (_ = true ∧ True))
  | .tombstone _ => inferInstanceAs (Decidable (_ = true ∧ True))
  | .write .. => inferInstanceAs (Decidable (_ = true ∧ True))

theorem Good.activeHolds {h : Heap} {A : Blocks} {b o r : ℕ} (hG : Good h A) (hb : b ≠ 0)
    (he : h.ctl.active o r = b) : activeHolds h.ctl b = true := by
  obtain ⟨f, hu, -⟩ := hG.rings.entry (he ▸ hb)
  obtain ⟨o', hA⟩ := used_eq_some.1 hu
  have hr : r < 2 := by
    by_contra hge
    exact hb (he ▸ hG.rings.slots (not_lt.1 hge))
  have ho : o = o' := by
    have h₁ : 2 ^ (h.ctl.minLog + o) = 2 ^ (h.ctl.minLog + o') := (hG.size hA).1
    have := Nat.pow_right_injective le_rfl h₁
    omega
  have h64 := hG.order_lt hA
  simp only [Buddy.activeHolds, List.any_eq_true, List.mem_range, Bool.or_eq_true, beq_iff_eq]
  refine ⟨o, ho ▸ h64, ?_⟩
  interval_cases r
  · exact Or.inl he
  · exact Or.inr he

theorem run_good {minLog ptr len : ℕ} {m : Mem} {ext : Bool} {tags : ℕ → ℕ} {ops : List Op}
    {w : Client Heap} (hmin : 5 ≤ minLog) (hlen : ptr + len < 2 ^ 64)
    (hacc : (initMemory minLog m ptr len ext tags).ctl.base ≠ 0)
    (hrun : Run Permitted (Client.step buddyBook) (.start (initMemory minLog m ptr len ext tags))
      ops w) : ∃ A, Good w.book A := by
  obtain ⟨L, hrep, -⟩ := initMemory_vacant hmin hlen hacc
  have hinv : ∃ L, BuddyRep w.book L ∧ L.Holds buddyBook.header w := by
    refine hrun.invariant (fun w => ∃ L, BuddyRep w.book L ∧ L.Holds buddyBook.header w) ?_
      ⟨L, hrep, fun p len hp => by simp [Client.start] at hp⟩
    rintro w op w' ⟨L, hrep, hH⟩ ⟨hlegal, hspare⟩ hstep
    have hfit : fitsOp (fun _ => true) op = true := by
      cases op <;> rfl
    have hring : ∀ b n, op = .deallocate (b + buddyBook.header) →
        L.used b = some (n, blockTombstone) → ¬L.ring b := by
      rintro b n rfl hb hring
      obtain ⟨A, hG, rfl⟩ := hrep
      obtain ⟨h0, o, r, he⟩ := hring
      have htomb : isTombstoned w.book b = true := buddy_refines.isTombstoned ⟨A, hG, rfl⟩ hb
      have hspare : (isTombstoned w.book b && activeHolds w.book.ctl b) = false := hspare
      rw [htomb, hG.activeHolds h0 he] at hspare
      exact absurd hspare (by decide)
    obtain ⟨w'', L', hstep', hrep', hls⟩ := buddy_refines.step hrep hH hlegal hfit hring
    rw [hstep, Option.some.injEq] at hstep'
    subst hstep'
    exact ⟨L', hrep', hls.holds (buddy_refines.valid hrep) (buddy_refines.valid hrep') hH⟩
  obtain ⟨L', ⟨A, hG, -⟩, -⟩ := hinv
  exact ⟨A, hG⟩

theorem serves_iff_of_run {minLog ptr len : ℕ} {m : Mem} {ext : Bool} {tags : ℕ → ℕ}
    {ops : List Op} {w : Client Heap} (hmin : 5 ≤ minLog) (hlen : ptr + len < 2 ^ 64)
    (hacc : (initMemory minLog m ptr len ext tags).ctl.base ≠ 0)
    (hrun : Run Permitted (Client.step buddyBook) (.start (initMemory minLog m ptr len ext tags))
      ops w) (n : ℕ) : Serves w.book n ↔ ringSuits w.book n = true := by
  obtain ⟨A, hG⟩ := run_good hmin hlen hacc hrun
  exact hG.serves_iff

end AbcMalloc.Buddy
