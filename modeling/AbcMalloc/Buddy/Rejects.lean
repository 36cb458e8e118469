import AbcMalloc.Buddy.Tags

/-! Bogus frees. A user cannot write to the tags, so an address that is not held is refused
whatever was written to the blocks; while users write in place, the addresses that are accepted
are the starts of the blocks that are on no free list and in no cache. -/
namespace AbcMalloc.Buddy
open Function Foundation

/-- Neither way to free `p` accepts it, and both leave the pool as it is. -/
def Refuses (h : Heap) (p : ℕ) : Prop :=
  deallocate h p = (.invalid, h) ∧ tombstone h p = (.invalid, h)

def StartsUsed (h : Heap) (p : ℕ) : Prop :=
  ∃ fl tc B n o, Represents h fl tc B ∧ B p = some (n, o) ∧ p ∉ fl o ∧ p ∉ tc o

theorem refuses_of_unallocated {h : Heap} {p : ℕ} (hal : isAllocated h p = false) :
    Refuses h p := by
  constructor
  · simp [deallocate, hal]
  · simp [tombstone, hal]

/-! ## Marks are held -/

/-- Every address that is marked as allocated was returned and not deallocated since. `s` is
the list after initialisation. -/
structure Marked (s : BuddyList) (w : Client Heap) : Prop where
  shape : SameShape s w.book.ctl
  grid : Gridded w.book.ctl
  held : ∀ t, t < w.book.ctl.tagCount → w.book.ctl.blockTags t < 128 →
    (w.held (w.book.ctl.unit t)).isSome = true

theorem SameShape.unit {s s' : BuddyList} (h : SameShape s s') (t : ℕ) : s'.unit t = s.unit t := by
  unfold BuddyList.unit
  rw [h.base, h.minLog]

namespace Marked
variable {s : BuddyList} {w w' : Client Heap} {h' : Heap} {b : ℕ}

theorem receive (hM : Marked s w) {c : Chunk} (hm : Marks w.book.ctl h'.ctl c.ptr)
    (h0 : c.ptr = 0 → Unmarks w.book.ctl h'.ctl) : Marked s (w.receive buddyBook c h') := by
  have hbook := receive_book buddyBook w c h'
  refine ⟨by rw [hbook]; exact hM.shape.trans hm.shape, by rw [hbook]; exact hm.grid,
    fun t ht hmark => ?_⟩
  rw [hbook] at ht hmark ⊢
  rw [hm.shape.tagCount] at ht
  by_cases hc : c.ptr = 0
  · rw [Client.receive, if_pos hc, hm.shape.unit]
    exact hM.held t ht ((h0 hc).marks t hmark)
  · rw [Client.receive, if_neg hc]
    simp only [update_apply]
    split_ifs with hu
    · rfl
    · rw [hm.shape.unit]
      exact hM.held t ht ((hm.marks t hmark).resolve_right hu)

theorem unmarks (hM : Marked s w) (hU : Unmarks w.book.ctl h'.ctl) (hbook : w'.book = h')
    (hheld : w'.held = w.held) : Marked s w' := by
  subst hbook
  refine ⟨hM.shape.trans hU.shape, hU.grid hM.grid, fun t ht hmark => ?_⟩
  rw [hheld, hU.shape.unit]
  exact hM.held t (hU.shape.tagCount ▸ ht) (hU.marks t hmark)

/-- Marks only go, the one of the address that is given back among them. -/
theorem drop (hM : Marked s w) (hU : Unmarks w.book.ctl h'.ctl) (hbook : w'.book = h')
    (hheld : w'.held = update w.held b none)
    (hclear : 128 ≤ h'.ctl.blockTags (w.book.ctl.tagIndex b)) : Marked s w' := by
  subst hbook
  refine ⟨hM.shape.trans hU.shape, hU.grid hM.grid, fun t ht hmark => ?_⟩
  have hne : w'.book.ctl.unit t ≠ b := by
    intro hb
    rw [← hb, ← hU.shape.tagIndex, tagIndex_unit] at hclear
    omega
  rw [hheld, update_of_ne hne, hU.shape.unit]
  exact hM.held t (hU.shape.tagCount ▸ ht) (hU.marks t hmark)

theorem deallocate (hM : Marked s w) (hstep : w.step buddyBook (.deallocate b) = some w') :
    Marked s w' := by
  cases hal : isAllocated w.book b with
  | false =>
    have hde := (refuses_of_unallocated hal).1
    obtain rfl : w = w' := by simpa [Client.step, buddyBook, hde] using hstep
    exact hM
  | true =>
    obtain ⟨hU, hclear⟩ := deallocate_unmarks hal
    simp only [Client.step] at hstep
    split_ifs at hstep with hok
    · cases hstep
      exact hM.drop hU rfl rfl (hclear hok)
    · cases hstep
      exact hM.unmarks hU rfl rfl

theorem tombstone (hM : Marked s w) (hstep : w.step buddyBook (.tombstone b) = some w') :
    Marked s w' := by
  have hU : Unmarks w.book.ctl (Buddy.tombstone w.book b).2.ctl := by
    unfold Buddy.tombstone
    dsimp only
    split_ifs
    · exact .refl _
    · exact .refl _
    · exact .refl _
    · exact ⟨⟨rfl, rfl, rfl, rfl, rfl⟩, fun _ ht => ht, fun hg => ⟨hg.free, hg.cached, hg.active⟩⟩
  simp only [Client.step] at hstep
  split_ifs at hstep
  all_goals
    cases hstep
    exact hM.unmarks hU rfl rfl

/-- Whatever a client does and writes, marks stay held. -/
theorem step {op : Op} (hM : Marked s w) (hstep : w.step buddyBook op = some w') :
    Marked s w' := by
  cases op with
  | allocate n =>
    obtain ⟨⟨c, h'⟩, hal, hw⟩ := Option.bind_eq_some_iff.1 hstep
    cases hw
    obtain ⟨hm, h0⟩ := allocate_marks hM.grid hal
    exact hM.receive hm fun hc => h0 hc ▸ .refl _
  | temporalAllocate n =>
    obtain ⟨⟨c, h'⟩, hal, hw⟩ := Option.bind_eq_some_iff.1 hstep
    cases hw
    obtain ⟨hm, h0⟩ := temporalAllocate_marks hM.grid hal
    exact hM.receive hm h0
  | tombstone p => exact hM.tombstone hstep
  | deallocate p => exact hM.deallocate hstep
  | write p i c =>
    cases hstep
    have hU : Unmarks w.book.ctl (buddyBook.store w.book (p + 32 * i) c).ctl := .refl _
    exact hM.unmarks hU rfl rfl

end Marked

/-- An address that is marked as allocated is a unit of the pool. -/
theorem unit_of_isAllocated {h : Heap} {p : ℕ} (hgeo : h.ctl.base ≠ 0 → Geometry h.ctl)
    (hal : isAllocated h p = true) : h.ctl.unit (h.ctl.tagIndex p) = p ∧
      h.ctl.tagIndex p < h.ctl.tagCount ∧ h.ctl.blockTags (h.ctl.tagIndex p) < 128 ∧
      h.ctl.blockTags (h.ctl.tagIndex p) < h.ctl.maxOrder ∧ h.ctl.base ≠ 0 := by
  simp only [isAllocated, Bool.and_eq_true, decide_eq_true_eq] at hal
  obtain ⟨⟨⟨⟨⟨⟨-, hbase⟩, hlow⟩, hup⟩, hmod⟩, hmark⟩, hord⟩ := hal
  have hgeo := hgeo hbase
  refine ⟨OnGrid.unit ⟨hlow, Nat.dvd_of_mod_eq_zero hmod⟩, ?_, hmark, hord, hbase⟩
  rw [hgeo.tagCount]
  exact Nat.div_lt_div_of_lt_of_dvd hgeo.dvd (by omega)

/-- A pool marks nothing after initialisation, accepted or refused. -/
theorem initMemory_marked (minLog ptr len : ℕ) (m : Mem) (ext : Bool) (tags : ℕ → ℕ) :
    Marked (initMemory minLog m ptr len ext tags).ctl
      (.start (initMemory minLog m ptr len ext tags)) := by
  have hempty : Marked (.empty minLog) (.start ⟨.empty minLog, m⟩) :=
    ⟨.refl _, ⟨fun _ h0 => absurd rfl h0, fun _ h0 => absurd rfl h0, fun _ _ h0 => absurd rfl h0⟩,
      fun t ht => absurd ht (Nat.not_lt_zero t)⟩
  have hpool : ∀ base total, Marked (formatPool minLog m base total ext tags).ctl
      (.start (formatPool minLog m base total ext tags)) := by
    intro base total
    set maxOrder := min 64 ((total / 2 ^ minLog).log2 + 1) with hmax
    refine ⟨.refl _, ⟨fun o h0 => ?_, fun _ h0 => absurd rfl h0, fun _ _ h0 => absurd rfl h0⟩,
      fun t ht hmark => ?_⟩
    · have hhead : (formatPool minLog m base total ext tags).ctl.freeLists o =
          if o = maxOrder - 1 then base else 0 := update_apply (fun _ => 0) _ base o
      have h0 : (formatPool minLog m base total ext tags).ctl.freeLists o ≠ 0 := h0
      show BuddyList.OnGrid _ ((formatPool minLog m base total ext tags).ctl.freeLists o)
      rw [hhead] at h0 ⊢
      split_ifs at h0 ⊢
      · exact onGrid_add (Nat.dvd_zero _)
      · exact absurd rfl h0
    · have ht : t < total / 2 ^ minLog := ht
      have hmark : update (fun t => if t < total / 2 ^ minLog then 255 else tags t)
          ((base - base) / 2 ^ minLog) (tagFree (maxOrder - 1)) t < 128 := hmark
      have := le_tagFree (maxOrder - 1)
      rw [update_apply, if_pos ht] at hmark
      split_ifs at hmark <;> omega
  unfold initMemory
  dsimp only
  split_ifs <;> first | exact hempty | exact hpool _ _

/-! ## Starts of blocks in use -/

/-- Under the representation invariant a marked address starts a block that is neither free nor
cached. -/
theorem RepInv.startsUsed {h : Heap} {p : ℕ} (hR : RepInv h) (hgeo : Geometry h.ctl)
    (hal : isAllocated h p = true) : StartsUsed h p := by
  obtain ⟨fl, tc, B, hR⟩ := hR
  obtain ⟨hunit, hlt, hmark, hord, -⟩ := unit_of_isAllocated (fun _ => hgeo) hal
  have h64 := hgeo.order_le
  have hB : B p = some (h.ctl.orderSize (h.ctl.blockTags (h.ctl.tagIndex p)),
      h.ctl.blockTags (h.ctl.tagIndex p)) := by
    rw [hR.blocks]
    exact ⟨rfl, Or.inl ⟨_, hlt, hunit.symm, by omega, by omega⟩⟩
  refine ⟨fl, tc, B, _, _, hR, hB, fun hfree => ?_, fun hcached => ?_⟩
  · rw [← hunit, tagIndex_unit] at hfree
    have htag := (hR.free _ hlt _ (by omega)).2 hfree
    have := le_tagFree (h.ctl.blockTags (h.ctl.tagIndex p))
    omega
  · have := hR.others _ hlt (Or.inr ⟨_, hunit.symm ▸ hcached⟩)
    omega

theorem StartsUsed.tagged {h : Heap} {p : ℕ} (hp : StartsUsed h p) :
    h.ctl.blockTags (h.ctl.tagIndex p) ≠ 255 := by
  obtain ⟨fl, tc, B, n, o, hR, hB, -, hcached⟩ := hp
  obtain ⟨t, -, rfl, htag, -⟩ := ((hR.blocks p n o).1 hB).2.resolve_right hcached
  rwa [tagIndex_unit]

/-- An address that is not held is refused, whatever was written into the chunks held; while
writes stay in blocks in use, so is every address that does not start one. -/
theorem bogus_free_rejected {minLog ptr len : ℕ} {m : Mem} {ext : Bool} {tags : ℕ → ℕ}
    {ops : List Op} {w : Client Heap} (hmin : 5 ≤ minLog) (hlen : ptr + len < 2 ^ 64) :
    (Run (fun w op => w.writes op = true) (Client.step buddyBook)
        (.start (initMemory minLog m ptr len ext tags)) ops w →
      ∀ p, w.held p = none → Refuses w.book p) ∧
      (Run (fun w op => inPlace w op = true) (Client.step buddyBook)
          (.start (initMemory minLog m ptr len ext tags)) ops w →
        ∀ p, ¬StartsUsed w.book p → Refuses w.book p) := by
  set h₀ := initMemory minLog m ptr len ext tags with hh₀
  have hmarked : ∀ {ok : Client Heap → Op → Prop},
      Run ok (Client.step buddyBook) (.start h₀) ops w → Marked h₀.ctl w := fun hrun =>
    hrun.invariant (Marked h₀.ctl) (fun _ _ _ hM _ hstep => hM.step hstep)
      (initMemory_marked minLog ptr len m ext tags)
  have hgeo : ∀ {ok : Client Heap → Op → Prop},
      Run ok (Client.step buddyBook) (.start h₀) ops w →
      w.book.ctl.base ≠ 0 → h₀.ctl.base ≠ 0 ∧ Geometry w.book.ctl := by
    intro ok hrun hbase
    have hs := (hmarked hrun).shape
    rw [hs.base] at hbase
    exact ⟨hbase, hs.geometry (initMemory_accepted hmin hlen hbase).fresh.geo⟩
  constructor
  · intro hrun p hp
    apply refuses_of_unallocated
    rw [Bool.eq_false_iff]
    intro hal
    obtain ⟨hunit, hlt, hmark, -, -⟩ := unit_of_isAllocated (fun h0 => (hgeo hrun h0).2) hal
    have := (hmarked hrun).held _ hlt hmark
    rw [hunit, hp] at this
    exact absurd this (by simp)
  · intro hrun p hp
    apply refuses_of_unallocated
    rw [Bool.eq_false_iff]
    intro hal
    have hbase := (unit_of_isAllocated (fun h0 => (hgeo hrun h0).2) hal).2.2.2.2
    obtain ⟨hacc, hgeo⟩ := hgeo hrun hbase
    exact hp ((repInv_of_buddy_run hmin hlen hacc hrun).1.startsUsed hgeo hal)

/-- A cached block is refused, and so is the inside of an allocated one. -/
theorem bogus_free_rejected_cached :
    (∃ w, Run (fun w op => w.writes op = true) (Client.step buddyBook)
        (.start (initMemory 5 .zero 4096 4096 false fun _ => 0))
        [.allocate 10, .temporalAllocate 40, .write 4352 0 ⟨1, 2, 3, 4, 5⟩, .deallocate 4352] w ∧
      Refuses w.book 4352) ∧
      ∃ w, Run (fun w op => inPlace w op = true) (Client.step buddyBook)
          (.start (initMemory 5 .zero 4096 4096 false fun _ => 0))
          [.allocate 10, .temporalAllocate 40, .write 4352 0 ⟨1, 2, 3, 4, 5⟩, .deallocate 4352] w ∧
        isAllocated w.book 4224 = true ∧ Refuses w.book 4256 := by
  constructor
  · obtain ⟨w, hrun, hw⟩ := exists_run_of_exec (fun w op => w.writes op = true)
      (Client.step buddyBook) (s := .start (initMemory 5 .zero 4096 4096 false fun _ => 0))
      (l := [.allocate 10, .temporalAllocate 40, .write 4352 0 ⟨1, 2, 3, 4, 5⟩, .deallocate 4352])
      (P := fun w => w.held 4352 = none) (by decide +kernel)
    exact ⟨w, hrun, (bogus_free_rejected (by decide) (by decide)).1 hrun _ (of_decide_eq_true hw)⟩
  · obtain ⟨w, hrun, hw⟩ := exists_run_of_exec (fun w op => inPlace w op = true)
      (Client.step buddyBook) (s := .start (initMemory 5 .zero 4096 4096 false fun _ => 0))
      (l := [.allocate 10, .temporalAllocate 40, .write 4352 0 ⟨1, 2, 3, 4, 5⟩, .deallocate 4352])
      (P := fun w => isAllocated w.book 4224 = true ∧
        w.book.ctl.blockTags (w.book.ctl.tagIndex 4256) = 255) (by decide +kernel)
    obtain ⟨hal, htag⟩ := of_decide_eq_true hw
    exact ⟨w, hrun, hal, (bogus_free_rejected (by decide) (by decide)).2 hrun _
      fun hp => hp.tagged htag⟩

end AbcMalloc.Buddy
