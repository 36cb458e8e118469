import AbcMalloc.Buddy.Contents
import AbcMalloc.Tlsf.Contents

/-! Byte accounting, tombstones and contents of the two lists. Both refine a ledger, so what holds
of every book holds of them. -/
namespace AbcMalloc
open Foundation

/-- Sums over blocks by their flags are the two weights of the ledger. -/
theorem liveWeight_eq {n f : ℕ} (hf : IsKind f) :
    liveWeight (n, f) = if Tlsf.isLiveFlags f then n else 0 := by
  rcases hf with rfl | rfl | rfl <;> rfl

theorem tombWeight_eq {n f : ℕ} (hf : IsKind f) :
    tombWeight (n, f) = if Tlsf.isTombFlags f then n else 0 := by
  rcases hf with rfl | rfl | rfl <;> rfl

/-- The two counters are the sums of the block sizes, so that they never wrap, as long as
no tombstoned block is deallocated. -/
theorem counters_eq_sums (m : Mem) (ptr len : ℕ) (ops : List Op) :
    (∀ {w : Client Tlsf.Heap}, ptr + len ≤ 2 ^ 64 →
      (Tlsf.initMemory m ptr len).ctl.base ≠ 0 →
      Run (Accountable Tlsf.tlsfBook Tlsf.fitsRequest) (Client.step Tlsf.tlsfBook)
        (.start (Tlsf.initMemory m ptr len)) ops w →
      w.book.ctl.allocatedBytes = Tlsf.sumBlocks w.book Tlsf.isLiveFlags ∧
        w.book.ctl.tombstonedBytes = Tlsf.sumBlocks w.book Tlsf.isTombFlags ∧
        w.book.ctl.allocatedBytes + w.book.ctl.tombstonedBytes ≤ w.book.ctl.total) ∧
      ∀ {minLog : ℕ} {ext : Bool} {tags : ℕ → ℕ} {w : Client Buddy.Heap}, 5 ≤ minLog →
        ptr + len < 2 ^ 64 →
        (Buddy.initMemory minLog m ptr len ext tags).ctl.base ≠ 0 →
        Run (Accountable Buddy.buddyBook fun _ => true) (Client.step Buddy.buddyBook)
          (.start (Buddy.initMemory minLog m ptr len ext tags)) ops w →
        w.book.ctl.allocatedBytes = Buddy.sumBlocks w.book Tlsf.isLiveFlags ∧
          w.book.ctl.tombstonedBytes = Buddy.sumBlocks w.book Tlsf.isTombFlags ∧
          w.book.ctl.allocatedBytes + w.book.ctl.tombstonedBytes ≤ w.book.ctl.total := by
  constructor
  · intro w hlen hacc hrun
    obtain ⟨L, hrep, hbal, -⟩ := Tlsf.initMemory_rep (m := m) hlen hacc
    obtain ⟨L', ⟨A, hG, rfl⟩, hbal'⟩ := Tlsf.tlsf_refines.run_balanced hrep hbal hrun
    have hle := hG.ledger_valid.mass_le
    rw [← hbal'.1, ← hbal'.2] at hle
    refine ⟨?_, ?_, ?_⟩
    · rw [hG.sumBlocks_eq Tlsf.isLiveFlags liveWeight rfl liveWeight_eq]
      exact hbal'.1
    · rw [hG.sumBlocks_eq Tlsf.isTombFlags tombWeight rfl tombWeight_eq]
      exact hbal'.2
    · have hspan : w.book.ctl.endSentinel - (w.book.ctl.base + 32) = w.book.ctl.total := by
        unfold Tlsf.TlsfList.endSentinel
        omega
      exact hspan ▸ hle
  · intro minLog ext tags w hmin hlen hacc hrun
    obtain ⟨L, hrep, hbal, -⟩ := Buddy.initMemory_rep hmin hlen hacc
    obtain ⟨L', ⟨A, hG, rfl⟩, hbal'⟩ := Buddy.buddy_refines.run_balanced hrep hbal hrun
    have hle := hG.ledger_valid.mass_le
    rw [← hbal'.1, ← hbal'.2] at hle
    refine ⟨?_, ?_, ?_⟩
    · rw [hG.sumBlocks_eq Tlsf.isLiveFlags liveWeight liveWeight_eq]
      exact hbal'.1
    · rw [hG.sumBlocks_eq Tlsf.isTombFlags tombWeight tombWeight_eq]
      exact hbal'.2
    · have hlim := hG.limit_le
      refine hle.trans ?_
      show w.book.ctl.limit - w.book.ctl.base ≤ w.book.ctl.total
      omega

theorem counters_eq_sums_churn :
    (∃ w, Run (Accountable Tlsf.tlsfBook Tlsf.fitsRequest) (Client.step Tlsf.tlsfBook)
        (.start (Tlsf.initMemory .zero 4096 1024))
        [.allocate 10, .temporalAllocate 40, .tombstone 4160, .deallocate 4256] w ∧
      w.book.ctl.tombstonedBytes = 96 ∧
      w.book.ctl.tombstonedBytes = Tlsf.sumBlocks w.book Tlsf.isTombFlags) ∧
      ∃ w, Run (Accountable Buddy.buddyBook fun _ => true) (Client.step Buddy.buddyBook)
          (.start (Buddy.initMemory 5 .zero 4096 4096 false fun _ => 0))
          [.allocate 10, .temporalAllocate 40, .tombstone 4224, .deallocate 4352] w ∧
        w.book.ctl.tombstonedBytes = 64 ∧
        w.book.ctl.tombstonedBytes = Buddy.sumBlocks w.book Tlsf.isTombFlags := by
  constructor
  · obtain ⟨w, hrun, hw⟩ := exists_run_of_exec
      (Accountable Tlsf.tlsfBook Tlsf.fitsRequest) (Client.step Tlsf.tlsfBook)
      (s := .start (Tlsf.initMemory .zero 4096 1024))
      (l := [.allocate 10, .temporalAllocate 40, .tombstone 4160, .deallocate 4256])
      (P := fun w => w.book.ctl.tombstonedBytes = 96) (by decide +kernel)
    exact ⟨w, hrun, of_decide_eq_true hw,
      ((counters_eq_sums _ _ _ _).1 (by decide) (by decide +kernel) hrun).2.1⟩
  · obtain ⟨w, hrun, hw⟩ := exists_run_of_exec
      (Accountable Buddy.buddyBook fun _ => true) (Client.step Buddy.buddyBook)
      (s := .start (Buddy.initMemory 5 .zero 4096 4096 false fun _ => 0))
      (l := [.allocate 10, .temporalAllocate 40, .tombstone 4224, .deallocate 4352])
      (P := fun w => w.book.ctl.tombstonedBytes = 64) (by decide +kernel)
    exact ⟨w, hrun, of_decide_eq_true hw,
      ((counters_eq_sums _ _ _ _).2 (by decide) (by decide) (by decide +kernel) hrun).2.1⟩

/-- Deallocating a tombstoned block subtracts its size from the allocated bytes a second
time, and the counter wraps. -/
theorem counter_wraps_after_tombstone :
    (∃ ops w, Run (fun w op => w.wellHeld op = true) (Client.step Tlsf.tlsfBook)
        (.start (Tlsf.initMemory .zero 4096 1024)) ops w ∧
      w.book.ctl.allocatedBytes ≠ Tlsf.sumBlocks w.book Tlsf.isLiveFlags ∧
      w.book.ctl.allocatedBytes = 2 ^ 64 - 96) ∧
      ∃ ops w, Run (fun w op => w.wellHeld op = true) (Client.step Buddy.buddyBook)
          (.start (Buddy.initMemory 5 .zero 4096 4096 false fun _ => 0)) ops w ∧
        w.book.ctl.allocatedBytes ≠ Buddy.sumBlocks w.book Tlsf.isLiveFlags ∧
        w.book.ctl.allocatedBytes = 2 ^ 64 - 64 := by
  constructor
  · obtain ⟨w, hrun, hw⟩ := exists_run_of_exec (fun w op => w.wellHeld op = true)
      (Client.step Tlsf.tlsfBook) (s := .start (Tlsf.initMemory .zero 4096 1024))
      (l := [.allocate 10, .tombstone 4160, .deallocate 4160])
      (P := fun w => w.book.ctl.allocatedBytes ≠ Tlsf.sumBlocks w.book Tlsf.isLiveFlags ∧
        w.book.ctl.allocatedBytes = 2 ^ 64 - 96) (by decide +kernel)
    exact ⟨_, w, hrun, of_decide_eq_true hw⟩
  · obtain ⟨w, hrun, hw⟩ := exists_run_of_exec (fun w op => w.wellHeld op = true)
      (Client.step Buddy.buddyBook)
      (s := .start (Buddy.initMemory 5 .zero 4096 4096 false fun _ => 0))
      (l := [.allocate 10, .tombstone 4224, .deallocate 4224])
      (P := fun w => w.book.ctl.allocatedBytes ≠ Buddy.sumBlocks w.book Tlsf.isLiveFlags ∧
        w.book.ctl.allocatedBytes = 2 ^ 64 - 64) (by decide +kernel)
    exact ⟨_, w, hrun, of_decide_eq_true hw⟩

/-! ## Tombstoned memory -/

/-- As long as no temporal block is tombstoned, no chunk returned after a tombstone overlaps
the tombstoned block. -/
theorem graves_never_returned (m : Mem) (ptr len : ℕ) (ops : List Op) :
    (∀ {w : Client Tlsf.Heap}, ptr + len ≤ 2 ^ 64 →
      (Tlsf.initMemory m ptr len).ctl.base ≠ 0 →
      Run (Burying Tlsf.tlsfBook Tlsf.fitsRequest) (Client.step Tlsf.tlsfBook)
        (.start (Tlsf.initMemory m ptr len)) ops w →
      ∀ {u : ℕ} {c : Chunk} {h : Tlsf.Heap}, Tlsf.fitsRequest u = true →
      (Tlsf.allocate w.book u = some (c, h) ∨ Tlsf.temporalAllocate w.book u = some (c, h)) →
      c.ptr ≠ 0 → ∀ g ∈ w.graves, c.ptr + c.len ≤ g.1 ∨ g.1 + g.2 ≤ c.ptr) ∧
      ∀ {minLog : ℕ} {ext : Bool} {tags : ℕ → ℕ} {w : Client Buddy.Heap}, 5 ≤ minLog →
        ptr + len < 2 ^ 64 →
        (Buddy.initMemory minLog m ptr len ext tags).ctl.base ≠ 0 →
        Run (Burying Buddy.buddyBook fun _ => true) (Client.step Buddy.buddyBook)
          (.start (Buddy.initMemory minLog m ptr len ext tags)) ops w →
        ∀ {u : ℕ} {c : Chunk} {h : Buddy.Heap},
        (Buddy.allocate w.book u = some (c, h) ∨ Buddy.temporalAllocate w.book u = some (c, h)) →
        c.ptr ≠ 0 → ∀ g ∈ w.graves, c.ptr + c.len ≤ g.1 ∨ g.1 + g.2 ≤ c.ptr := by
  constructor
  · intro w hlen hacc hrun u c h hu hc hc0
    obtain ⟨L, hrep, -, hring⟩ := Tlsf.initMemory_rep (m := m) hlen hacc
    exact Tlsf.tlsf_refines.run_sealed hrep hring hrun hu hc hc0
  · intro minLog ext tags w hmin hlen hacc hrun u c h hc hc0
    obtain ⟨L, hrep, -, hring⟩ := Buddy.initMemory_rep hmin hlen hacc
    exact Buddy.buddy_refines.run_sealed hrep hring hrun rfl hc hc0

/-- Runs of both lists with a tombstone, followed by a request of the same size. -/
theorem graves_never_returned_same_size :
    (∃ w c h, Run (Burying Tlsf.tlsfBook Tlsf.fitsRequest) (Client.step Tlsf.tlsfBook)
        (.start (Tlsf.initMemory .zero 4096 1024))
        [.allocate 40, .temporalAllocate 40, .tombstone 4160] w ∧
      Tlsf.allocate w.book 40 = some (c, h) ∧ w.graves = [(4128, 128)] ∧
      (c.ptr + c.len ≤ 4128 ∨ 4128 + 128 ≤ c.ptr)) ∧
      ∃ w c h, Run (Burying Buddy.buddyBook fun _ => true) (Client.step Buddy.buddyBook)
          (.start (Buddy.initMemory 5 .zero 4096 4096 false fun _ => 0))
          [.allocate 40, .temporalAllocate 40, .tombstone 4224] w ∧
        Buddy.allocate w.book 40 = some (c, h) ∧ w.graves = [(4224, 128)] ∧
        (c.ptr + c.len ≤ 4224 ∨ 4224 + 128 ≤ c.ptr) := by
  constructor
  · obtain ⟨w, hrun, hw⟩ := exists_run_of_exec
      (Burying Tlsf.tlsfBook Tlsf.fitsRequest) (Client.step Tlsf.tlsfBook)
      (s := .start (Tlsf.initMemory .zero 4096 1024))
      (l := [.allocate 40, .temporalAllocate 40, .tombstone 4160])
      (P := fun w => w.graves = [(4128, 128)] ∧
        (Tlsf.allocate w.book 40).any (fun r => r.1.ptr ≠ 0) = true) (by decide +kernel)
    obtain ⟨hg, hal⟩ := of_decide_eq_true hw
    obtain ⟨⟨c, h⟩, hc, hc0⟩ := Option.any_eq_true _ _ |>.1 hal
    exact ⟨w, c, h, hrun, hc, hg,
      (graves_never_returned _ _ _ _).1 (by decide) (by decide +kernel) hrun
      (u := 40) (by decide) (Or.inl hc) (of_decide_eq_true hc0) (4128, 128) (by simp [hg])⟩
  · obtain ⟨w, hrun, hw⟩ := exists_run_of_exec
      (Burying Buddy.buddyBook fun _ => true) (Client.step Buddy.buddyBook)
      (s := .start (Buddy.initMemory 5 .zero 4096 4096 false fun _ => 0))
      (l := [.allocate 40, .temporalAllocate 40, .tombstone 4224])
      (P := fun w => w.graves = [(4224, 128)] ∧
        (Buddy.allocate w.book 40).any (fun r => r.1.ptr ≠ 0) = true) (by decide +kernel)
    obtain ⟨hg, hal⟩ := of_decide_eq_true hw
    obtain ⟨⟨c, h⟩, hc, hc0⟩ := Option.any_eq_true _ _ |>.1 hal
    exact ⟨w, c, h, hrun, hc, hg,
      (graves_never_returned _ _ _ _).2 (by decide) (by decide) (by decide +kernel)
      hrun (u := 40) (Or.inl hc) (of_decide_eq_true hc0) (4224, 128) (by simp [hg])⟩

/-- A tombstoned temporal block is handed out again by the next temporal request. -/
theorem grave_returned_from_ring :
    (∃ ops w c h, Run (fun w op => w.wellLive op = true) (Client.step Tlsf.tlsfBook)
        (.start (Tlsf.initMemory .zero 4096 1024)) ops w ∧
      Tlsf.temporalAllocate w.book 40 = some (c, h) ∧ c = ⟨4160, 96⟩ ∧ w.graves = [(4128, 128)]) ∧
      ∃ ops w c h, Run (fun w op => w.wellLive op = true) (Client.step Buddy.buddyBook)
          (.start (Buddy.initMemory 5 .zero 4096 4096 false fun _ => 0)) ops w ∧
        Buddy.temporalAllocate w.book 40 = some (c, h) ∧ c = ⟨4224, 96⟩ ∧
        w.graves = [(4224, 128)] := by
  constructor
  · obtain ⟨w, hrun, hw⟩ := exists_run_of_exec (fun w op => w.wellLive op = true)
      (Client.step Tlsf.tlsfBook) (s := .start (Tlsf.initMemory .zero 4096 1024))
      (l := [.temporalAllocate 40, .tombstone 4160])
      (P := fun w => w.graves = [(4128, 128)] ∧
        (Tlsf.temporalAllocate w.book 40).any (fun r => r.1 = ⟨4160, 96⟩) = true)
      (by decide +kernel)
    obtain ⟨hg, hal⟩ := of_decide_eq_true hw
    obtain ⟨⟨c, h⟩, hc, hc0⟩ := Option.any_eq_true _ _ |>.1 hal
    exact ⟨_, w, c, h, hrun, hc, of_decide_eq_true hc0, hg⟩
  · obtain ⟨w, hrun, hw⟩ := exists_run_of_exec (fun w op => w.wellLive op = true)
      (Client.step Buddy.buddyBook)
      (s := .start (Buddy.initMemory 5 .zero 4096 4096 false fun _ => 0))
      (l := [.temporalAllocate 40, .tombstone 4224])
      (P := fun w => w.graves = [(4224, 128)] ∧
        (Buddy.temporalAllocate w.book 40).any (fun r => r.1 = ⟨4224, 96⟩) = true)
      (by decide +kernel)
    obtain ⟨hg, hal⟩ := of_decide_eq_true hw
    obtain ⟨⟨c, h⟩, hc, hc0⟩ := Option.any_eq_true _ _ |>.1 hal
    exact ⟨_, w, c, h, hrun, hc, of_decide_eq_true hc0, hg⟩

/-- A client of either list that leaves tombstoned blocks alone reads what it wrote, for as long as
it holds the chunk: no operation on other blocks writes into it. -/
theorem books_read_back (m : Mem) (ptr len : ℕ) (ops : List Op) :
    (∀ {r : Reader Tlsf.Heap}, ptr + len ≤ 2 ^ 64 →
      (Tlsf.initMemory m ptr len).ctl.base ≠ 0 →
      Run (fun r op => Accountable Tlsf.tlsfBook Tlsf.fitsRequest r.client op)
        (Reader.step Tlsf.tlsfBook) (.start (Tlsf.initMemory m ptr len)) ops r →
      r.ReadsBack fun h => h.mem.cell) ∧
      ∀ {minLog : ℕ} {ext : Bool} {tags : ℕ → ℕ} {r : Reader Buddy.Heap}, 5 ≤ minLog →
        ptr + len < 2 ^ 64 →
        (Buddy.initMemory minLog m ptr len ext tags).ctl.base ≠ 0 →
        Run (fun r op => Accountable Buddy.buddyBook (fun _ => true) r.client op)
          (Reader.step Buddy.buddyBook)
          (.start (Buddy.initMemory minLog m ptr len ext tags)) ops r →
        r.ReadsBack fun h => h.mem.cell := by
  constructor
  · intro r hlen hacc hrun
    obtain ⟨L, hrep, -, -⟩ := Tlsf.initMemory_rep (m := m) hlen hacc
    exact Tlsf.tlsf_preserves.run_reads_back Tlsf.tlsf_refines hrep hrun
  · intro minLog ext tags r hmin hlen hacc hrun
    obtain ⟨L, hrep, -, -⟩ := Buddy.initMemory_rep (m := m) hmin hlen hacc
    exact Buddy.buddy_preserves.run_reads_back Buddy.buddy_refines hrep hrun

theorem books_read_back_churn :
    (∃ r, Run (fun r op => Accountable Tlsf.tlsfBook Tlsf.fitsRequest r.client op)
        (Reader.step Tlsf.tlsfBook) (.start (Tlsf.initMemory .zero 4096 1024))
        [.allocate 10, .allocate 40, .allocate 10, .write 4256 1 ⟨1, 2, 3, 4, 5⟩, .deallocate 4160,
          .tombstone 4384] r ∧
      r.client.book.mem.cell (4256 + 32 * 1) = ⟨1, 2, 3, 4, 5⟩) ∧
      ∃ r, Run (fun r op => Accountable Buddy.buddyBook (fun _ => true) r.client op)
          (Reader.step Buddy.buddyBook)
          (.start (Buddy.initMemory 5 .zero 4096 4096 false fun _ => 0))
          [.allocate 10, .allocate 40, .write 4352 1 ⟨1, 2, 3, 4, 5⟩, .deallocate 4224] r ∧
        r.client.book.mem.cell (4352 + 32 * 1) = ⟨1, 2, 3, 4, 5⟩ := by
  constructor
  · obtain ⟨r, hrun, hr⟩ := exists_run_of_exec
      (fun r op => Accountable Tlsf.tlsfBook Tlsf.fitsRequest r.client op)
      (Reader.step Tlsf.tlsfBook) (s := .start (Tlsf.initMemory .zero 4096 1024))
      (l := [.allocate 10, .allocate 40, .allocate 10, .write 4256 1 ⟨1, 2, 3, 4, 5⟩,
        .deallocate 4160, .tombstone 4384])
      (P := fun r => r.client.held 4256 = some 96 ∧ r.notes 4256 1 = some ⟨1, 2, 3, 4, 5⟩)
      (by decide +kernel)
    obtain ⟨hheld, hnote⟩ := of_decide_eq_true hr
    have hread := (books_read_back _ _ _ _).1 (by decide) (by decide +kernel) hrun
    exact ⟨r, hrun, (hread _ _ _ _ hheld hnote).2⟩
  · obtain ⟨r, hrun, hr⟩ := exists_run_of_exec
      (fun r op => Accountable Buddy.buddyBook (fun _ => true) r.client op)
      (Reader.step Buddy.buddyBook)
      (s := .start (Buddy.initMemory 5 .zero 4096 4096 false fun _ => 0))
      (l := [.allocate 10, .allocate 40, .write 4352 1 ⟨1, 2, 3, 4, 5⟩, .deallocate 4224])
      (P := fun r => r.client.held 4352 = some 96 ∧ r.notes 4352 1 = some ⟨1, 2, 3, 4, 5⟩)
      (by decide +kernel)
    obtain ⟨hheld, hnote⟩ := of_decide_eq_true hr
    have hread := (books_read_back _ _ _ _).2 (by decide) (by decide) (by decide +kernel) hrun
    exact ⟨r, hrun, (hread _ _ _ _ hheld hnote).2⟩

end AbcMalloc
