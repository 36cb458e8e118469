import AbcMalloc.Buddy.Reuse
import AbcMalloc.Tlsf.Reuse

/-! Temporal requests of both lists: when a ring block serves another request than the one it was
cut for. -/
namespace AbcMalloc
open Foundation

/-- In every state of a run of either list, a temporal request of any size is answered with a chunk
that is long enough and lies in an allocated block, exactly if the ring of its class is empty or
its next block is not tombstoned and, on `__tlsf_list`, within the slack of the request. -/
theorem temporal_serves_iff (m : Mem) (ptr len : ℕ) (ops : List Op) :
    (∀ {w : Client Tlsf.Heap}, ptr + len ≤ 2 ^ 64 →
      (Tlsf.initMemory m ptr len).ctl.base ≠ 0 →
      Run Tlsf.Permitted (Client.step Tlsf.tlsfBook) (.start (Tlsf.initMemory m ptr len)) ops w →
      ∀ n, Tlsf.Serves w.book n ↔ Tlsf.ringSuits w.book n = true) ∧
      ∀ {minLog : ℕ} {ext : Bool} {tags : ℕ → ℕ} {w : Client Buddy.Heap}, 5 ≤ minLog →
        ptr + len < 2 ^ 64 →
        (Buddy.initMemory minLog m ptr len ext tags).ctl.base ≠ 0 →
        Run Buddy.Permitted (Client.step Buddy.buddyBook)
          (.start (Buddy.initMemory minLog m ptr len ext tags)) ops w →
        ∀ n, Buddy.Serves w.book n ↔ Buddy.ringSuits w.book n = true :=
  ⟨fun hlen hacc hrun n => Tlsf.serves_iff_of_run hlen hacc hrun n,
    fun hmin hlen hacc hrun n => Buddy.serves_iff_of_run hmin hlen hacc hrun n⟩

/-- A ring block of each list that serves a second request of another size. -/
theorem temporal_serves_second :
    (∃ w, Run Tlsf.Permitted (Client.step Tlsf.tlsfBook) (.start (Tlsf.initMemory .zero 4096 8192))
        [.temporalAllocate 1990, .allocate 10] w ∧ Tlsf.Serves w.book 1995) ∧
      ∃ w, Run Buddy.Permitted (Client.step Buddy.buddyBook)
          (.start (Buddy.initMemory 5 .zero 4096 4096 false fun _ => 0))
          [.temporalAllocate 40, .allocate 10] w ∧ Buddy.Serves w.book 60 := by
  constructor
  · obtain ⟨w, hrun, hw⟩ := exists_run_of_exec Tlsf.Permitted (Client.step Tlsf.tlsfBook)
      (s := .start (Tlsf.initMemory .zero 4096 8192)) (l := [.temporalAllocate 1990, .allocate 10])
      (P := fun w => Tlsf.ringBlock w.book.ctl 1995 ≠ 0 && Tlsf.ringSuits w.book 1995)
      (by decide +kernel)
    simp only [Bool.and_eq_true] at hw
    exact ⟨w, hrun,
      ((temporal_serves_iff _ _ _ _).1 (by decide) (by decide +kernel) hrun 1995).2 hw.2⟩
  · obtain ⟨w, hrun, hw⟩ := exists_run_of_exec Buddy.Permitted (Client.step Buddy.buddyBook)
      (s := .start (Buddy.initMemory 5 .zero 4096 4096 false fun _ => 0))
      (l := [.temporalAllocate 40, .allocate 10])
      (P := fun w => Buddy.activeBlock w.book.ctl 60 ≠ 0 && Buddy.ringSuits w.book 60)
      (by decide +kernel)
    simp only [Bool.and_eq_true] at hw
    exact ⟨w, hrun,
      ((temporal_serves_iff _ _ _ _).2 (by decide) (by decide) (by decide +kernel) hrun 60).2 hw.2⟩

/-- A block cut for 1990 bytes is handed to a request of 2100 bytes, whose search class is the
same. -/
theorem temporal_underserves : ¬∀ (m : Mem) (ptr len : ℕ) (ops : List Op) (w : Client Tlsf.Heap),
    ptr + len ≤ 2 ^ 64 → (Tlsf.initMemory m ptr len).ctl.base ≠ 0 →
    Run (fun w op => w.wellLive op = true) (Client.step Tlsf.tlsfBook)
      (.start (Tlsf.initMemory m ptr len)) ops w → ∀ n, Tlsf.Serves w.book n := by
  intro hall
  obtain ⟨w, hrun, hw⟩ := exists_run_of_exec (fun w op => w.wellLive op = true)
    (Client.step Tlsf.tlsfBook) (s := .start (Tlsf.initMemory .zero 4096 8192))
    (l := [.temporalAllocate 1990])
    (P := fun w => (Tlsf.temporalAllocate w.book 2100).any fun r => r.1 = ⟨4160, 2048⟩)
    (by decide +kernel)
  obtain ⟨⟨c, h⟩, hc, hval⟩ := Option.any_eq_true _ _ |>.1 hw
  obtain rfl : c = ⟨4160, 2048⟩ := of_decide_eq_true hval
  have hlen := (hall .zero 4096 8192 _ w (by decide) (by decide +kernel) hrun 2100 _ h hc
    (by decide)).1
  exact absurd hlen (by decide)

end AbcMalloc
