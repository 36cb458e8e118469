import AbcMalloc.Tlsf.Runs

/-! Repeated deallocation. The header of a freed block keeps the flags it had when the block
is absorbed by a free predecessor, so a second deallocation is recognised exactly as long as
no deallocation merges backward. -/
namespace AbcMalloc.Tlsf
open Function Foundation

/-- `prev_phys->flags == __block_free`: the deallocation of `p` merges backward. -/
def mergesBackward (h : Heap) (p : ℕ) : Bool := h.mem.hi (h.mem.w1 (p - 32)) == blockFree

def Forward (w : Client Heap) (op : Op) : Prop :=
  Permitted w op ∧
    match op with
    | .deallocate p => mergesBackward w.book p = false
    | _ => True

instance (w : Client Heap) (op : Op) : Decidable (Forward w op) :=
  match op with
  | .deallocate _ => inferInstanceAs (Decidable (Permitted w _ ∧ _ = false))
  | .allocate _ => inferInstanceAs (Decidable (Permitted w _ ∧ True))
  | .temporalAllocate _ => inferInstanceAs (Decidable (Permitted w _ ∧ True))
  | .tombstone _ => inferInstanceAs (Decidable (Permitted w _ ∧ True))
  | .write .. => inferInstanceAs (Decidable (Permitted w _ ∧ True))

/-- The headers of freed pointers read as free and lie outside the blocks in use. -/
def Freed (w : Client Heap) (A : Blocks) : Prop :=
  ∀ {p}, w.freed p = true → p ≠ 0 ∧ w.book.mem.hi (p - 32) = blockFree ∧
    ∀ {a n f}, used A a = some (n, f) → p - 32 < a ∨ a + n ≤ p - 32

theorem freed_receive {w : Client Heap} {b sz p : ℕ} {h' : Heap} (hsz : 32 ≤ sz)
    (hp : (w.receive tlsfBook ⟨b + 32, sz - 32⟩ h').freed p = true) :
    w.freed p = true ∧ (p - 32 < b ∨ b + sz ≤ p - 32) := by
  have hc : b + 32 ≠ 0 := by omega
  obtain ⟨hp, hout⟩ := (Client.freed_receive (c := ⟨b + 32, sz - 32⟩) hc p).1 hp
  have hout : ¬(b + 32 - 32 ≤ p - 32 ∧ p - 32 < b + 32 + (sz - 32)) := hout
  exact ⟨hp, by omega⟩

theorem Effect.preserves_freed {w w' : Client Heap} {A A' : Blocks} {op : Op}
    (hG : Good w.book A) (hF : Freed w A) (h : Effect w A op w' A')
    (hfwd : ∀ p, op = .deallocate p → mergesBackward w.book p = false) : Freed w' A' := by
  cases h with
  | idle => exact hF
  | @take _ b sz f h' A' hT hG' hf hc =>
    intro p hp
    have hb' : used A' b = some (sz, f) := by rw [hT.used, update_self]
    have hsz := hG'.phys.size_ge (used_eq_some.1 hb').1
    obtain ⟨hp, hout⟩ := freed_receive (by omega) hp
    obtain ⟨h0, hhi, hcov⟩ := hF hp
    refine ⟨h0, hT.flags _ (by omega) hhi, fun {a n g} ha => ?_⟩
    rw [hT.used] at ha
    by_cases hab : a = b
    · subst hab
      simp only [update_self, Option.some.injEq, Prod.mk.injEq] at ha
      omega
    · rw [update_of_ne hab] at ha
      exact hcov ha
  | @reuse n i r b sz f h' hr hring hb hG' hm hc =>
    intro p hp
    have hsz := hG'.phys.size_ge (used_eq_some.1 hb).1
    obtain ⟨hp, -⟩ := freed_receive (by omega) hp
    obtain ⟨h0, hhi, hcov⟩ := hF hp
    refine ⟨h0, ?_, hcov⟩
    show h'.mem.hi (p - 32) = blockFree
    rw [hm, hhi]
  | @tombstone b n f h' hb hf hm hG' hc =>
    intro p hp
    obtain ⟨h0, hhi, hcov⟩ := hF hp
    have hn := hG.phys.size_ge (used_eq_some.1 hb).1
    have hpb := hcov hb
    refine ⟨h0, ?_, fun {a n' g} ha => ?_⟩
    · show h'.mem.hi (p - 32) = blockFree
      rw [hm, Mem.setHi_hi, update_of_ne (by omega), hhi]
    · rw [used_update, usedEntry_flags (by decide)] at ha
      by_cases hab : a = b
      · subst hab
        simp only [update_self, Option.some.injEq, Prod.mk.injEq] at ha
        omega
      · rw [update_of_ne hab] at ha
        exact hcov ha
  | @deallocate b n f r h' A' hb hR hG' hc =>
    have hfwd := hfwd _ rfl
    simp only [mergesBackward, Nat.add_sub_cancel, beq_eq_false_iff_ne] at hfwd
    have hr : r = b := by
      rcases hR.root with hr | ⟨hr, hfree⟩
      · exact hr
      · exact absurd (hr ▸ hfree) hfwd
    subst hr
    have hA := (used_eq_some.1 hb).1
    intro p hp
    have hout : ∀ {a j g}, used A' a = some (j, g) → a ≠ r ∧ used A a = some (j, g) := by
      intro a j g ha
      rw [hR.used] at ha
      have har : a ≠ r := by
        rintro rfl
        simp at ha
      rw [update_of_ne har] at ha
      exact ⟨har, ha⟩
    have hhi : h'.mem.hi = update w.book.mem.hi r blockFree := hR.flags
    by_cases hpr : p = r + 32
    · subst hpr
      refine ⟨by omega, ?_, fun {a j g} ha => ?_⟩
      · show h'.mem.hi (r + 32 - 32) = blockFree
        rw [hhi, Nat.add_sub_cancel, update_self]
      · obtain ⟨har, ha⟩ := hout ha
        have hd := hG.phys.tiles.disjoint hA (used_eq_some.1 ha).1 (Ne.symm har)
        have hpos := hG.phys.size_ge hA
        omega
    · simp only [update_of_ne hpr] at hp
      obtain ⟨h0, hfree, hcov⟩ := hF hp
      refine ⟨h0, ?_, fun ha => hcov (hout ha).2⟩
      show h'.mem.hi (p - 32) = blockFree
      rw [hhi, update_apply]
      split_ifs
      · rfl
      · exact hfree
  | @write p i x c hx hG' =>
    intro p hp
    obtain ⟨h0, hfree, hcov⟩ := hF hp
    obtain ⟨a, n, f, ha, h₁, h₂⟩ := hx
    have hpa := hcov ha
    refine ⟨h0, ?_, hcov⟩
    show update w.book.mem.hi x c.hi (p - 32) = blockFree
    rw [update_of_ne (by omega), hfree]

theorem rejects_of_free {h : Heap} {p : ℕ} (hp : p ≠ 0) (hb : h.ctl.base ≠ 0)
    (hfree : h.mem.hi (p - 32) = blockFree) :
    isAllocated h p = false ∧ deallocate h p = (.invalid, h) := by
  constructor
  · simp [isAllocated, hfree]
  · have hpre : ¬(p = 0 ∨ h.ctl.base = 0) := by
      rintro (h0 | h0)
      · exact hp h0
      · exact hb h0
    simp only [deallocate, if_neg hpre, if_pos hfree]

/-- A second deallocation is rejected and changes nothing, in every state of a run whose
deallocations do not merge backward. -/
theorem double_free_rejected {m : Mem} {ptr len : ℕ} {ops : List Op} {w : Client Heap}
    (hlen : ptr + len ≤ 2 ^ 64) (hacc : (initMemory m ptr len).ctl.base ≠ 0)
    (hrun : Run Forward (Client.step tlsfBook) (.start (initMemory m ptr len)) ops w) :
    ∀ p, w.freed p = true →
      isAllocated w.book p = false ∧ deallocate w.book p = (.invalid, w.book) := by
  have hinv : ∃ A, Good w.book A ∧ Held w A ∧ Freed w A := by
    refine hrun.invariant (fun w => ∃ A, Good w.book A ∧ Held w A ∧ Freed w A) ?_
      ⟨_, initMemory_good hlen hacc, fun hp => by simp [Client.start] at hp,
        fun hp => by simp [Client.start] at hp⟩
    rintro w op w' ⟨A, hG, hH, hF⟩ ⟨⟨hlegal, hfit, hring⟩, hfwd⟩ hstep
    obtain ⟨w'', A', hstep', heff⟩ := step_effect hG hH hlegal hfit hring
    rw [hstep, Option.some.injEq] at hstep'
    subst hstep'
    obtain ⟨hG', hH'⟩ := heff.preserves hG hH
    refine ⟨A', hG', hH', heff.preserves_freed hG hF ?_⟩
    rintro p rfl
    exact hfwd
  obtain ⟨A, hG, -, hF⟩ := hinv
  intro p hp
  obtain ⟨h0, hfree, -⟩ := hF hp
  exact rejects_of_free h0 hG.base_ne_zero hfree

/-- Two blocks freed from the back, with a third in use behind them. -/
theorem double_free_rejected_from_back : ∃ w, Run Forward (Client.step tlsfBook)
    (.start (initMemory .zero 4096 1024))
    [.allocate 10, .temporalAllocate 40, .allocate 10, .deallocate 4256, .deallocate 4160] w ∧
    w.freed 4160 = true ∧ w.freed 4256 = true ∧
    deallocate w.book 4256 = (.invalid, w.book) ∧ isAllocated w.book 4160 = false := by
  obtain ⟨w, hrun, hw⟩ := exists_run_of_exec Forward (Client.step tlsfBook)
    (s := .start (initMemory .zero 4096 1024)) (P := fun w => w.freed 4160 && w.freed 4256)
    (l := [.allocate 10, .temporalAllocate 40, .allocate 10, .deallocate 4256, .deallocate 4160])
    (by decide +kernel)
  simp only [Bool.and_eq_true] at hw
  have h := double_free_rejected (by decide) (by decide +kernel) hrun
  exact ⟨w, hrun, hw.1, hw.2, (h 4256 hw.2).2, (h 4160 hw.1).1⟩

/-- Freeing the second of two neighbours after the first merges backward and leaves its
header as it was: the pointer still reads as allocated and its second deallocation goes
through. -/
theorem double_free_accepted : ∃ ops w, 
    Run (fun w op => w.wellLive op = true ∧ belowPool w op = true) (Client.step tlsfBook)
      (.start (initMemory .zero 4096 1024)) ops w ∧
    w.freed 4256 = true ∧ isAllocated w.book 4256 = true ∧ (deallocate w.book 4256).1 = .ok := by
  obtain ⟨w, hrun, hw⟩ := exists_run_of_exec
    (fun w op => w.wellLive op = true ∧ belowPool w op = true)
    (Client.step tlsfBook) (s := .start (initMemory .zero 4096 1024))
    (l := [.allocate 10, .allocate 10, .deallocate 4160, .deallocate 4256])
    (P := fun w => w.freed 4256 && isAllocated w.book 4256 && ((deallocate w.book 4256).1 == .ok))
    (by decide +kernel)
  simp only [Bool.and_eq_true, beq_iff_eq] at hw
  exact ⟨_, w, hrun, hw.1.1, hw.1.2, hw.2⟩

end AbcMalloc.Tlsf
