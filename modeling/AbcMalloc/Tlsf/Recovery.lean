import AbcMalloc.Tlsf.Complete

/-! Runs of `__tlsf_list`: which requests are served in any state, and what is left once every
block was freed. -/
namespace AbcMalloc.Tlsf
open Function Foundation

/-! ## The bounds of the pool are fixed -/

structure SameBounds (s s' : TlsfList) : Prop where
  base : s'.base = s.base
  total : s'.total = s.total
  flCount : s'.flCount = s.flCount

namespace SameBounds
variable {s s' s'' : TlsfList}

theorem refl (s : TlsfList) : SameBounds s s := ⟨rfl, rfl, rfl⟩

theorem trans (h : SameBounds s s') (h' : SameBounds s' s'') : SameBounds s s'' :=
  ⟨h'.base.trans h.base, h'.total.trans h.total, h'.flCount.trans h.flCount⟩

end SameBounds

theorem SameBook.bounds {s s' : TlsfList} (h : SameBook s s') : SameBounds s s' := by
  obtain ⟨_, _, _, rfl⟩ := h
  exact ⟨rfl, rfl, rfl⟩

section Bounds
variable {h h' : Heap} {b : ℕ} {c : Chunk}

theorem takeHead_bounds {fi si : ℕ} (hrun : takeHead h fi si = some (b, h')) :
    SameBounds h.ctl h'.ctl := by
  unfold takeHead clearBits at hrun
  dsimp only at hrun
  split_ifs at hrun <;>
    (simp only [Option.some.injEq, Prod.mk.injEq] at hrun
     rw [← hrun.2]
     exact ⟨rfl, rfl, rfl⟩)

theorem findFree_bounds {q : ℕ} (hrun : findFree h q = some (b, h')) :
    SameBounds h.ctl h'.ctl := by
  have hsame : ∀ {x : ℕ}, some (x, h) = some (b, h') → SameBounds h.ctl h'.ctl := by
    intro x he
    simp only [Option.some.injEq, Prod.mk.injEq] at he
    rw [← he.2]
    exact .refl _
  unfold findFree at hrun
  dsimp only at hrun
  split_ifs at hrun
  · exact hsame hrun
  · exact takeHead_bounds hrun
  · exact hsame hrun
  · exact takeHead_bounds hrun

theorem trySplit_bounds {q : ℕ} (hrun : trySplit h b q = some h') : SameBounds h.ctl h'.ctl := by
  unfold trySplit at hrun
  dsimp only at hrun
  split_ifs at hrun <;>
    (simp only [Option.some.injEq] at hrun
     rw [← hrun])
  · exact .refl _
  · exact ⟨rfl, rfl, rfl⟩

theorem allocate_bounds {u : ℕ} (hrun : allocate h u = some (c, h')) : SameBounds h.ctl h'.ctl := by
  unfold allocate at hrun
  dsimp only at hrun
  split_ifs at hrun
  · simp only [Option.some.injEq, Prod.mk.injEq] at hrun
    rw [← hrun.2]
    exact .refl _
  · simp only [Option.some.injEq, Prod.mk.injEq] at hrun
    rw [← hrun.2]
    exact .refl _
  · obtain ⟨⟨b, h₁⟩, hfind, hrun⟩ := Option.bind_eq_some_iff.1 hrun
    dsimp only at hrun
    split_ifs at hrun
    · simp only [Option.some.injEq, Prod.mk.injEq] at hrun
      rw [← hrun.2]
      exact findFree_bounds hfind
    · obtain ⟨h₂, hsplit, hrun⟩ := Option.bind_eq_some_iff.1 hrun
      simp only [Option.some.injEq] at hrun
      have hout : h' = (handOut h₂ b blockAlloc).2 := (congrArg Prod.snd hrun).symm
      rw [hout]
      exact ((findFree_bounds hfind).trans (trySplit_bounds hsplit)).trans ⟨rfl, rfl, rfl⟩

theorem ringInstall_bounds (s : TlsfList) (i : ℤ × ℕ) (b : ℕ) : SameBounds s
    (ringInstall s i b) := by
  unfold ringInstall
  split_ifs <;> exact ⟨rfl, rfl, rfl⟩

theorem temporalAllocate_bounds {u : ℕ} (hrun : temporalAllocate h u = some (c, h')) :
    SameBounds h.ctl h'.ctl := by
  unfold temporalAllocate at hrun
  dsimp only at hrun
  split_ifs at hrun
  · simp only [Option.some.injEq, Prod.mk.injEq] at hrun
    rw [← hrun.2]
    exact .refl _
  · simp only [Option.some.injEq, Prod.mk.injEq] at hrun
    rw [← hrun.2]
    exact .refl _
  · simp only [Option.some.injEq, Prod.mk.injEq] at hrun
    rw [← hrun.2]
    exact ⟨rfl, rfl, rfl⟩
  · obtain ⟨⟨b, h₁⟩, hfind, hrun⟩ := Option.bind_eq_some_iff.1 hrun
    dsimp only at hrun
    split_ifs at hrun
    · simp only [Option.some.injEq, Prod.mk.injEq] at hrun
      rw [← hrun.2]
      exact findFree_bounds hfind
    · obtain ⟨h₂, hsplit, hrun⟩ := Option.bind_eq_some_iff.1 hrun
      simp only [Option.some.injEq, Prod.mk.injEq] at hrun
      have hout : SameBounds h₂.ctl (handOut h₂ b (blockAlloc + blockTemporal)).2.ctl :=
        ⟨rfl, rfl, rfl⟩
      rw [← hrun.2]
      exact (((findFree_bounds hfind).trans (trySplit_bounds hsplit)).trans hout).trans
        (ringInstall_bounds _ _ _)

theorem tombstone_bounds (p : ℕ) : SameBounds h.ctl (tombstone h p).2.ctl := by
  unfold tombstone
  dsimp only
  split_ifs <;> exact ⟨rfl, rfl, rfl⟩

theorem clearTemporalClass_bounds {s s' : TlsfList} {size : ℕ}
    (hrun : clearTemporalClass s b size = some s') : SameBounds s s' := by
  unfold clearTemporalClass at hrun
  dsimp only at hrun
  split_ifs at hrun <;>
    (simp only [Option.some.injEq] at hrun
     rw [← hrun]
     exact ⟨rfl, rfl, rfl⟩)

theorem clearTemporal_bounds (s : TlsfList) (b size : ℕ) : SameBounds s
    (clearTemporal s b size) := by
  unfold clearTemporal
  split
  next s' hfirst => exact clearTemporalClass_bounds hfirst
  next hfirst =>
    split_ifs
    · cases hsnd : clearTemporalClass s b (size - 32) with
      | none => exact .refl s
      | some s' => exact clearTemporalClass_bounds hsnd
    · exact .refl s

theorem mergeForward_sameBook : SameBook h.ctl (mergeForward h b).1.ctl := by
  unfold mergeForward
  dsimp only
  split_ifs
  · exact flRemove_sameBook h _
  · exact .refl h.ctl

theorem mergeBackward_sameBook {merged : Bool} :
    SameBook h.ctl (mergeBackward h b merged).1.ctl := by
  unfold mergeBackward
  dsimp only
  split_ifs
  · exact flRemove_sameBook h _
  · exact .refl h.ctl

theorem coalesceAndFree_sameBook (h : Heap) (b : ℕ) :
    SameBook h.ctl (coalesceAndFree h b).ctl := by
  have hf : SameBook h.ctl (mergeForward h b).1.ctl := mergeForward_sameBook
  have hb : SameBook (mergeForward h b).1.ctl
    (mergeBackward (mergeForward h b).1 b (mergeForward h b).2).1.ctl := mergeBackward_sameBook
  have hboth := hf.trans hb
  unfold coalesceAndFree
  dsimp only
  generalize mergeBackward (mergeForward h b).1 b (mergeForward h b).2 = r at hboth
  have hins := flInsert_sameBook
    ⟨r.1.ctl, if r.2.2 then r.1.mem.setW1 (nextPhys r.1.mem r.2.1) r.2.1 else r.1.mem⟩ r.2.1
  exact hboth.trans hins

theorem deallocate_bounds (p : ℕ) : SameBounds h.ctl (deallocate h p).2.ctl := by
  have hcoalesce : ∀ s, SameBounds h.ctl s →
    SameBounds h.ctl (coalesceAndFree ⟨s, h.mem⟩ (p - 32)).ctl :=
    fun s hs => hs.trans (coalesceAndFree_sameBook ⟨s, h.mem⟩ _).bounds
  unfold deallocate
  dsimp only
  by_cases hpre : p = 0 ∨ h.ctl.base = 0
  · rw [if_pos hpre]
    exact .refl _
  · rw [if_neg hpre]
    by_cases hfree : h.mem.hi (p - 32) = blockFree
    · rw [if_pos hfree]
      exact .refl _
    · rw [if_neg hfree]
      apply hcoalesce
      by_cases htemp : h.mem.hi (p - 32) &&& blockTemporal ≠ 0
      · rw [if_pos htemp]
        have hclear := fun s => clearTemporal_bounds s (p - 32) (h.mem.lo (p - 32))
        exact ⟨(hclear _).base, (hclear _).total, (hclear _).flCount⟩
      · rw [if_neg htemp]
        exact ⟨rfl, rfl, rfl⟩

theorem step_bounds {w w' : Client Heap} {op : Op} (hstep : w.step tlsfBook op = some w') :
    SameBounds w.book.ctl w'.book.ctl := by
  have hrecv : ∀ c g, (w.receive tlsfBook c g).book = g := by
    intro c g
    unfold Client.receive
    split_ifs <;> rfl
  cases op with
  | allocate n =>
    obtain ⟨⟨c, g⟩, hal, hstep⟩ := Option.bind_eq_some_iff.1 hstep
    rw [← Option.some.inj hstep, hrecv]
    exact allocate_bounds hal
  | temporalAllocate n =>
    obtain ⟨⟨c, g⟩, hal, hstep⟩ := Option.bind_eq_some_iff.1 hstep
    rw [← Option.some.inj hstep, hrecv]
    exact temporalAllocate_bounds hal
  | tombstone p =>
    simp only [Client.step] at hstep
    split_ifs at hstep <;>
      (rw [← Option.some.inj hstep]
       exact tombstone_bounds p)
  | deallocate p =>
    simp only [Client.step] at hstep
    split_ifs at hstep <;>
      (rw [← Option.some.inj hstep]
       exact deallocate_bounds p)
  | write p i c =>
    rw [← Option.some.inj hstep]
    exact .refl _

end Bounds

theorem initMemory_classed {m : Mem} {ptr len : ℕ} (hlen : ptr + len ≤ 2 ^ 64)
    (hacc : (initMemory m ptr len).ctl.base ≠ 0) : Classed (initMemory m ptr len).ctl := by
  have hlt := (initMemory_good hlen hacc).geo.total_lt
  have hcount : (initMemory m ptr len).ctl.flCount =
      max 1 (min 26 (fls64 (initMemory m ptr len).ctl.total - 6 + 1)) := by
    simp only [initMemory] at hacc ⊢
    split_ifs at hacc ⊢
    · exact absurd rfl hacc
    · exact absurd rfl hacc
    · exact absurd rfl hacc
    · rfl
  intro n hn
  rw [hcount]
  have hmono : Nat.log2 n ≤ fls64 (initMemory m ptr len).ctl.total := by
    by_cases h0 : n = 0
    · simp [h0]
    · exact (Nat.le_log2 (by omega)).2 ((two_pow_log2_le h0).trans hn)
  by_cases h64 : 64 ≤ n
  · have := log2_sub_lt_flMax h64 (by omega)
    omega
  · have : Nat.log2 n ≤ 6 := by
      by_cases h0 : n = 0
      · simp [h0]
      · have := log2_lt_of_lt (s := n) (k := 6) h0 (by omega)
        omega
    omega

/-! ## Runs -/

/-- A step that avoids the tombstone defect acts on the ledger of the pool. -/
theorem step_ledger {w w' : Client Heap} {A : Blocks} {op : Op} (hG : Good w.book A)
    (hH : (tlsfLedger w.book A).Holds 32 w) (hop : Permitted w op)
    (hstep : w.step tlsfBook op = some w') :
    ∃ A', Good w'.book A' ∧
    LedgerStep tlsfBook w (tlsfLedger w.book A) op w' (tlsfLedger w'.book A') := by
  obtain ⟨hlegal, hfit, hspare⟩ := hop
  have hring : ∀ b n, op = .deallocate (b + tlsfBook.header) →
      (tlsfLedger w.book A).used b = some (n, blockTombstone) → ¬(tlsfLedger w.book A).ring b := by
    rintro b n rfl hb ⟨h0, i, r, hr, he⟩
    have hts : isTombstoned w.book (b + 32) = true := by
      rw [hG.isTombstoned hb]
      rfl
    simp [sparesRing, tlsfBook, hts, ringHolds_of_slot hG hr h0 he] at hspare
  obtain ⟨w'', L', hstep', ⟨A', hG', rfl⟩, hls⟩ :=
    tlsf_refines.step ⟨A, hG, rfl⟩ hH hlegal hfit hring
  rw [hstep, Option.some.injEq] at hstep'
  subst hstep'
  exact ⟨A', hG', hls⟩

/-- What the client knows of the pool is all there is. -/
structure Known (w : Client Heap) (A : Blocks) : Prop extends Good w.book A where
  holds : (tlsfLedger w.book A).Holds 32 w
  reported : (tlsfLedger w.book A).Reported 32 w

theorem Known.step {w w' : Client Heap} {A : Blocks} {op : Op} (hK : Known w A)
    (hop : Permitted w op) (hstep : w.step tlsfBook op = some w') :
    ∃ A', Known w' A' ∧
      LedgerStep tlsfBook w (tlsfLedger w.book A) op w' (tlsfLedger w'.book A') := by
  obtain ⟨A', hG', hls⟩ := step_ledger hK.toGood hK.holds hop hstep
  have hV := hK.ledger_valid
  have hV' := hG'.ledger_valid
  exact ⟨A', ⟨hG', hls.holds hV hV' hK.holds, hls.reported hV hV' hK.reported⟩, hls⟩

section Runs
variable {m : Mem} {ptr len : ℕ} {ops : List Op} {w : Client Heap}

theorem initMemory_known (hlen : ptr + len ≤ 2 ^ 64) (hacc : (initMemory m ptr len).ctl.base ≠ 0) :
    ∃ A, Known (.start (initMemory m ptr len)) A ∧
      (tlsfLedger (initMemory m ptr len) A).Vacant := by
  obtain ⟨L, ⟨A, hG, rfl⟩, hV, -⟩ := initMemory_vacant (m := m) hlen hacc
  refine ⟨A, ⟨hG, fun p l hp => by simp [Client.start] at hp, fun {b n f} hb => ?_⟩, hV⟩
  exact absurd ((hV.used b).symm.trans hb) (by simp)

theorem run_known (hlen : ptr + len ≤ 2 ^ 64) (hacc : (initMemory m ptr len).ctl.base ≠ 0)
    (hrun : Run Permitted (Client.step tlsfBook) (.start (initMemory m ptr len)) ops w) :
    ∃ A, Known w A ∧ SameBounds (initMemory m ptr len).ctl w.book.ctl := by
  obtain ⟨A, hK, -⟩ := initMemory_known (m := m) hlen hacc
  refine hrun.invariant (fun w => ∃ A, Known w A ∧ SameBounds (initMemory m ptr len).ctl w.book.ctl)
    ?_ ⟨A, hK, .refl _⟩
  rintro w op w' ⟨A, hK, hb⟩ hop hstep
  obtain ⟨A', hK', -⟩ := hK.step hop hstep
  exact ⟨A', hK', hb.trans (step_bounds hstep)⟩

/-- Without tombstones the counter is the sum over the blocks in use. -/
theorem run_unburied (hlen : ptr + len ≤ 2 ^ 64) (hacc : (initMemory m ptr len).ctl.base ≠ 0)
    (hrun : Run Permitted (Client.step tlsfBook) (.start (initMemory m ptr len)) ops w)
    (hops : ∀ op ∈ ops, op.isTombstone = false) :
    ∃ A, Known w A ∧ (tlsfLedger w.book A).Balanced := by
  obtain ⟨A, hK, hV⟩ := initMemory_known (m := m) hlen hacc
  suffices hinv : ∃ A, Known w A ∧ (tlsfLedger w.book A).Balanced ∧
      (tlsfLedger w.book A).Unburied by
    obtain ⟨A, hK, hB, -⟩ := hinv
    exact ⟨A, hK, hB⟩
  refine hrun.invariant_mem hops (fun w => ∃ A, Known w A ∧ (tlsfLedger w.book A).Balanced ∧
    (tlsfLedger w.book A).Unburied) ?_ ⟨A, hK, hV.balanced, fun {b n} hb => ?_⟩
  · rintro w op w' ⟨A, hK, hB, hU⟩ hop hplain hstep
    obtain ⟨A', hK', hls⟩ := hK.step hop hstep
    refine ⟨A', hK', hls.balanced hK.ledger_valid hK'.ledger_valid hB ?_, hls.unburied hU hplain⟩
    rintro b n f rfl hb rfl
    exact hU hb
  · exact absurd ((hV.used b).symm.trans hb) (by simp)

/-- In every state of a run that deallocates no tombstoned ring block, `allocate` serves a
request exactly if a maximal free run reaches the smallest class bound at or above its size; and
once all blocks are freed, none of them tombstoned, the pool is one free block again. -/
theorem tlsf_complete (hlen : ptr + len ≤ 2 ^ 64) (hacc : (initMemory m ptr len).ctl.base ≠ 0)
    (hrun : Run Permitted (Client.step tlsfBook) (.start (initMemory m ptr len)) ops w) :
    (∀ n, adjustedBlockSize n ≠ 0 → adjustedBlockSize n < 2 ^ 63 →
      ∃ r, IsLeast {x | ClassBound x ∧ adjustedBlockSize n ≤ x} r ∧
        ((∃ c h', allocate w.book n = some (c, h') ∧ c.ptr ≠ 0) ↔
          ∃ x y, FreeRun w x y ∧ r ≤ y - x)) ∧
      ((∀ op ∈ ops, op.isTombstone = false) → (∀ p, w.held p = none) →
        Recovered w.book ∧ SameBounds (initMemory m ptr len).ctl w.book.ctl) := by
  obtain ⟨A, hK, hb⟩ := run_known hlen hacc hrun
  constructor
  · intro n hn hlim
    obtain ⟨hq, -⟩ := adjustedBlockSize_spec hn
    refine ⟨_, searchClass_isLeast hq (by omega), ?_⟩
    have hclassed : Classed w.book.ctl := by
      intro k hk
      rw [hb.flCount]
      exact initMemory_classed hlen hacc k (hb.total ▸ hk)
    rw [hK.allocate_iff hclassed hn (by omega)]
    constructor
    · rintro ⟨x, k, hA, hle⟩
      refine ⟨x, x + k, (freeRun_iff hK.toGood hK.holds hK.reported x _).2 ⟨k, hA, rfl⟩, ?_⟩
      omega
    · rintro ⟨x, y, hrun, hle⟩
      obtain ⟨k, hA, rfl⟩ := (freeRun_iff hK.toGood hK.holds hK.reported x y).1 hrun
      exact ⟨x, k, hA, by omega⟩
  · intro hops hfreed
    obtain ⟨A, hK, hbal⟩ := run_unburied hlen hacc hrun hops
    have hused : ∀ x, used A x = none := by
      intro x
      cases hx : used A x with
      | none => rfl
      | some v =>
        have hheld := hK.reported hx
        rw [hfreed] at hheld
        exact absurd hheld (by simp)
    refine ⟨hK.recovered hused ?_, hb⟩
    have hmass : mass liveWeight (w.book.ctl.base + 32) w.book.ctl.endSentinel (used A) = 0 := by
      unfold mass
      simp [hused]
    exact hbal.1.trans hmass

end Runs

theorem Known.held_lt {w : Client Heap} {A : Blocks} (hK : Known w A) {p len : ℕ}
    (hp : w.held p = some len) : p < w.book.ctl.endSentinel := by
  obtain ⟨b, n, f, rfl, rfl, hb⟩ := hK.holds p len hp
  have hin : b + n ≤ w.book.ctl.endSentinel := (hK.ledger_valid.within hb).2
  have hsz := hK.phys.size_ge (used_eq_some.1 hb).1
  omega

theorem tlsf_complete_churn : ∃ w, Run Permitted (Client.step tlsfBook)
    (.start (initMemory .zero 4096 1024))
    [.allocate 10, .temporalAllocate 40, .allocate 100, .write 4160 0 ⟨1, 2, 3, 4, 5⟩,
      .deallocate 4256, .deallocate 4384, .deallocate 4160] w ∧
      (∃ x y, FreeRun w x y ∧ 864 ≤ y - x) ∧ Recovered w.book := by
  obtain ⟨w, hrun, hw⟩ := exists_run_of_exec Permitted (Client.step tlsfBook)
    (s := .start (initMemory .zero 4096 1024))
    (l := [.allocate 10, .temporalAllocate 40, .allocate 100, .write 4160 0 ⟨1, 2, 3, 4, 5⟩,
      .deallocate 4256, .deallocate 4384, .deallocate 4160])
    (P := fun w => w.book.ctl.endSentinel = 5088 &&
      (allocate w.book 800).any (fun r => r.1.ptr ≠ 0) &&
      (List.range 5088).all fun p => (w.held p).isNone) (by decide +kernel)
  simp only [Bool.and_eq_true, decide_eq_true_eq, List.all_eq_true, List.mem_range,
    Option.isNone_iff_eq_none] at hw
  obtain ⟨⟨hend, hal⟩, hheld⟩ := hw
  obtain ⟨⟨c, h'⟩, hc, hc0⟩ := Option.any_eq_true _ _ |>.1 hal
  obtain ⟨hserve, hfreed⟩ := tlsf_complete (by decide) (by decide +kernel) hrun
  have hneed : adjustedBlockSize 800 = 864 := by decide
  obtain ⟨r, hr, hiff⟩ := hserve 800 (by decide) (by decide)
  rw [hneed] at hr
  obtain ⟨x, y, hxy, hle⟩ := hiff.1 ⟨c, h', hc, of_decide_eq_true hc0⟩
  have hr' : r = 864 := by
    have hsearch := searchClass_isLeast (q := 864) (by norm_num) (by norm_num)
    rw [hr.unique hsearch]
    decide +kernel
  obtain ⟨A, hK, -⟩ := run_known (by decide) (by decide +kernel) hrun
  refine ⟨w, hrun, ⟨x, y, hxy, by omega⟩, (hfreed (by decide) fun p => ?_).1⟩
  cases hp : w.held p with
  | none => rfl
  | some len =>
    have hlt := hK.held_lt hp
    rw [hend] at hlt
    rw [hheld p hlt] at hp
    exact absurd hp (by simp)

def belowLimit : Op → Bool
  | .allocate n => n < 2 ^ 62
  | .temporalAllocate n => n < 2 ^ 62
  | _ => true

/-- A tombstoned ring block is freed and its stale slot used once more: the chunk covers the
whole pool, and a request is served although no byte is outside it. -/
theorem stale_slot_overserves : ∃ ops w n,
    Run (fun w op => w.wellLive op = true ∧ belowLimit op = true) (Client.step tlsfBook)
      (.start (initMemory .zero 4096 1024)) ops w ∧
    adjustedBlockSize n ≠ 0 ∧ adjustedBlockSize n < 2 ^ 63 ∧
    (∃ c h', allocate w.book n = some (c, h') ∧ c.ptr ≠ 0) ∧ ¬∃ x y, FreeRun w x y := by
  obtain ⟨w, hrun, hw⟩ := exists_run_of_exec
    (fun w op => w.wellLive op = true ∧ belowLimit op = true) (Client.step tlsfBook)
    (s := .start (initMemory .zero 4096 1024))
    (l := [.temporalAllocate 40, .tombstone 4160, .temporalAllocate 40, .deallocate 4160,
      .temporalAllocate 40])
    (P := fun w => w.book.ctl.base = 4096 && w.book.ctl.endSentinel = 5088 &&
      w.held 4160 = some 928 && (allocate w.book 10).any (fun r => r.1.ptr ≠ 0)) (by decide +kernel)
  simp only [Bool.and_eq_true, decide_eq_true_eq] at hw
  obtain ⟨⟨⟨hbase, hend⟩, hheld⟩, hal⟩ := hw
  obtain ⟨⟨c, h'⟩, hc, hc0⟩ := Option.any_eq_true _ _ |>.1 hal
  refine ⟨_, w, 10, hrun, by decide, by decide, ⟨c, h', hc, of_decide_eq_true hc0⟩, ?_⟩
  rintro ⟨x, y, hxy⟩
  have hlow := hxy.lower
  have hlt := hxy.lt
  have hup := hxy.upper
  rw [hbase] at hlow
  rw [hend] at hup
  exact hxy.clear x le_rfl hlt ⟨4160, 928, hheld, by omega, by omega⟩

end AbcMalloc.Tlsf
