import AbcMalloc.Buddy.Complete

/-! Runs of `__buddy_list` without temporal requests and tombstones: nothing is ever cached, what
is in use is what the client holds, and a pool whose blocks were all freed is the initial one. -/
namespace AbcMalloc.Buddy
open Function Foundation

/-! ## The temporal caches are left alone -/

section Counts
variable {h : Heap} {b o t : ℕ}

theorem clearIfEmpty_tcacheCount (s : BuddyList) (o : ℕ) :
    (s.clearIfEmpty o).tcacheCount = s.tcacheCount := by
  unfold BuddyList.clearIfEmpty
  split_ifs <;> rfl

theorem removeSlow_tcacheCount (buddy o : ℕ) : ∀ (fuel prev cur : ℕ),
    (removeSlow h buddy o fuel prev cur).2.ctl.tcacheCount = h.ctl.tcacheCount := by
  intro fuel
  induction fuel with
  | zero => exact fun _ _ => rfl
  | succ fuel ih =>
    intro prev cur
    simp only [removeSlow]
    split_ifs
    · rfl
    all_goals first | exact ih _ _ | (rw [clearIfEmpty_tcacheCount])

theorem freelistRemove_tcacheCount :
    (freelistRemove h b o).2.ctl.tcacheCount = h.ctl.tcacheCount := by
  unfold freelistRemove freelistRemoveSlow
  dsimp only
  split_ifs <;> first | rfl | exact removeSlow_tcacheCount _ _ _ _ _

theorem splitDown_tcacheCount : ∀ (o : ℕ) {h : Heap},
    (splitDown b t o h).ctl.tcacheCount = h.ctl.tcacheCount := by
  intro o
  induction o with
  | zero => exact rfl
  | succ o ih =>
    intro h
    simp only [splitDown]
    split_ifs
    · rw [ih]
      exact (pushFree_caches _ _ _ _).2
    · rfl

theorem takeAndSplit_tcacheCount {h' : Heap} (hrun : takeAndSplit h o t = some (b, h')) :
    h'.ctl.tcacheCount = h.ctl.tcacheCount := by
  unfold takeAndSplit at hrun
  dsimp only at hrun
  split_ifs at hrun <;>
    (simp only [Option.some.injEq, Prod.mk.injEq] at hrun
     rw [← hrun.2, splitDown_tcacheCount])

theorem allocate_tcacheCount {u : ℕ} {c : Chunk} {h' : Heap} (hrun : allocate h u = some (c, h')) :
    h'.ctl.tcacheCount = h.ctl.tcacheCount := by
  unfold allocate at hrun
  dsimp only at hrun
  split_ifs at hrun
  · simp only [Option.some.injEq, Prod.mk.injEq] at hrun
    rw [← hrun.2]
  · simp only [Option.some.injEq, Prod.mk.injEq] at hrun
    rw [← hrun.2]
  · simp only [Option.some.injEq, Prod.mk.injEq] at hrun
    rw [← hrun.2]
  · simp only [Option.some.injEq, Prod.mk.injEq] at hrun
    rw [← hrun.2]
  · obtain ⟨⟨b, h₁⟩, htake, hout⟩ := Option.bind_eq_some_iff.1 hrun
    simp only [Option.some.injEq] at hout
    rw [← takeAndSplit_tcacheCount htake]
    exact congrArg (fun r : Chunk × Heap => r.2.ctl.tcacheCount) hout.symm

theorem mergeUp_tcacheCount : ∀ (fuel : ℕ) {h : Heap} {off o : ℕ},
    (mergeUp fuel h off o).1.ctl.tcacheCount = h.ctl.tcacheCount := by
  intro fuel
  induction fuel with
  | zero => exact rfl
  | succ fuel ih =>
    intro h off o
    simp only [mergeUp]
    split_ifs
    · rfl
    · exact freelistRemove_tcacheCount
    all_goals
      rw [ih]
      exact freelistRemove_tcacheCount

theorem mergeAndFree_tcacheCount : (mergeAndFree h b o).ctl.tcacheCount = h.ctl.tcacheCount := by
  unfold mergeAndFree freelistPushOff
  dsimp only
  rw [(pushFree_caches _ _ _ _).2, mergeUp_tcacheCount]

/-- Only temporal blocks are cached. -/
theorem deallocate_tcacheCount (ht : isTemporal h b = false) :
    (deallocate h b).2.ctl.tcacheCount = h.ctl.tcacheCount := by
  have hflag : h.mem.hi (h.ctl.hdrOfTagged b) &&& blockTemporal = 0 := by
    simpa [isTemporal] using ht
  unfold deallocate
  dsimp only
  rw [hflag]
  split_ifs
  · rfl
  · rfl
  · rfl
  all_goals first | exact mergeAndFree_tcacheCount | exact absurd rfl ‹_›

end Counts

/-! ## Runs -/

/-- Neither a temporal request nor a tombstone. -/
def isPlain : Op → Bool
  | .temporalAllocate _ => false
  | .tombstone _ => false
  | _ => true

/-- Steps of a client that allocates, writes to live chunks and deallocates live pointers. -/
def Plain (w : Client Heap) (op : Op) : Prop := w.wellLive op = true ∧ isPlain op = true

instance (w : Client Heap) (op : Op) : Decidable (Plain w op) := by
  unfold Plain
  infer_instance

/-- Exactly the pointers held name blocks in use, of the lengths known, and nothing is cached. -/
structure Settled (w : Client Heap) (A : Blocks) : Prop extends Good w.book A where
  balanced : (buddyLedger w.book A).Balanced
  flags : ∀ {b n f}, used A b = some (n, f) → f = blockAlloc
  held : ∀ b, w.held b = (used A b).map fun v => v.1 - 32
  uncached : Uncached w.book.ctl

theorem receive_held {w : Client Heap} {c : Chunk} {h : Heap} (hc : c.ptr ≠ 0) :
    (w.receive buddyBook c h).held = update w.held c.ptr (some c.len) := by
  rw [Client.receive, if_neg hc]

namespace Settled
variable {w w' : Client Heap} {A : Blocks} {op : Op}

theorem used_of_held (hS : Settled w A) {p len : ℕ} (hp : w.held p = some len) :
    ∃ n, used A p = some (n, blockAlloc) ∧ n = len + 32 := by
  rw [hS.held, Option.map_eq_some_iff] at hp
  obtain ⟨⟨n, f⟩, hu, rfl⟩ := hp
  obtain rfl := hS.flags hu
  have hsz := hS.ledger_valid.size hu
  exact ⟨n, hu, by simp only; omega⟩

theorem held_lt (hS : Settled w A) {p len : ℕ} (hp : w.held p = some len) :
    p < w.book.ctl.limit := by
  obtain ⟨n, hu, rfl⟩ := hS.used_of_held hp
  have hin : p + (len + 32) ≤ w.book.ctl.limit := (hS.ledger_valid.within hu).2
  omega

theorem step (hS : Settled w A) (hop : Plain w op) (hstep : w.step buddyBook op = some w') :
    ∃ A', Settled w' A' ∧ SameShape w.book.ctl w'.book.ctl := by
  obtain ⟨hlegal, hplain⟩ := hop
  have hV := hS.ledger_valid
  cases op with
  | temporalAllocate n => exact absurd hplain (by simp [isPlain])
  | tombstone p => exact absurd hplain (by simp [isPlain])
  | allocate n =>
    rcases hS.toInv.allocate n with hnull | ⟨b, o, h', A', hal, hI', hT, hact, -⟩
    · obtain rfl : w = w' := by
        simpa [Client.step, buddyBook, hnull, Client.receive, Chunk.null] using hstep
      exact ⟨A, hS, .refl _⟩
    · have hG' : Good h' A' := ⟨hI', hS.rings_of_takes hT hact⟩
      have hO := Good.opens hT fun o' r => Or.inr (by rw [hact])
      have hu : used A' b = some (w.book.ctl.orderSize o, blockAlloc) := by
        rw [hT.used, update_self]
      have hb := hG'.used_pos hu
      obtain rfl : w.receive buddyBook ⟨b, w.book.ctl.orderSize o - 32⟩ h' = w' := by
        simpa [Client.step, buddyBook, hal] using hstep
      have hbook := receive_book buddyBook w ⟨b, w.book.ctl.orderSize o - 32⟩ h'
      refine ⟨A', ⟨?_, ?_, fun {x n f} hx => ?_, fun x => ?_, ?_⟩, ?_⟩
      · rw [hbook]
        exact hG'
      · rw [hbook]
        exact hS.balanced.opens hG'.ledger_valid hO (Or.inl rfl)
      · rw [hT.used, update_apply] at hx
        split_ifs at hx
        · simp only [Option.some.injEq, Prod.mk.injEq] at hx
          exact hx.2.symm
        · exact hS.flags hx
      · rw [receive_held hb, hT.used, update_apply, update_apply]
        split_ifs
        · rfl
        · exact hS.held x
      · rw [hbook]
        intro i
        rw [allocate_tcacheCount hal]
        exact hS.uncached i
      · rw [hbook]
        exact hT.shape
  | deallocate p =>
    have hlive : (w.held p).isSome = true := Client.wellHeld_of_wellLive hlegal
    obtain ⟨len, hlen⟩ := Option.isSome_iff_exists.1 hlive
    obtain ⟨n, hu, -⟩ := hS.used_of_held hlen
    have htemp : isTemporal w.book p = false :=
      (buddy_refines.isTemporal ⟨A, hS.toGood, rfl⟩ hu).trans (by decide)
    obtain ⟨s', L', hde, ⟨A', hG', rfl⟩, hC⟩ := buddy_refines.deallocate ⟨A, hS.toGood, rfl⟩ hu
      fun hf => absurd hf (by decide)
    obtain ⟨h', A'', o, hde', hI', hs, -⟩ := hS.toInv.deallocate hu
    have hde : deallocate w.book p = (.ok, s') := hde
    have hsame : s' = h' := congrArg Prod.snd (hde.symm.trans hde')
    have hcount := deallocate_tcacheCount htemp
    rw [hde] at hcount
    have hstep : some { w with
        book := s'
        held := update w.held p none
        dead := update w.dead p false
        freed := update w.freed p true } = some w' := by
      rw [← hstep]
      simp [Client.step, buddyBook, hde]
    obtain rfl := Option.some.inj hstep
    have hused : used A' = update (used A) p none := hC.used
    refine ⟨A', ⟨hG', ?_, fun {x n f} hx => ?_, fun x => ?_, fun i => ?_⟩, ?_⟩
    · exact hS.balanced.closes hV hC hu (by decide)
    · rw [hused, update_apply] at hx
      split_ifs at hx
      exact hS.flags hx
    · show update w.held p none x = _
      rw [hused, update_apply, update_apply]
      split_ifs
      · rfl
      · exact hS.held x
    · show s'.ctl.tcacheCount i = 0
      rw [hcount]
      exact hS.uncached i
    · show SameShape w.book.ctl s'.ctl
      rw [hsame]
      exact hs
  | write p i c =>
    obtain ⟨len, hlen, hi⟩ := Client.exists_len_of_writes (c := c) hlegal
    obtain ⟨n, hu, rfl⟩ := hS.used_of_held hlen
    obtain rfl := Option.some.inj hstep
    refine ⟨A, ⟨⟨hS.toInv.store hu (Nat.le_add_right _ _) (by omega) c, hS.rings⟩, hS.balanced,
      hS.flags, hS.held, hS.uncached⟩, .refl _⟩

end Settled

theorem run_settled {minLog ptr len : ℕ} {m : Mem} {ext : Bool} {tags : ℕ → ℕ} {ops : List Op}
    {w : Client Heap} (hmin : 5 ≤ minLog) (hlen : ptr + len < 2 ^ 64)
    (hacc : (initMemory minLog m ptr len ext tags).ctl.base ≠ 0)
    (hrun : Run Plain (Client.step buddyBook)
    (.start (initMemory minLog m ptr len ext tags)) ops w) :
    ∃ A, Settled w A ∧ SameShape (initMemory minLog m ptr len ext tags).ctl w.book.ctl := by
  obtain ⟨L, ⟨A, hG, rfl⟩, hV, -⟩ := initMemory_vacant hmin hlen hacc
  have hF := (initMemory_accepted hmin hlen hacc).fresh
  refine hrun.invariant (fun w => ∃ A, Settled w A ∧
    SameShape (initMemory minLog m ptr len ext tags).ctl w.book.ctl) ?_
    ⟨A, ⟨hG, hV.balanced, fun {b n f} hb => ?_, fun b => ?_, fun o => (hF.caches o).2⟩, .refl _⟩
  · rintro w op w' ⟨A, hS, hs⟩ hop hstep
    obtain ⟨A', hS', hs'⟩ := hS.step hop hstep
    exact ⟨A', hS', hs.trans hs'⟩
  · rw [show used A b = none from hV.used b] at hb
    exact absurd hb (by simp)
  · rw [show used A b = none from hV.used b]
    rfl

def Spares (w : Client Heap) (o x : ℕ) : Prop :=
  ∀ p len, w.held p = some len → p + len + 32 ≤ w.book.ctl.base + x ∨
    w.book.ctl.base + x + w.book.ctl.orderSize o ≤ p

theorem Settled.vacant_iff {w : Client Heap} {A : Blocks} (hS : Settled w A) (o x : ℕ) :
    Vacant w.book.ctl A o x ↔ Spares w o x := by
  constructor
  · intro hV p len hp
    obtain ⟨n, hu, rfl⟩ := hS.used_of_held hp
    have := hV hu
    omega
  · intro hV b n f hb
    have hsz := hS.ledger_valid.size hb
    have hheld : w.held b = some (n - 32) := by
      rw [hS.held, hb]
      rfl
    have := hV b _ hheld
    omega

/-- In every state of a run that allocates and deallocates in any order, `allocate` serves a
request exactly if an aligned window of its order meets no block held; and once all blocks are
freed the pool is the initial one. -/
theorem buddy_complete {minLog ptr len : ℕ} {m : Mem} {ext : Bool} {tags : ℕ → ℕ} {ops : List Op}
    {w : Client Heap} (hmin : 5 ≤ minLog) (hlen : ptr + len < 2 ^ 64)
    (hacc : (initMemory minLog m ptr len ext tags).ctl.base ≠ 0)
    (hrun : Run Plain (Client.step buddyBook)
    (.start (initMemory minLog m ptr len ext tags)) ops w) :
    (∀ n, (∃ c h', allocate w.book n = some (c, h') ∧ c.ptr ≠ 0) ↔
      n + 32 < 2 ^ 64 ∧ w.book.ctl.orderForSize (n + 32) < w.book.ctl.maxOrder ∧
        ∃ x, Window w.book.ctl (w.book.ctl.orderForSize (n + 32)) x ∧
          Spares w (w.book.ctl.orderForSize (n + 32)) x) ∧
      ((∀ p, w.held p = none) → Fresh w.book ∧ w.book.ctl.allocatedBytes = 0 ∧
        SameShape (initMemory minLog m ptr len ext tags).ctl w.book.ctl) := by
  obtain ⟨A, hS, hs⟩ := run_settled hmin hlen hacc hrun
  constructor
  · intro n
    rw [hS.toInv.allocate_iff hS.uncached]
    simp only [hS.vacant_iff]
  · intro hfreed
    have hused : ∀ b, used A b = none := by
      intro b
      have := hS.held b
      rw [hfreed b] at this
      exact Option.map_eq_none_iff.1 this.symm
    refine ⟨hS.toInv.fresh_of_unused hS.uncached hused, ?_, hs⟩
    have hbal := hS.balanced.1
    have hmass : mass liveWeight w.book.ctl.base w.book.ctl.limit (used A) = 0 := by
      unfold mass
      simp [hused]
    exact hbal.trans hmass

theorem buddy_complete_churn : ∃ w, Run Plain (Client.step buddyBook)
    (.start (initMemory 5 .zero 4096 4096 false fun _ => 0))
    [.allocate 10, .allocate 40, .allocate 500, .write 4352 0 ⟨1, 2, 3, 4, 5⟩, .deallocate 4352,
      .deallocate 4224, .deallocate 5248] w ∧
      (∃ x, Window w.book.ctl 6 x ∧ Spares w 6 x) ∧ Fresh w.book := by
  obtain ⟨w, hrun, hw⟩ := exists_run_of_exec Plain (Client.step buddyBook)
    (s := .start (initMemory 5 .zero 4096 4096 false fun _ => 0))
    (l := [.allocate 10, .allocate 40, .allocate 500, .write 4352 0 ⟨1, 2, 3, 4, 5⟩,
      .deallocate 4352, .deallocate 4224, .deallocate 5248])
    (P := fun w => w.book.ctl.limit = 6272 && w.book.ctl.orderForSize (2000 + 32) = 6 &&
      (allocate w.book 2000).any (fun r => r.1.ptr ≠ 0) &&
      (List.range 6272).all fun p => (w.held p).isNone) (by decide +kernel)
  simp only [Bool.and_eq_true, decide_eq_true_eq, List.all_eq_true, List.mem_range,
    Option.isNone_iff_eq_none] at hw
  obtain ⟨⟨⟨hlimit, hord⟩, hal⟩, hheld⟩ := hw
  obtain ⟨⟨c, h'⟩, hc, hc0⟩ := Option.any_eq_true _ _ |>.1 hal
  obtain ⟨hserve, hfresh⟩ := buddy_complete (by decide) (by decide) (by decide +kernel) hrun
  have hwin := ((hserve 2000).1 ⟨c, h', hc, of_decide_eq_true hc0⟩).2.2
  rw [hord] at hwin
  obtain ⟨A, hS, -⟩ := run_settled (by decide) (by decide) (by decide +kernel) hrun
  refine ⟨w, hrun, hwin, (hfresh fun p => ?_).1⟩
  cases hp : w.held p with
  | none => rfl
  | some len =>
    have hlt := hS.held_lt hp
    rw [hlimit] at hlt
    rw [hheld p hlt] at hp
    exact absurd hp (by simp)

end AbcMalloc.Buddy
