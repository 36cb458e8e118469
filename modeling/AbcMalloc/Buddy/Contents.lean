import AbcMalloc.Buddy.Refinement
import AbcMalloc.Contents

/-! What the operations of a buddy list write: links at the starts of idle blocks and the tail of
the block that is handed out or tombstoned. The cells of blocks in use, up to their tails, stay. -/
namespace AbcMalloc.Buddy
open Function Foundation

/-- The cell at `x` lies in a block in use, in front of its tail. -/
def Inner (A : Blocks) (x : ℕ) : Prop :=
  ∃ b n f, used A b = some (n, f) ∧ b ≤ x ∧ x + 32 ≤ b + n - 32

def Holds (A : Blocks) (m m' : Mem) : Prop := ∀ x, Inner A x → m'.cell x = m.cell x

namespace Holds
variable {A A' : Blocks} {m m' m'' : Mem}

theorem refl (A : Blocks) (m : Mem) : Holds A m m := fun _ _ => rfl

theorem trans (h : Holds A m m') (h' : Holds A' m' m'') (hu : used A' = used A) :
    Holds A m m'' := by
  intro x hx
  have hx' : Inner A' x := by
    unfold Inner
    rw [hu]
    exact hx
  rw [h' x hx', h x hx]

theorem congr (h : Holds A m m') (hu : used A' = used A) : Holds A' m m' := by
  have h' := (refl A' m).trans h hu.symm
  exact h'

end Holds

section Writes
variable {h h' : Heap} {A : Blocks} {b n o x : ℕ} {k : Kind}

theorem Core.inner_ne (hC : Core h A) (hx : Inner A x) (hA : A b = some (n, o, k))
    (hk : ∀ f, k ≠ .inUse f) : x ≠ b ∧ x ≠ b + n - 32 := by
  obtain ⟨a, m, f, hu, h₁, h₂⟩ := hx
  obtain ⟨o', ha⟩ := used_eq_some.1 hu
  have hab : a ≠ b := by
    rintro rfl
    rw [ha] at hA
    simp only [Option.some.injEq, Prod.mk.injEq] at hA
    exact hk f hA.2.2.symm
  exact hC.cell_ne ha hA hab h₁ (by omega)

theorem Core.inner_pos (hC : Core h A) (hx : Inner A x) : x ≠ 0 := by
  obtain ⟨a, m, f, hu, h₁, -⟩ := hx
  obtain ⟨o', ha⟩ := used_eq_some.1 hu
  have := hC.pos ha
  omega

/-- Linking an idle block into a free list writes to it and to the old head. -/
theorem Core.pushFree_holds (hC : Core h A) (hA : A b = some (n, o, k)) (hk : ∀ f, k ≠ .inUse f)
    (i t : ℕ) : Holds A h.mem (pushFree h b i t).mem := by
  intro x hx
  obtain ⟨fl, hF⟩ := hC.lists
  have hxb := (hC.inner_ne hx hA hk).1
  have hxh : x ≠ h.ctl.freeLists i := by
    by_cases h0 : h.ctl.freeLists i = 0
    · rw [h0]
      exact hC.inner_pos hx
    · obtain ⟨m, hm⟩ := (hF.mem i _).1 (hF.head_mem h0)
      exact (hC.inner_ne hx hm (by simp)).1
  obtain ⟨hlo, hhi⟩ := pushFree_tail h b i t hxb
  have hf := pushFree_frame h b i t
  simp only [Mem.cell, hlo, hhi, pushFree_w1 h b i t hxh, hf.w2, hf.w3]

theorem removeSlow_w1 (buddy o : ℕ) : ∀ (fuel prev cur : ℕ) {x : ℕ}, x ≠ h.mem.next buddy →
    (removeSlow h buddy o fuel prev cur).2.mem.w1 x = h.mem.w1 x := by
  intro fuel
  induction fuel with
  | zero => exact fun _ _ _ _ => rfl
  | succ fuel ih =>
    intro prev cur x hx
    simp only [removeSlow]
    by_cases h0 : cur = 0
    · rw [if_pos h0]
    rw [if_neg h0]
    by_cases hcur : cur = buddy
    · subst hcur
      rw [if_pos rfl]
      by_cases hv : h.ctl.linkValid (h.mem.next cur) = true
      · simp only [hv, if_true]
        split_ifs <;> simp [update_of_ne hx]
      · simp only [hv, Bool.false_eq_true, if_false]
        split_ifs <;> simp_all
    · rw [if_neg hcur]
      exact ih cur _ hx

/-- Taking a block out of a list writes one back link, that of its successor. -/
theorem freelistRemove_w1 {x : ℕ} (hx : x ≠ h.mem.next b) :
    (freelistRemove h b o).2.mem.w1 x = h.mem.w1 x := by
  unfold freelistRemove freelistRemoveSlow
  dsimp only
  split_ifs
  · rfl
  · rfl
  all_goals first | exact removeSlow_w1 b o _ _ _ hx | simp [update_of_ne hx]

theorem Core.next_free (hC : Core h A) (hA : A b = some (n, o, .free)) :
    h.mem.next b = 0 ∨ ∃ m, A (h.mem.next b) = some (m, o, .free) := by
  obtain ⟨fl, hF⟩ := hC.lists
  obtain ⟨l₁, l₂, hl⟩ := List.append_of_mem ((hF.mem o b).2 ⟨n, hA⟩)
  obtain ⟨p, hseg⟩ := hF.seg o
  rw [hl] at hseg
  rw [hseg.links.2]
  refine headD_mem_or.imp id fun hmem => (hF.mem o _).1 ?_
  rw [hl]
  exact List.mem_append_right _ (List.mem_cons_of_mem _ hmem)

theorem Core.remove_holds (hC : Core h A) (hA : A b = some (n, o, .free)) :
    Holds A h.mem (freelistRemove h b o).2.mem := by
  intro x hx
  obtain ⟨-, hR⟩ := hC.remove hA
  obtain ⟨hlo, hhi⟩ := hR.mem x fun m i hm => (hC.inner_ne hx hm (by simp)).1 rfl
  have hnext : x ≠ h.mem.next b := by
    rcases hC.next_free hA with h0 | ⟨m, hm⟩
    · rw [h0]
      exact hC.inner_pos hx
    · exact (hC.inner_ne hx hm (by simp)).1
  simp only [Mem.cell, hlo, hhi, freelistRemove_w1 hnext, hR.frame.w2, hR.frame.w3]

/-! ## Taking and returning blocks -/

theorem splitDown_holds {b t : ℕ} (o : ℕ) : ∀ {h : Heap} {A : Blocks} {n : ℕ}, Core h A →
    A b = some (n, o, .detached) → t ≤ o → Holds A h.mem (splitDown b t o h).mem := by
  -- The same induction as that of `splitDown_spec`.
  induction o with
  | zero => exact fun _ _ _ => .refl _ _
  | succ o ih =>
    intro h A n hC hA ht
    by_cases hlt : t < o + 1
    · have hn : n = 2 * h.ctl.orderSize o := by rw [(hC.size hA).1, orderSize_succ]
      have hpos := orderSize_pos h.ctl o
      have hgap : A (b + h.ctl.orderSize o) = none := hC.tiles.gap hA (by omega) (by omega)
      have hmid : h.ctl.orderSize (o + 1) / 2 = h.ctl.orderSize o := by
        rw [orderSize_succ]
        omega
      have hright : halves h.ctl A b o (b + h.ctl.orderSize o) =
          some (h.ctl.orderSize o, o, .detached) := update_self _ _ _
      have hne : b ≠ b + h.ctl.orderSize o := by omega
      have hhalves : used (halves h.ctl A b o) = used A := by
        rw [halves, used_update_idle (by rw [update_of_ne (Ne.symm hne), hgap]; rfl) rfl,
          used_update_idle (by rw [hA]; rfl) rfl]
      have hC₁ := hC.halve hA
      have hpush := hC₁.pushFree_holds hright (by simp) o (h.ctl.tagIndex (b + h.ctl.orderSize o))
      have hrest := ih (hC₁.push hright) (n := h.ctl.orderSize o)
        (by rw [update_of_ne hne, halves, update_of_ne hne, update_self]) (by omega)
      have hstep : splitDown b t (o + 1) h = splitDown b t o
          (pushFree h (b + h.ctl.orderSize o) o (h.ctl.tagIndex (b + h.ctl.orderSize o))) := by
        simp only [splitDown, if_pos hlt, hmid]
      rw [hstep]
      refine (hpush.congr hhalves.symm).trans hrest ?_
      rw [used_update_idle (by rw [hright]; rfl) rfl, hhalves]
    · have hstep : splitDown b t (o + 1) h = h := by simp [splitDown, hlt]
      rw [hstep]
      exact .refl _ _

/-- The head of a list is taken out like any other block. -/
theorem Core.takeAndSplit_eq {t : ℕ} (hC : Core h A) (h0 : h.ctl.freeLists o ≠ 0) :
    Buddy.takeAndSplit h o t = some (h.ctl.freeLists o,
      splitDown (h.ctl.freeLists o) t o (freelistRemove h (h.ctl.freeLists o) o).2) := by
  obtain ⟨fl, hF⟩ := hC.lists
  obtain ⟨n, hA⟩ := (hF.mem o _).1 (hF.head_mem h0)
  have hv : h.ctl.linkValid (h.mem.next (h.ctl.freeLists o)) = true := by
    rcases hC.next_free hA with hnull | ⟨m, hm⟩
    · rw [hnull]
      simp [BuddyList.linkValid]
    · exact hC.linkValid hm
  rw [freelistRemove_head rfl hv]
  simp only [Buddy.takeAndSplit, if_neg h0, hv, if_true]

theorem Core.takeAndSplit_holds {t : ℕ} (hC : Core h A) (h0 : h.ctl.freeLists o ≠ 0) (ht : t ≤ o)
    (hrun : Buddy.takeAndSplit h o t = some (b, h')) : Holds A h.mem h'.mem := by
  obtain ⟨fl, hF⟩ := hC.lists
  obtain ⟨n, hA⟩ := (hF.mem o _).1 (hF.head_mem h0)
  rw [hC.takeAndSplit_eq h0] at hrun
  simp only [Option.some.injEq, Prod.mk.injEq] at hrun
  rw [← hrun.2]
  refine (hC.remove_holds hA).trans (splitDown_holds o ((hC.remove hA).2.core hC hA)
    (update_self _ _ _) ht) ?_
  exact used_update_idle (by rw [hA]; rfl) rfl

theorem Core.handOut_holds {f : ℕ} (hC : Core h A) (hA : A b = some (n, o, .detached)) :
    Holds A h.mem (Buddy.handOut h b o f).2.mem := by
  intro x hx
  have hne := (hC.inner_ne hx hA (by simp)).2
  have hhdr : h.ctl.hdrOf b o = b + n - 32 := by rw [BuddyList.hdrOf, (hC.size hA).1]
  simp [Buddy.handOut, hhdr, Mem.cell, update_of_ne hne]

theorem Pending.mergeUp_holds (fuel : ℕ) : ∀
    {h : Heap} {A : Blocks} {off o : ℕ}, Pending h A off o →
    o + fuel = h.ctl.maxOrder - 1 → Holds A h.mem (mergeUp fuel h off o).1.mem := by
  -- The same induction as that of `mergeUp_spec`.
  induction fuel with
  | zero => exact fun _ _ => .refl _ _
  | succ fuel ih =>
    intro h A off o hP ho
    simp only [mergeUp]
    by_cases ht : h.ctl.blockTags (buddy (h.ctl.minLog + o) off / 2 ^ h.ctl.minLog) = tagFree o
    · have hB := hP.buddy_free (by omega) ht
      obtain ⟨h₁, hrem, hf, A₁, hu, hP₁⟩ := hP.merge (by omega) rfl hB
      have hremove := hP.remove_holds hB
      rw [hrem] at hremove
      rw [if_neg (not_not.2 ht), hrem]
      simp only [Bool.true_eq_false, if_false]
      have hmax : h₁.ctl.maxOrder = h.ctl.maxOrder := hf.shape.maxOrder
      refine hremove.trans (ih hP₁ ?_) hu
      show o + 1 + fuel = h₁.ctl.maxOrder - 1
      omega
    · rw [if_pos ht]
      exact .refl _ _

theorem Core.mergeAndFree_holds (hC : Core h A) (hA : A b = some (n, o, .detached))
    (hsole : ∀ {x n' o'}, A x = some (n', o', .detached) → x = b) (hco : Coalesced h.ctl A) :
    Holds A h.mem (Buddy.mergeAndFree h b o).mem := by
  have hlow := hC.tiles.lower hA
  have hsz := hC.size hA
  have hb : h.ctl.base + (b - h.ctl.base) = b := by omega
  have hP : Pending h A (b - h.ctl.base) o :=
    ⟨hC, by rw [hb, hA, hsz.1], fun hx => by rw [hb]; exact hsole hx, hco⟩
  have hmerge := hP.mergeUp_holds (h.ctl.maxOrder - 1 - o) (by omega)
  obtain ⟨h', off, o', A', hm, -, hu, hP', -⟩ := mergeUp_spec (h.ctl.maxOrder - 1 - o) hP (by omega)
  rw [hm] at hmerge
  unfold Buddy.mergeAndFree freelistPushOff
  rw [hm]
  exact hmerge.trans (hP'.pushFree_holds hP'.block (by simp) _ _) hu

/-! ## Operations -/

theorem Inv.take_holds {t f : ℕ} (hI : Inv h A) (h0 : h.ctl.freeLists o ≠ 0) (ht : t ≤ o)
    (hrun : takeAndSplit h o t = some (b, h')) : Holds A h.mem (handOut h' b t f).2.mem := by
  obtain ⟨b', n, h₁, A₁, A₂, htake, hA, rfl, hC, hS, -⟩ := hI.takeAndSplit h0 ht
  rw [hrun] at htake
  simp only [Option.some.injEq, Prod.mk.injEq] at htake
  obtain ⟨rfl, rfl⟩ := htake
  refine (hI.takeAndSplit_holds h0 ht hrun).trans (hC.handOut_holds hS.block) ?_
  rw [hS.used, used_update_idle (by rw [hA]; rfl) rfl]

theorem Inv.allocate_holds {u : ℕ} {c : Chunk} (hI : Inv h A)
    (hrun : Buddy.allocate h u = some (c, h')) : Holds A h.mem h'.mem := by
  have hsame : some (Chunk.null, h) = some (c, h') → Holds A h.mem h'.mem := by
    intro heq
    simp only [Option.some.injEq, Prod.mk.injEq] at heq
    rw [← heq.2]
    exact .refl _ _
  unfold Buddy.allocate at hrun
  dsimp only at hrun
  split_ifs at hrun with h₁ h₂ h₃ h₄
  · exact hsame hrun
  · exact hsame hrun
  · exact hsame hrun
  · exact hsame hrun
  · obtain ⟨hle, h0⟩ := hI.findFreeOrder (not_le.1 h₄)
    obtain ⟨⟨b, h₁⟩, htake, hout⟩ := Option.bind_eq_some_iff.1 hrun
    obtain rfl : _ = h' := congrArg Prod.snd (Option.some.inj hout)
    exact hI.take_holds h0 hle htake

/-- A cached block is handed out. -/
theorem Core.reuse_holds {A' : Blocks} {f : ℕ} (hC : Core h' A') (hA : A b = some (n, o, .cached))
    (hA' : A' = update A b (some (n, o, .detached))) (hmem : h'.mem = h.mem) :
    Holds A h.mem (Buddy.handOut h' b o f).2.mem := by
  have hdet : A' b = some (n, o, .detached) := by rw [hA', update_self]
  have hout := hC.handOut_holds (f := f) hdet
  rw [hmem] at hout
  refine hout.congr ?_
  rw [hA', used_update_idle (by rw [hA]; rfl) rfl]

theorem tcachePop_mem (hrun : tcachePop h o = some (b, h')) : h'.mem = h.mem := by
  unfold tcachePop at hrun
  split_ifs at hrun
  · simp only [Option.some.injEq, Prod.mk.injEq] at hrun
    rw [← hrun.2]
  · dsimp only at hrun
    split_ifs at hrun <;> simp only [Option.some.injEq, Prod.mk.injEq] at hrun <;> rw [← hrun.2]

theorem Inv.temporalAllocate_holds {u : ℕ} {c : Chunk} (hI : Inv h A)
    (hrun : Buddy.temporalAllocate h u = some (c, h')) : Holds A h.mem h'.mem := by
  have hsame : ∀ {d : Chunk} {s : BuddyList}, some (d, ⟨s, h.mem⟩) = some (c, h') →
      Holds A h.mem h'.mem := by
    intro d s heq
    simp only [Option.some.injEq, Prod.mk.injEq] at heq
    rw [← heq.2]
    exact .refl _ _
  unfold Buddy.temporalAllocate at hrun
  dsimp only at hrun
  split_ifs at hrun with h₁ h₂ h₃ h₄
  · exact hsame hrun
  · exact hsame hrun
  · exact hsame hrun
  · exact hsame hrun
  -- no block in the ring: the cache comes first, then the free lists
  rcases hI.tcachePop (h.ctl.orderForSize (u + 32)) with hpop | ⟨b, n, h₁, hpop, hA, hF, hC⟩
  · rw [hpop] at hrun
    simp only [Option.bind_eq_bind, Option.bind_some, ne_eq, not_true_eq_false, if_false] at hrun
    split_ifs at hrun with h₅
    · exact hsame hrun
    · obtain ⟨hle, h0⟩ := hI.findFreeOrder (not_le.1 h₅)
      obtain ⟨⟨b, h₁⟩, htake, hout⟩ := Option.bind_eq_some_iff.1 hrun
      obtain rfl : _ = h' := congrArg Prod.snd (Option.some.inj hout)
      exact hI.take_holds h0 hle htake
  · rw [hpop] at hrun
    simp only [Option.bind_eq_bind, Option.bind_some, ne_eq, hI.pos hA, not_false_eq_true,
      if_true] at hrun
    obtain rfl : _ = h' := congrArg Prod.snd (Option.some.inj hrun)
    exact hC.reuse_holds hA rfl (tcachePop_mem hpop)

/-- The tail of a block in use lies behind the cells of its holder. -/
theorem Core.inner_ne_tail {f : ℕ} (hC : Core h A) (hx : Inner A x)
    (hA : A b = some (n, o, .inUse f)) : x ≠ b + n - 32 := by
  obtain ⟨a, m, g, hu, h₁, h₂⟩ := hx
  obtain ⟨o', ha⟩ := used_eq_some.1 hu
  by_cases hab : a = b
  · subst hab
    rw [ha] at hA
    simp only [Option.some.injEq, Prod.mk.injEq] at hA
    omega
  · exact (hC.cell_ne ha hA hab h₁ (by omega)).2

theorem Inv.tombstone_holds {f : ℕ} (hI : Inv h A) (hu : used A b = some (n, f)) :
    Holds A h.mem (Buddy.tombstone h b).2.mem := by
  obtain ⟨o, hA⟩ := used_eq_some.1 hu
  intro x hx
  have hne := hI.inner_ne_tail hx hA
  unfold Buddy.tombstone
  dsimp only
  split_ifs
  · rfl
  · rfl
  · rfl
  · simp [Mem.cell, (hI.hdrOfTagged hA).1, update_of_ne hne]

/-- A freed block is detached, then cached or merged; other blocks are left alone. -/
theorem Inv.deallocate_holds {f : ℕ} (hI : Inv h A) (hA : A b = some (n, o, .inUse f)) :
    Holds (update A b (some (n, o, .detached))) h.mem (Buddy.deallocate h b).2.mem := by
  have hD := hI.toCore.detach hA
  have hmerge : ∀ s : BuddyList, SameLists h.ctl s →
      Holds (update A b (some (n, o, .detached))) h.mem
        (Buddy.mergeAndFree ⟨s, h.mem⟩ b o).mem := by
    intro s hs
    exact (hD.congr hs.shape hs.tags hs.lists hs.mask hs.cache hs.count).mergeAndFree_holds
      (update_self _ _ _) hI.detached_sole
      ((hI.coalesced_update (by simp)).mono hs.shape fun ha => ha)
  rw [hI.deallocate_eq hA]
  by_cases hf : f = blockAlloc + blockTemporal
  · -- a temporal block is cached, unless the cache is full
    rw [if_pos hf]
    by_cases hfull : 4 ≤ (clearActive (discharge h.ctl n f) b o).tcacheCount o
    · simp only [tcachePush, if_pos hfull, Bool.false_eq_true, if_false]
      exact hmerge _ (clearActive_lists _ _ _ _ _)
    · simp only [tcachePush, if_neg hfull, if_true]
      intro x hx
      have hne := (hD.inner_ne hx (update_self _ _ _) (by simp)).1
      simp [Mem.cell, Mem.setNext, update_of_ne hne]
  · rw [if_neg hf]
    exact hmerge _ (discharge_lists _ _ _)

end Writes

theorem inner_of_used {A : Blocks} {b n f i : ℕ} (hb : used A b = some (n, f))
    (hi : 32 * i + 32 ≤ n - 32) : Inner A (b + buddyBook.header + 32 * i) := by
  refine ⟨b, n, f, hb, ?_, ?_⟩
  · show b ≤ b + 0 + 32 * i
    omega
  · show b + 0 + 32 * i + 32 ≤ b + n - 32
    omega

theorem buddy_preserves :
    Preserves buddyBook (fun _ => true) BuddyRep fun h => h.mem.cell where
  allocate := by
    rintro h h' L u c b x ⟨A, hG, rfl⟩ - hrun ⟨n, f, i, hb, rfl, hi⟩
    exact hG.toInv.allocate_holds hrun _ (inner_of_used hb hi)
  temporalAllocate := by
    rintro h h' L u c b x ⟨A, hG, rfl⟩ - hrun ⟨n, f, i, hb, rfl, hi⟩
    exact hG.toInv.temporalAllocate_holds hrun _ (inner_of_used hb hi)
  tombstone := by
    rintro h L b n f a x ⟨A, hG, rfl⟩ hb - ⟨m, g, i, ha, rfl, hi⟩
    exact hG.toInv.tombstone_holds hb _ (inner_of_used ha hi)
  deallocate := by
    rintro h L b n f a x ⟨A, hG, rfl⟩ hb - ⟨m, g, i, ha, rfl, hi⟩ hab
    obtain ⟨o, hA⟩ := used_eq_some.1 hb
    refine hG.toInv.deallocate_holds hA _ (inner_of_used (n := m) (f := g) ?_ hi)
    rw [used_update, update_of_ne hab]
    exact ha
  store h x c := Mem.cell_store h.mem x c

end AbcMalloc.Buddy
