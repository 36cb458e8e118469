import AbcMalloc.Buddy.Blocks
import AbcMalloc.Foundation.Bits

/-! Moving one block between the lists of a buddy pool: linking it into a free list, taking
it out, caching it and taking it from the cache. Each step changes the label of one block. -/
namespace AbcMalloc.Buddy
open Function Foundation

/-- What moving blocks between lists leaves alone. -/
structure Frame (h h' : Heap) : Prop where
  shape : SameShape h.ctl h'.ctl
  allocated : h'.ctl.allocatedBytes = h.ctl.allocatedBytes
  tombstoned : h'.ctl.tombstonedBytes = h.ctl.tombstonedBytes
  active : h'.ctl.active = h.ctl.active
  w2 : h'.mem.w2 = h.mem.w2
  w3 : h'.mem.w3 = h.mem.w3

namespace Frame
variable {h h' h'' : Heap}

theorem refl (h : Heap) : Frame h h := ⟨.refl _, rfl, rfl, rfl, rfl, rfl⟩

theorem trans (h₁ : Frame h h') (h₂ : Frame h' h'') : Frame h h'' :=
  ⟨h₁.shape.trans h₂.shape, h₂.allocated.trans h₁.allocated, h₂.tombstoned.trans h₁.tombstoned,
    h₂.active.trans h₁.active, h₂.w2.trans h₁.w2, h₂.w3.trans h₁.w3⟩

end Frame

theorem headD_eq_zero {l : List ℕ} (h : 0 ∉ l) : l.headD 0 = 0 ↔ l = [] := by
  cases l with
  | nil => simp
  | cons x xs =>
    simp only [List.headD_cons, reduceCtorEq, iff_false]
    exact fun hx => h (hx ▸ List.mem_cons_self)

/-! ## Linking a block into a free list -/

section Push
variable (h : Heap) (b o t : ℕ)

theorem pushFree_next :
    (pushFree h b o t).mem.next = update h.mem.next b (h.ctl.freeLists o) := by
  unfold pushFree
  dsimp only
  split_ifs <;> simp

theorem pushFree_w1 {x : ℕ} (hx : x ≠ h.ctl.freeLists o) :
    (pushFree h b o t).mem.w1 x = h.mem.w1 x := by
  unfold pushFree
  dsimp only
  split_ifs
  · simp [update_of_ne hx]
  · simp

theorem pushFree_w1_head (h0 : h.ctl.freeLists o ≠ 0) :
    (pushFree h b o t).mem.w1 (h.ctl.freeLists o) = b := by
  simp [pushFree, h0]

theorem pushFree_tail {x : ℕ} (hx : x ≠ b) :
    (pushFree h b o t).mem.lo x = h.mem.lo x ∧ (pushFree h b o t).mem.hi x = h.mem.hi x := by
  unfold pushFree
  dsimp only
  split_ifs <;> simp [Mem.setNext_lo, Mem.setNext_hi, update_of_ne hx]

theorem pushFree_freeLists :
    (pushFree h b o t).ctl.freeLists = update h.ctl.freeLists o b := by
  unfold pushFree BuddyList.setTag
  dsimp only
  split_ifs <;> rfl

theorem pushFree_blockTags :
    (pushFree h b o t).ctl.blockTags = update h.ctl.blockTags t (tagFree o) := by
  unfold pushFree BuddyList.setTag
  dsimp only
  split_ifs <;> rfl

theorem pushFree_freeMask : (pushFree h b o t).ctl.freeMask =
    if h.ctl.freeLists o = 0 then h.ctl.freeMask ||| (1#64 <<< o) else h.ctl.freeMask := by
  unfold pushFree BuddyList.setTag
  dsimp only
  split_ifs <;> first | rfl | contradiction

theorem pushFree_caches : (pushFree h b o t).ctl.tcache = h.ctl.tcache ∧
    (pushFree h b o t).ctl.tcacheCount = h.ctl.tcacheCount := by
  unfold pushFree BuddyList.setTag
  dsimp only
  split_ifs <;> exact ⟨rfl, rfl⟩

theorem pushFree_frame : Frame h (pushFree h b o t) := by
  unfold pushFree BuddyList.setTag
  dsimp only
  split_ifs <;> exact ⟨⟨rfl, rfl, rfl, rfl, rfl⟩, rfl, rfl, rfl, rfl, rfl⟩

end Push

namespace FreeLists
variable {h : Heap} {A : Blocks} {fl : ℕ → List ℕ} {b n o : ℕ} {k : Kind}

theorem head_mem (hF : FreeLists h.ctl h.mem A fl) (h0 : h.ctl.freeLists o ≠ 0) :
    h.ctl.freeLists o ∈ fl o := by
  rw [hF.head o] at h0 ⊢
  cases hl : fl o with
  | nil => simp [hl] at h0
  | cons x xs => simp

theorem push (hF : FreeLists h.ctl h.mem A fl) (hA : A b = some (n, o, k)) (hk : k ≠ .free)
    (ho : o < 64) (hb : b ≠ 0) (t : ℕ) :
    FreeLists (pushFree h b o t).ctl (pushFree h b o t).mem (update A b (some (n, o, .free)))
      (update fl o (b :: fl o)) := by
  have hnot : ∀ o', b ∉ fl o' := by
    intro o' hmem
    obtain ⟨n', hn'⟩ := (hF.mem o' b).1 hmem
    rw [hA] at hn'
    simp only [Option.some.injEq, Prod.mk.injEq] at hn'
    exact hk hn'.2.2
  have hhead : h.ctl.freeLists o ≠ 0 → h.ctl.freeLists o ∈ fl o := hF.head_mem
  have hne : ∀ o', ∀ x ∈ fl o', x ≠ b := by
    rintro o' x hx rfl
    exact hnot o' hx
  refine ⟨fun o' => ?_, fun o' => ?_, fun o' x => ?_, fun o' => ?_, fun o' => ?_, fun o' ho' => ?_⟩
  · by_cases hoo : o' = o
    · subst hoo
      rw [update_self]
      obtain ⟨p, hseg⟩ := hF.seg o'
      refine ⟨_, hseg.pushFront ?_ rfl ?_ ?_ ?_⟩
      · rw [pushFree_next, update_self, hF.head]
      · intro y hy
        rw [pushFree_next, update_of_ne (hne o' y hy)]
      · intro y ys hl
        have he : h.ctl.freeLists o' = y := by rw [hF.head, hl]; rfl
        have h0 : y ≠ 0 := by
          rintro rfl
          exact hF.pos o' (hl ▸ List.mem_cons_self)
        rw [← he]
        exact pushFree_w1_head _ _ _ _ (he ▸ h0)
      · intro y ys hl z hz
        refine pushFree_w1 _ _ _ _ ?_
        rw [hF.head, hl, List.headD_cons]
        rintro rfl
        have := hF.nodup o'
        rw [hl] at this
        exact (List.nodup_cons.1 this).1 hz
    · rw [update_of_ne hoo]
      obtain ⟨p, hseg⟩ := hF.seg o'
      refine ⟨p, hseg.congr (fun x hx => ?_) (fun x hx => ?_)⟩
      · rw [pushFree_next, update_of_ne (hne o' x hx)]
      · refine pushFree_w1 _ _ _ _ ?_
        rintro rfl
        have h0 : h.ctl.freeLists o ≠ 0 := fun h0 => hF.pos o' (h0 ▸ hx)
        exact hF.not_mem_of_ne hoo hx (hhead h0)
  · rw [pushFree_freeLists]
    by_cases hoo : o' = o
    · subst hoo
      simp
    · rw [update_of_ne hoo, update_of_ne hoo]
      exact hF.head o'
  · by_cases hoo : o' = o
    · subst hoo
      rw [update_self, List.mem_cons, hF.mem]
      by_cases hx : x = b
      · subst hx
        simp
      · simp [hx]
    · rw [update_of_ne hoo, hF.mem]
      by_cases hx : x = b
      · subst hx
        simp [hA, hk, Ne.symm hoo]
      · rw [update_of_ne hx]
  · by_cases hoo : o' = o
    · subst hoo
      rw [update_self]
      exact List.nodup_cons.2 ⟨hnot o', hF.nodup o'⟩
    · rw [update_of_ne hoo]
      exact hF.nodup o'
  · by_cases hoo : o' = o
    · subst hoo
      rw [update_self, List.mem_cons, not_or]
      exact ⟨hb.symm, hF.pos o'⟩
    · rw [update_of_ne hoo]
      exact hF.pos o'
  · rw [pushFree_freeMask]
    by_cases hoo : o' = o
    · subst hoo
      rw [update_self]
      refine iff_of_true ?_ (List.cons_ne_nil _ _)
      split_ifs with h0
      · simp [getLsbD_setBit _ ho]
      · exact (hF.mask o' ho).2 fun hl => by simp [hF.head, hl] at h0
    · rw [update_of_ne hoo, ← hF.mask o' ho']
      split_ifs
      · simp [getLsbD_setBit _ ho, hoo]
      · rfl

end FreeLists

/-- A detached block becomes free. -/
theorem Core.push {h : Heap} {A : Blocks} {b n o : ℕ} (hC : Core h A)
    (hA : A b = some (n, o, .detached)) :
    Core (pushFree h b o (h.ctl.tagIndex b)) (update A b (some (n, o, .free))) := by
  obtain ⟨fl, hF⟩ := hC.lists
  obtain ⟨tc, hT⟩ := hC.caches
  have hcell := (hC.within hA).2.2
  refine hC.relabel .free hA (pushFree_frame _ _ _ _).shape (fun t ht => ?_) ?_
    ⟨_, hF.push hA (by simp) (hC.order_lt hA) (hC.pos hA) _⟩ ⟨tc, ?_⟩ (fun {a n' o' f} hab ha => ?_)
    (by simp)
  · rw [pushFree_blockTags, update_of_ne ht]
  · rw [pushFree_blockTags, update_self]
    rfl
  · obtain ⟨h₁, h₂⟩ := pushFree_caches h b o (h.ctl.tagIndex b)
    refine hT.congr h₁ h₂ (fun x o' => relabel_iff hA .cached (by simp) (by simp) x o')
      fun x n' o' hx => ?_
    rw [pushFree_next, update_of_ne]
    rintro rfl
    simp [hA] at hx
  · exact pushFree_tail _ _ _ _ (hC.cell_ne hA ha hab.symm le_rfl (by omega)).2.symm

/-! ## Taking a block out of a free list -/

/-- Links of listed blocks are null or point to blocks, so the checks of the source accept them. -/
theorem Core.linkValid_of_mem {h : Heap} {A : Blocks} (hC : Core h A) {fl : ℕ → List ℕ}
    (hF : FreeLists h.ctl h.mem A fl) {o x : ℕ} (hx : x = 0 ∨ x ∈ fl o) :
    h.ctl.linkValid x = true := by
  rcases hx with rfl | hx
  · simp [BuddyList.linkValid]
  · obtain ⟨n, hn⟩ := (hF.mem o x).1 hx
    exact hC.linkValid hn

theorem headD_mem_or {l : List ℕ} : l.headD 0 = 0 ∨ l.headD 0 ∈ l := by
  cases l <;> simp

theorem FreeLists.shrink {h h' : Heap} {A : Blocks} {fl : ℕ → List ℕ} {b n o : ℕ} {k : Kind}
    {l : List ℕ} (hF : FreeLists h.ctl h.mem A fl) (hA : A b = some (n, o, .free)) (hk : k ≠ .free)
    (ho : o < 64) (hl : ∀ x, x ∈ l ↔ x ∈ fl o ∧ x ≠ b) (hnd : l.Nodup)
    (hseg : ∃ p, Seg h'.mem.next h'.mem.w1 p l 0)
    (hnext : ∀ o', o' ≠ o → ∀ x ∈ fl o', h'.mem.next x = h.mem.next x ∧ h'.mem.w1 x = h.mem.w1 x)
    (hlists : h'.ctl.freeLists = update h.ctl.freeLists o (l.headD 0))
    (hmask : ∀ j, h'.ctl.freeMask.getLsbD j =
      (h.ctl.freeMask.getLsbD j && decide (j = o → l ≠ []))) :
    FreeLists h'.ctl h'.mem (update A b (some (n, o, k))) (update fl o l) := by
  refine ⟨fun o' => ?_, fun o' => ?_, fun o' x => ?_, fun o' => ?_, fun o' => ?_, fun o' ho' => ?_⟩
  · by_cases hoo : o' = o
    · subst hoo
      rw [update_self]
      exact hseg
    · rw [update_of_ne hoo]
      obtain ⟨p, hp⟩ := hF.seg o'
      exact ⟨p, hp.congr (fun x hx => (hnext o' hoo x hx).1) (fun x hx => (hnext o' hoo x hx).2)⟩
  · rw [hlists]
    by_cases hoo : o' = o
    · subst hoo
      simp
    · rw [update_of_ne hoo, update_of_ne hoo]
      exact hF.head o'
  · by_cases hoo : o' = o
    · subst hoo
      rw [update_self, hl, hF.mem]
      by_cases hx : x = b
      · subst hx
        simp [hk]
      · simp [hx]
    · rw [update_of_ne hoo, hF.mem]
      by_cases hx : x = b
      · subst hx
        simp [hA, Ne.symm hoo]
      · rw [update_of_ne hx]
  · by_cases hoo : o' = o
    · subst hoo
      rw [update_self]
      exact hnd
    · rw [update_of_ne hoo]
      exact hF.nodup o'
  · by_cases hoo : o' = o
    · subst hoo
      rw [update_self]
      exact fun h0 => hF.pos o' ((hl 0).1 h0).1
    · rw [update_of_ne hoo]
      exact hF.pos o'
  · rw [hmask, Bool.and_eq_true, hF.mask o' ho', decide_eq_true_eq]
    by_cases hoo : o' = o
    · subst hoo
      rw [update_self]
      have : fl o' ≠ [] := List.ne_nil_of_mem ((hF.mem o' b).2 ⟨n, hA⟩)
      simp [this]
    · simp [hoo]

theorem freelistRemove_head {h : Heap} {b o : ℕ} (hb : h.ctl.freeLists o = b)
    (hv : h.ctl.linkValid (h.mem.next b) = true) :
    freelistRemove h b o = (true,
      ⟨if h.mem.next b = 0 then
          { h.ctl with
            freeLists := update h.ctl.freeLists o (h.mem.next b)
            freeMask := h.ctl.freeMask &&& ~~~(1#64 <<< o) }
        else { h.ctl with freeLists := update h.ctl.freeLists o (h.mem.next b) }, h.mem⟩) := by
  simp [freelistRemove, hb, hv]

/-- The memory once the neighbours of `b` are linked to each other. -/
def unlinked (m : Mem) (b : ℕ) : Mem :=
  if m.next b ≠ 0 then (m.setNext (m.w1 b) (m.next b)).setW1 (m.next b) (m.w1 b)
  else m.setNext (m.w1 b) (m.next b)

theorem unlinked_next (m : Mem) (b : ℕ) :
    (unlinked m b).next = update m.next (m.w1 b) (m.next b) := by
  unfold unlinked
  split_ifs <;> simp

theorem unlinked_w1 (m : Mem) (b : ℕ) : (unlinked m b).w1 =
    if m.next b ≠ 0 then update m.w1 (m.next b) (m.w1 b) else m.w1 := by
  unfold unlinked
  split_ifs <;> simp

theorem unlinked_tail {m : Mem} {b x : ℕ} (hx : x ≠ m.w1 b) :
    (unlinked m b).lo x = m.lo x ∧ (unlinked m b).hi x = m.hi x := by
  unfold unlinked
  split_ifs <;> simp [Mem.setNext_lo, Mem.setNext_hi, update_of_ne hx]

theorem freelistRemove_middle {h : Heap} {b o : ℕ} (hb : h.ctl.freeLists o ≠ b)
    (hv : h.ctl.linkValid (h.mem.next b) = true) (hp : h.ctl.linkValid (h.mem.w1 b) = true)
    (hp0 : h.mem.w1 b ≠ 0) (hpn : h.mem.next (h.mem.w1 b) = b)
    (hn : h.mem.next b ≠ 0 → h.mem.w1 (h.mem.next b) = b) :
    freelistRemove h b o = (true, ⟨h.ctl, unlinked h.mem b⟩) := by
  have hcond : ¬(¬h.ctl.linkValid (h.mem.w1 b) ∨ h.mem.w1 b = 0 ∨
      h.mem.next (h.mem.w1 b) ≠ b ∨ (h.mem.next b ≠ 0 ∧ h.mem.w1 (h.mem.next b) ≠ b)) := by
    tauto
  unfold freelistRemove
  dsimp only
  rw [if_neg hb, if_neg (by simp [hv]), if_neg hcond]
  rfl

structure Removes (h h' : Heap) (A : Blocks) (b n o : ℕ) : Prop where
  frame : Frame h h'
  tags : h'.ctl.blockTags = h.ctl.blockTags
  lists : ∀ k, k ≠ .free → ∃ fl, FreeLists h'.ctl h'.mem (update A b (some (n, o, k))) fl
  caches : h'.ctl.tcache = h.ctl.tcache ∧ h'.ctl.tcacheCount = h.ctl.tcacheCount
  /-- Only the first cells of free blocks are written. -/
  mem : ∀ x, (∀ n' o', A x ≠ some (n', o', .free)) →
    h'.mem.lo x = h.mem.lo x ∧ h'.mem.hi x = h.mem.hi x

theorem Removes.core {h h' : Heap} {A : Blocks} {b n o : ℕ} (hR : Removes h h' A b n o)
    (hC : Core h A) (hA : A b = some (n, o, .free)) :
    Core h' (update A b (some (n, o, .detached))) := by
  obtain ⟨tc, hT⟩ := hC.caches
  refine hC.relabel .detached hA hR.frame.shape (fun t _ => by rw [hR.tags]) trivial
    (hR.lists _ (by simp)) ⟨tc, ?_⟩ (fun {a n' o' f} hab ha => hR.mem _ fun n'' o'' hx => ?_)
    (by simp)
  · refine hT.congr hR.caches.1 hR.caches.2
      (fun x o' => relabel_iff hA .cached (by simp) (by simp) x o') fun x n' o' hx => ?_
    obtain ⟨h₁, h₂⟩ := hR.mem x fun n'' o'' hx' => by simp [hx] at hx'
    simp [Mem.next, h₁, h₂]
  · have hne : a ≠ a + n' - 32 := by
      rintro he
      rw [← he, ha] at hx
      simp at hx
    have h32 := (hC.within ha).2.2
    exact (hC.cell_ne ha hx hne (by omega) (by omega)).1 rfl

/-- The head of a list comes out without a write to memory. -/
theorem FreeLists.remove_head {h : Heap} {A : Blocks} {fl : ℕ → List ℕ} {b n o : ℕ} {l : List ℕ}
    (hC : Core h A) (hF : FreeLists h.ctl h.mem A fl) (hA : A b = some (n, o, .free))
    (hl : fl o = b :: l) :
    (freelistRemove h b o).1 = true ∧ Removes h (freelistRemove h b o).2 A b n o := by
  have ho := hC.order_lt hA
  obtain ⟨p, hseg⟩ := hF.seg o
  have hnd := hF.nodup o
  have hpos := hF.pos o
  rw [hl] at hseg hnd hpos
  have hnext : h.mem.next b = l.headD 0 := hseg.2.1
  have hhead : h.ctl.freeLists o = b := by rw [hF.head, hl]; rfl
  have hv : h.ctl.linkValid (h.mem.next b) = true := by
    rw [hnext]
    refine hC.linkValid_of_mem hF (o := o) (headD_mem_or.imp id fun hm => ?_)
    rw [hl]
    exact List.mem_cons_of_mem _ hm
  have hzero : h.mem.next b = 0 ↔ l = [] := by
    rw [hnext]
    exact headD_eq_zero fun h0 => hpos (List.mem_cons_of_mem _ h0)
  rw [freelistRemove_head hhead hv]
  refine ⟨rfl, ?_, ?_, fun k hk => ⟨_, hF.shrink hA hk ho (l := l) ?_ (List.nodup_cons.1 hnd).2
    ⟨b, hseg.tail⟩ (fun _ _ _ _ => ⟨rfl, rfl⟩) ?_ ?_⟩, ?_, fun _ _ => ⟨rfl, rfl⟩⟩
  · dsimp only
    split_ifs <;> exact ⟨⟨rfl, rfl, rfl, rfl, rfl⟩, rfl, rfl, rfl, rfl, rfl⟩
  · dsimp only
    split_ifs <;> rfl
  · intro x
    rw [hl, List.mem_cons]
    constructor
    · intro hx
      refine ⟨Or.inr hx, ?_⟩
      rintro rfl
      exact (List.nodup_cons.1 hnd).1 hx
    · rintro ⟨rfl | hx, hne⟩
      · exact absurd rfl hne
      · exact hx
  · dsimp only
    split_ifs <;> simp [hnext]
  · intro j
    dsimp only
    split_ifs with h0
    · simp [getLsbD_clearBit _ ho, hzero.1 h0]
    · simp [mt hzero.2 h0]
  · dsimp only
    split_ifs <;> exact ⟨rfl, rfl⟩

/-- What the links and the list say of a block behind the head, and so what the checks of the
source find. -/
theorem FreeLists.behind {h : Heap} {A : Blocks} {fl : ℕ → List ℕ} {b o z : ℕ} {l₁ l₂ : List ℕ}
    (hF : FreeLists h.ctl h.mem A fl) (hl : fl o = l₁ ++ z :: b :: l₂) :
    h.ctl.freeLists o ≠ b ∧ h.mem.w1 b = z ∧ h.mem.next b = l₂.headD 0 ∧ h.mem.next z = b ∧
      (h.mem.next b ≠ 0 → h.mem.w1 (h.mem.next b) = b) := by
  obtain ⟨p, hseg⟩ := hF.seg o
  have hnd := hF.nodup o
  rw [hl] at hseg hnd
  have hz := hseg.links
  obtain ⟨hprev, hnext⟩ : h.mem.w1 b = z ∧ h.mem.next b = l₂.headD 0 := by
    rw [show l₁ ++ z :: b :: l₂ = (l₁ ++ [z]) ++ b :: l₂ by simp] at hseg
    simpa using hseg.links
  refine ⟨?_, hprev, hnext, hz.2, fun h0 => ?_⟩
  · rw [hF.head, hl]
    intro he
    cases l₁ with
    | nil =>
      have hzb : z = b := he
      simp [hzb] at hnd
    | cons y ys =>
      have hyb : y = b := he
      simp [hyb] at hnd
  · cases l₂ with
    | nil => exact absurd hnext h0
    | cons y ys =>
      rw [show l₁ ++ z :: b :: y :: ys = (l₁ ++ [z, b]) ++ y :: ys by simp] at hseg
      rw [hnext]
      simpa using hseg.links.1

theorem FreeLists.freelistRemove_behind {h : Heap} {A : Blocks} {fl : ℕ → List ℕ} {b o z : ℕ}
    {l₁ l₂ : List ℕ} (hC : Core h A) (hF : FreeLists h.ctl h.mem A fl)
    (hl : fl o = l₁ ++ z :: b :: l₂) :
    freelistRemove h b o = (true, ⟨h.ctl, unlinked h.mem b⟩) := by
  obtain ⟨hhead, hprev, hnext, hz, hback⟩ := hF.behind hl
  have hmemz : z ∈ fl o := by simp [hl]
  have hv : h.ctl.linkValid (h.mem.next b) = true := by
    rw [hnext]
    refine hC.linkValid_of_mem hF (o := o) (headD_mem_or.imp id fun hm => ?_)
    rw [hl, List.mem_append, List.mem_cons, List.mem_cons]
    exact Or.inr (Or.inr (Or.inr hm))
  have hz0 : z ≠ 0 := fun he => hF.pos o (he ▸ hmemz)
  exact freelistRemove_middle hhead hv (hprev ▸ hC.linkValid_of_mem hF (Or.inr hmemz)) (hprev ▸ hz0)
    (hprev ▸ hz) hback

/-- A block behind the head is unlinked from its neighbours. -/
theorem FreeLists.remove_middle {h : Heap} {A : Blocks} {fl : ℕ → List ℕ} {b n o z : ℕ}
    {l₁ l₂ : List ℕ} (hC : Core h A) (hF : FreeLists h.ctl h.mem A fl)
    (hA : A b = some (n, o, .free)) (hl : fl o = l₁ ++ z :: b :: l₂) :
    (freelistRemove h b o).1 = true ∧ Removes h (freelistRemove h b o).2 A b n o := by
  obtain ⟨p, hseg⟩ := hF.seg o
  have hnd := hF.nodup o
  have hpos := hF.pos o
  obtain ⟨-, hprev, hnext, -, -⟩ := hF.behind hl
  have hmemz : z ∈ fl o := by simp [hl]
  rw [hl] at hseg hnd hpos
  have hsplit : l₁ ++ z :: b :: l₂ = (l₁ ++ [z]) ++ b :: l₂ := by simp
  have hb : b ∉ (l₁ ++ [z]) ++ l₂ := by
    rw [hsplit, List.nodup_middle, List.nodup_cons] at hnd
    exact hnd.1
  rw [hF.freelistRemove_behind hC hl]
  refine ⟨rfl, ⟨⟨rfl, rfl, rfl, rfl, rfl⟩, rfl, rfl, rfl, ?_, ?_⟩, rfl,
    fun k hk => ⟨_, hF.shrink hA hk (hC.order_lt hA) (l := l₁ ++ z :: l₂) (fun x => ?_) ?_ ⟨p, ?_⟩
      (fun o' hoo x hx => ?_) ?_ ?_⟩, ⟨rfl, rfl⟩, fun x hx => unlinked_tail ?_⟩
  · dsimp only [unlinked]
    split_ifs <;> rfl
  · dsimp only [unlinked]
    split_ifs <;> rfl
  · rw [hl, hsplit]
    simp only [List.append_assoc, List.singleton_append, List.mem_append, List.mem_cons] at hb ⊢
    constructor
    · intro hx
      refine ⟨by tauto, ?_⟩
      rintro rfl
      exact hb hx
    · rintro ⟨hx, hne⟩
      tauto
  · refine hnd.sublist ?_
    exact (List.Sublist.refl l₁).append (List.Sublist.cons_cons z (List.sublist_cons_self b l₂))
  · rw [unlinked_next, unlinked_w1, hprev]
    exact hseg.splice hnd hpos
  · have hx0 : x ≠ 0 := fun he => hF.pos o' (he ▸ hx)
    have hout : x ∉ fl o := hF.not_mem_of_ne hoo hx
    rw [hl, List.mem_append, List.mem_cons, List.mem_cons, not_or, not_or, not_or] at hout
    rw [unlinked_next, unlinked_w1, hprev]
    exact ⟨update_of_ne hout.2.1 _ _, relink_of_ne (hnext ▸ headD_ne hout.2.2.2 hx0)⟩
  · funext j
    by_cases hj : j = o
    · subst hj
      rw [update_self, hF.head, hl]
      cases l₁ <;> simp
    · rw [update_of_ne hj]
  · intro j
    simp
  · rw [hprev]
    rintro rfl
    obtain ⟨n', hn'⟩ := (hF.mem o x).1 hmemz
    exact hx n' o hn'

/-- Removing a free block always succeeds and never needs the slow walk. -/
theorem Core.remove {h : Heap} {A : Blocks} {b n o : ℕ} (hC : Core h A)
    (hA : A b = some (n, o, .free)) :
    (freelistRemove h b o).1 = true ∧ Removes h (freelistRemove h b o).2 A b n o := by
  obtain ⟨fl, hF⟩ := hC.lists
  have hb : b ∈ fl o := (hF.mem o b).2 ⟨n, hA⟩
  obtain ⟨l₁, l₂, hl⟩ := List.append_of_mem hb
  rcases List.eq_nil_or_concat l₁ with rfl | ⟨l₀, z, rfl⟩
  · exact hF.remove_head hC hA hl
  · exact hF.remove_middle hC hA (show fl o = l₀ ++ z :: b :: l₂ by simp [hl])

/-! ## The temporal cache -/

theorem Core.congr {h : Heap} {A : Blocks} {s : BuddyList} (hC : Core h A)
    (hs : SameShape h.ctl s) (htags : s.blockTags = h.ctl.blockTags)
    (hlists : s.freeLists = h.ctl.freeLists) (hmask : s.freeMask = h.ctl.freeMask)
    (hcache : s.tcache = h.ctl.tcache) (hcount : s.tcacheCount = h.ctl.tcacheCount) :
    Core ⟨s, h.mem⟩ A := by
  obtain ⟨fl, hF⟩ := hC.lists
  obtain ⟨tc, hT⟩ := hC.caches
  refine ⟨hs.geometry hC.geo, ?_, fun ha => ?_, fun ha => ?_, fun t ht => ?_,
    ⟨fl, hF.congr hlists hmask (fun _ _ => Iff.rfl) fun _ _ _ _ => ⟨rfl, rfl⟩⟩,
    ⟨tc, hT.congr hcache hcount (fun _ _ => Iff.rfl) fun _ _ _ _ => rfl⟩, hC.tails⟩
  · rw [hs.base, hs.limit]
    exact hC.tiles
  · rw [hs.orderSize, hs.maxOrder]
    exact hC.size ha
  · rw [hs.base]
    exact hC.aligned ha
  · rw [htags, hs.base, hs.minLog]
    exact hC.tags t (hs.tagCount ▸ ht)

/-- A block in use may be regarded as detached: nothing has to be written. -/
theorem Core.detach {h : Heap} {A : Blocks} {b n o f : ℕ} (hC : Core h A)
    (hA : A b = some (n, o, .inUse f)) : Core h (update A b (some (n, o, .detached))) := by
  obtain ⟨fl, hF⟩ := hC.lists
  obtain ⟨tc, hT⟩ := hC.caches
  refine hC.relabel .detached hA (.refl _) (fun _ _ => rfl) trivial ⟨fl, ?_⟩ ⟨tc, ?_⟩
    (fun _ _ => ⟨rfl, rfl⟩) (by simp)
  · exact hF.congr rfl rfl (fun x o' => relabel_iff hA .free (by simp) (by simp) x o')
      fun _ _ _ _ => ⟨rfl, rfl⟩
  · exact hT.congr rfl rfl (fun x o' => relabel_iff hA .cached (by simp) (by simp) x o')
      fun _ _ _ _ => rfl

/-- Put a block in front of the cache of its order and clear its tag. -/
def cache (h : Heap) (b o : ℕ) : Heap :=
  let r := (tcachePush h b o).2
  { r with ctl := r.ctl.setTag (r.ctl.tagIndex b) 255 }

theorem cache_eq {h : Heap} {b o : ℕ} (hc : h.ctl.tcacheCount o < 4) :
    cache h b o = ⟨{ h.ctl with
      tcache := update h.ctl.tcache o b
      tcacheCount := update h.ctl.tcacheCount o (h.ctl.tcacheCount o + 1)
      blockTags := update h.ctl.blockTags (h.ctl.tagIndex b) 255 },
      h.mem.setNext b (h.ctl.tcache o)⟩ := by
  simp only [cache, tcachePush, if_neg (show ¬4 ≤ h.ctl.tcacheCount o by omega)]
  rfl

/-- A detached block goes to the cache of its order. -/
theorem Core.cache {h : Heap} {A : Blocks} {b n o : ℕ} (hC : Core h A)
    (hA : A b = some (n, o, .detached)) (hc : h.ctl.tcacheCount o < 4) :
    Core (cache h b o) (update A b (some (n, o, .cached))) := by
  obtain ⟨fl, hF⟩ := hC.lists
  obtain ⟨tc, hT⟩ := hC.caches
  have h32 := (hC.within hA).2.2
  have hnot : ∀ o', b ∉ tc o' := by
    intro o' hmem
    obtain ⟨n', hn'⟩ := (hT.mem o' b).1 hmem
    simp [hA] at hn'
  rw [cache_eq hc]
  refine hC.relabel .cached hA ⟨rfl, rfl, rfl, rfl, rfl⟩ (fun t ht => update_of_ne ht _ _)
    (update_self _ _ _) ⟨fl, ?_⟩ ⟨update tc o (b :: tc o), ?_⟩ (fun {a n' o' f} hab ha => ?_)
      (by simp)
  · refine hF.congr rfl rfl (fun x o' => relabel_iff hA .free (by simp) (by simp) x o')
      fun x n' o' hx => ⟨?_, rfl⟩
    rw [Mem.setNext_next, update_of_ne]
    rintro rfl
    simp [hA] at hx
  · have hnext : ∀ o', ∀ x ∈ tc o', (h.mem.setNext b (h.ctl.tcache o)).next x = h.mem.next x := by
      intro o' x hx
      rw [Mem.setNext_next, update_of_ne]
      rintro rfl
      exact hnot o' hx
    refine ⟨fun o' => ?_, fun o' => ?_, fun o' => ?_, fun o' x => ?_, fun o' => ?_, fun o' => ?_⟩
    all_goals rcases eq_or_ne o' o with rfl | hoo
    all_goals first | simp only [update_of_ne hoo] | simp only [update_self]
    · exact ⟨by rw [Mem.setNext_next, update_self, hT.head], (hT.path o').congr (hnext o')⟩
    · exact (hT.path o').congr (hnext o')
    · rfl
    · exact hT.head o'
    · rw [hT.count, List.length_cons]
    · exact hT.count o'
    · rw [List.mem_cons, hT.mem]
      by_cases hx : x = b
      · subst hx
        simp
      · simp [hx]
    · rw [hT.mem]
      by_cases hx : x = b
      · subst hx
        simp [hA, Ne.symm hoo]
      · rw [update_of_ne hx]
    · exact List.nodup_cons.2 ⟨hnot o', hT.nodup o'⟩
    · exact hT.nodup o'
    · rw [List.mem_cons, not_or]
      exact ⟨(hC.pos hA).symm, hT.pos o'⟩
    · exact hT.pos o'
  · have hne := (hC.cell_ne hA ha hab.symm le_rfl (by omega)).2.symm
    simp [Mem.setNext_lo, Mem.setNext_hi, update_of_ne hne]

theorem Core.tcachePop {h : Heap} {A : Blocks} (hC : Core h A) (o : ℕ) :
    tcachePop h o = some (0, h) ∨
      ∃ b n h', tcachePop h o = some (b, h') ∧ A b = some (n, o, .cached) ∧ Frame h h' ∧
        Core h' (update A b (some (n, o, .detached))) := by
  obtain ⟨fl, hF⟩ := hC.lists
  obtain ⟨tc, hT⟩ := hC.caches
  by_cases hc : h.ctl.tcacheCount o = 0
  · left
    simp [Buddy.tcachePop, hc]
  right
  obtain ⟨b, l, hl⟩ : ∃ b l, tc o = b :: l := by
    rw [hT.count] at hc
    exact List.exists_cons_of_length_pos (by omega)
  obtain ⟨n, hA⟩ := (hT.mem o b).1 (by simp [hl])
  have hhead : h.ctl.tcache o = b := by rw [hT.head, hl]; rfl
  have hpath := hT.path o
  rw [hl] at hpath
  have hv : h.ctl.linkValid (h.mem.next b) = true := by
    rw [hpath.1]
    rcases headD_mem_or (l := l) with h0 | hm
    · rw [h0]
      simp [BuddyList.linkValid]
    · obtain ⟨n', hn'⟩ := (hT.mem o _).1 (hl ▸ List.mem_cons_of_mem b hm)
      exact hC.linkValid hn'
  refine ⟨b, n,
    ⟨{ h.ctl with
        tcache := update h.ctl.tcache o (h.mem.next b)
        tcacheCount := update h.ctl.tcacheCount o (h.ctl.tcacheCount o - 1) }, h.mem⟩,
    by simp [Buddy.tcachePop, hc, hhead, hC.pos hA, hv], hA,
    ⟨⟨rfl, rfl, rfl, rfl, rfl⟩, rfl, rfl, rfl, rfl, rfl⟩, ?_⟩
  have hnd := hT.nodup o
  rw [hl] at hnd
  refine hC.relabel .detached hA ⟨rfl, rfl, rfl, rfl, rfl⟩ (fun _ _ => rfl) trivial ⟨fl, ?_⟩
    ⟨update tc o l, ?_⟩ (fun _ _ => ⟨rfl, rfl⟩) (by simp)
  · exact hF.congr rfl rfl (fun x o' => relabel_iff hA .free (by simp) (by simp) x o')
      fun _ _ _ _ => ⟨rfl, rfl⟩
  · refine ⟨fun o' => ?_, fun o' => ?_, fun o' => ?_, fun o' x => ?_, fun o' => ?_, fun o' => ?_⟩
    all_goals rcases eq_or_ne o' o with rfl | hoo
    all_goals first | simp only [update_of_ne hoo] | simp only [update_self]
    · exact hpath.2
    · exact hT.path o'
    · exact hpath.1
    · exact hT.head o'
    · rw [hT.count, hl, List.length_cons, Nat.add_sub_cancel]
    · exact hT.count o'
    · by_cases hx : x = b
      · subst hx
        simpa using (List.nodup_cons.1 hnd).1
      · rw [update_of_ne hx, ← hT.mem, hl, List.mem_cons]
        simp [hx]
    · rw [hT.mem]
      by_cases hx : x = b
      · subst hx
        simp [hA, Ne.symm hoo]
      · rw [update_of_ne hx]
    · exact (List.nodup_cons.1 hnd).2
    · exact hT.nodup o'
    · exact fun h0 => hT.pos o' (hl ▸ List.mem_cons_of_mem _ h0)
    · exact hT.pos o'

end AbcMalloc.Buddy
