import AbcMalloc.Buddy.Runs

/-! What the tags of `__buddy_list` say whatever stands in memory. Links, back links and tail
headers lie in memory a user may overwrite, tags do not: no operation marks an address as
allocated except the one it returns, and a deallocated address loses its mark. -/
namespace AbcMalloc.Buddy
open Function Foundation

def BuddyList.OnGrid (s : BuddyList) (a : ℕ) : Prop := s.base ≤ a ∧ 2 ^ s.minLog ∣ a - s.base

/-- Every head and every active slot is null or on the grid. -/
structure Gridded (s : BuddyList) : Prop where
  free : ∀ o, s.freeLists o ≠ 0 → s.OnGrid (s.freeLists o)
  cached : ∀ o, s.tcache o ≠ 0 → s.OnGrid (s.tcache o)
  active : ∀ o r, s.active o r ≠ 0 → s.OnGrid (s.active o r)

/-- Marks of allocated blocks may go, none appears. -/
structure Unmarks (s s' : BuddyList) : Prop where
  shape : SameShape s s'
  marks : ∀ t, s'.blockTags t < 128 → s.blockTags t < 128
  grid : Gridded s → Gridded s'

theorem onGrid_congr {s s' : BuddyList} (hs : SameShape s s') {a : ℕ} :
    s'.OnGrid a ↔ s.OnGrid a := by
  unfold BuddyList.OnGrid
  rw [hs.base, hs.minLog]

theorem onGrid_of_linkValid {s : BuddyList} {n : ℕ} (h : s.linkValid n = true) (hn : n ≠ 0) :
    s.OnGrid n := by
  simp only [BuddyList.linkValid, decide_eq_true_eq] at h
  obtain ⟨hlow, -, hmod⟩ := h.resolve_left hn
  exact ⟨hlow, Nat.dvd_of_mod_eq_zero hmod⟩

theorem onGrid_add {s : BuddyList} {off : ℕ} (h : 2 ^ s.minLog ∣ off) : s.OnGrid (s.base + off) :=
  ⟨Nat.le_add_right _ _, by rwa [Nat.add_sub_cancel_left]⟩

theorem OnGrid.unit {s : BuddyList} {a : ℕ} (h : s.OnGrid a) : s.unit (s.tagIndex a) = a := by
  unfold BuddyList.unit BuddyList.tagIndex
  rw [Nat.div_mul_cancel h.2]
  exact Nat.add_sub_cancel' h.1

theorem tagIndex_unit (s : BuddyList) (t : ℕ) : s.tagIndex (s.unit t) = t := by
  unfold BuddyList.unit BuddyList.tagIndex
  rw [Nat.add_sub_cancel_left, Nat.mul_div_cancel _ (Nat.two_pow_pos _)]

theorem le_tagFree (o : ℕ) : 128 ≤ tagFree o := by
  have hbit : tagFree o = o % 128 + 128 := by
    have h₁ : (o ||| 128) % 128 = o % 128 := by
      rw [show 128 = 2 ^ 7 from rfl, Nat.or_mod_two_pow]
      simp
    have h₂ : (o ||| 128) / 128 % 2 = 1 := by
      have := Nat.testBit_or o 128 7
      rw [Nat.testBit_eq_decide_div_mod_eq, show (128 : ℕ).testBit 7 = true from rfl,
        Bool.or_true, decide_eq_true_eq] at this
      exact this
    unfold tagFree
    omega
  omega

namespace Unmarks
variable {s s' s'' : BuddyList}

theorem refl (s : BuddyList) : Unmarks s s := ⟨.refl s, fun _ h => h, fun h => h⟩

theorem trans (h : Unmarks s s') (h' : Unmarks s' s'') : Unmarks s s'' :=
  ⟨h.shape.trans h'.shape, fun t ht => h.marks t (h'.marks t ht), fun hg => h'.grid (h.grid hg)⟩

theorem head (s : BuddyList) (o : ℕ) {n : ℕ} (hn : n ≠ 0 → s.OnGrid n) :
    Unmarks s { s with freeLists := update s.freeLists o n } := by
  refine ⟨⟨rfl, rfl, rfl, rfl, rfl⟩, fun _ h => h, fun hg => ⟨fun i hi => ?_, hg.cached, hg.active⟩⟩
  by_cases hio : i = o
  · subst hio
    simp only [update_self] at hi ⊢
    exact hn hi
  · simp only [update_of_ne hio] at hi ⊢
    exact hg.free i hi

theorem mask (s : BuddyList) (m : BitVec 64) : Unmarks s { s with freeMask := m } :=
  ⟨⟨rfl, rfl, rfl, rfl, rfl⟩, fun _ h => h, fun hg => ⟨hg.free, hg.cached, hg.active⟩⟩

theorem clearIfEmpty (s : BuddyList) (o : ℕ) : Unmarks s (s.clearIfEmpty o) := by
  unfold BuddyList.clearIfEmpty
  split_ifs
  · exact mask s _
  · exact refl s

theorem setTag (s : BuddyList) (t : ℕ) {v : ℕ} (hv : 128 ≤ v) : Unmarks s (s.setTag t v) := by
  refine ⟨⟨rfl, rfl, rfl, rfl, rfl⟩, fun i hi => ?_, fun hg => ⟨hg.free, hg.cached, hg.active⟩⟩
  by_cases hit : i = t
  · subst hit
    simp only [BuddyList.setTag, update_self] at hi
    omega
  · simpa only [BuddyList.setTag, update_of_ne hit] using hi

theorem cache (s : BuddyList) (o k : ℕ) {n : ℕ} (hn : n ≠ 0 → s.OnGrid n) :
    Unmarks s { s with
      tcache := update s.tcache o n
      tcacheCount := update s.tcacheCount o k } := by
  refine ⟨⟨rfl, rfl, rfl, rfl, rfl⟩, fun _ h => h, fun hg => ⟨hg.free, fun i hi => ?_, hg.active⟩⟩
  by_cases hio : i = o
  · subst hio
    simp only [update_self] at hi ⊢
    exact hn hi
  · simp only [update_of_ne hio] at hi ⊢
    exact hg.cached i hi

end Unmarks

/-! ## Lists, splits and caches -/

section Lists
variable (h : Heap)

theorem pushFree_unmarks {addr : ℕ} (o t : ℕ) (ha : h.ctl.OnGrid addr) :
    Unmarks h.ctl (pushFree h addr o t).ctl := by
  have hmask : Unmarks h.ctl (if h.ctl.freeLists o ≠ 0 then h.ctl
      else { h.ctl with freeMask := h.ctl.freeMask ||| (1#64 <<< o) }) := by
    by_cases h0 : h.ctl.freeLists o ≠ 0
    · rw [if_pos h0]
      exact .refl _
    · rw [if_neg h0]
      exact .mask _ _
  exact (hmask.trans (.head _ o fun _ => (onGrid_congr hmask.shape).2 ha)).trans
    (.setTag _ t (le_tagFree o))

theorem pushFree_tag (addr o t : ℕ) : (pushFree h addr o t).ctl.blockTags t = tagFree o := by
  rw [pushFree_blockTags, update_self]

theorem onGrid_link {n : ℕ} (hn : (if h.ctl.linkValid n then n else 0) ≠ 0) :
    h.ctl.OnGrid (if h.ctl.linkValid n then n else 0) := by
  split_ifs at hn ⊢ with hl
  · exact onGrid_of_linkValid hl hn
  · exact absurd rfl hn

theorem removeSlow_unmarks (buddy o : ℕ) : ∀ (fuel prev cur : ℕ),
    Unmarks h.ctl (removeSlow h buddy o fuel prev cur).2.ctl := by
  intro fuel
  induction fuel with
  | zero => exact fun _ _ => .refl _
  | succ fuel ih =>
    intro prev cur
    simp only [removeSlow]
    by_cases hcur : cur = 0
    · rw [if_pos hcur]
      exact .refl _
    rw [if_neg hcur]
    by_cases hb : cur = buddy
    · rw [if_pos hb]
      refine Unmarks.trans ?_ (.clearIfEmpty _ o)
      by_cases hp : prev ≠ 0
      · rw [if_pos hp]
        exact .refl _
      · rw [if_neg hp]
        exact .head _ o (onGrid_link h)
    · rw [if_neg hb]
      exact ih _ _

theorem freelistRemove_unmarks (buddy o : ℕ) : Unmarks h.ctl (freelistRemove h buddy o).2.ctl := by
  have hslow : Unmarks h.ctl (freelistRemoveSlow h buddy o).2.ctl := removeSlow_unmarks h _ _ _ _ _
  unfold freelistRemove
  dsimp only
  split_ifs with h₁ h₂ h₃ h₄ h₅
  · exact (Unmarks.head _ o fun hn => onGrid_of_linkValid h₂ hn).trans (.mask _ _)
  · exact Unmarks.head _ o fun hn => onGrid_of_linkValid h₂ hn
  all_goals first | exact hslow | exact .refl _

theorem splitDown_unmarks {blk : ℕ} (target : ℕ) : ∀ (o : ℕ) (h : Heap), h.ctl.OnGrid blk →
    Unmarks h.ctl (splitDown blk target o h).ctl := by
  intro o
  induction o with
  | zero => exact fun h _ => .refl _
  | succ o ih =>
    intro h hblk
    simp only [splitDown]
    split_ifs
    · have hright : h.ctl.OnGrid (blk + h.ctl.orderSize (o + 1) / 2) := by
        rw [orderSize_succ, Nat.mul_div_cancel_left _ (by norm_num)]
        refine ⟨by have := hblk.1; omega, ?_⟩
        rw [Nat.sub_add_comm hblk.1]
        exact (Nat.dvd_add_right hblk.2).2 (min_dvd_orderSize _ _)
      have hpush := pushFree_unmarks h o (h.ctl.tagIndex (blk + h.ctl.orderSize (o + 1) / 2)) hright
      exact hpush.trans (ih _ ((onGrid_congr hpush.shape).2 hblk))
    · exact .refl _

theorem takeAndSplit_unmarks {h h' : Heap} {o target b : ℕ} (hg : Gridded h.ctl)
    (hrun : takeAndSplit h o target = some (b, h')) :
    Unmarks h.ctl h'.ctl ∧ h.ctl.OnGrid b ∧ b ≠ 0 := by
  unfold takeAndSplit at hrun
  by_cases h0 : h.ctl.freeLists o = 0
  · simp [h0] at hrun
  simp only [if_neg h0, Option.some.injEq, Prod.mk.injEq] at hrun
  obtain ⟨rfl, rfl⟩ := hrun
  have hhead := Unmarks.head h.ctl o (onGrid_link h (n := h.mem.next (h.ctl.freeLists o)))
  have hb := hg.free o h0
  refine ⟨?_, hb, h0⟩
  by_cases hn : (if h.ctl.linkValid (h.mem.next (h.ctl.freeLists o)) then
      h.mem.next (h.ctl.freeLists o) else 0) = 0
  · rw [if_pos hn]
    have hmask := hhead.trans (.mask _ (h.ctl.freeMask &&& ~~~(1#64 <<< o)))
    exact hmask.trans (splitDown_unmarks target o ⟨_, h.mem⟩ ((onGrid_congr hmask.shape).2 hb))
  · rw [if_neg hn]
    exact hhead.trans (splitDown_unmarks target o ⟨_, h.mem⟩ ((onGrid_congr hhead.shape).2 hb))

theorem tcachePop_unmarks {h h' : Heap} {o b : ℕ} (hg : Gridded h.ctl)
    (hrun : tcachePop h o = some (b, h')) :
    Unmarks h.ctl h'.ctl ∧ (b ≠ 0 → h.ctl.OnGrid b) := by
  unfold tcachePop at hrun
  dsimp only at hrun
  by_cases hcount : h.ctl.tcacheCount o = 0
  · simp only [if_pos hcount, Option.some.injEq, Prod.mk.injEq] at hrun
    obtain ⟨rfl, rfl⟩ := hrun
    exact ⟨.refl _, fun h0 => absurd rfl h0⟩
  rw [if_neg hcount] at hrun
  by_cases h0 : h.ctl.tcache o = 0
  · simp [h0] at hrun
  simp only [if_neg h0, Option.some.injEq, Prod.mk.injEq] at hrun
  obtain ⟨rfl, rfl⟩ := hrun
  refine ⟨?_, fun _ => hg.cached o h0⟩
  split_ifs with hl
  · exact .cache _ o _ fun hn => onGrid_of_linkValid hl hn
  · exact .cache _ o _ fun hn => absurd rfl hn

end Lists

/-! ## Merging -/

theorem dvd_buddy {k j off : ℕ} (hk : k ≤ j) (h : 2 ^ k ∣ off) : 2 ^ k ∣ buddy j off := by
  apply Nat.dvd_of_mod_eq_zero
  rw [buddy, Nat.xor_mod_two_pow, Nat.mod_eq_zero_of_dvd h,
    Nat.mod_eq_zero_of_dvd (Nat.pow_dvd_pow 2 hk), Nat.xor_self]

/-- The block that is merged loses its mark, or stays the start of what is merged so far. -/
theorem mergeUp_unmarks : ∀ (fuel : ℕ) (h : Heap) (off o : ℕ), 2 ^ h.ctl.minLog ∣ off →
    Unmarks h.ctl (mergeUp fuel h off o).1.ctl ∧ 2 ^ h.ctl.minLog ∣ (mergeUp fuel h off o).2.1 ∧
      ((mergeUp fuel h off o).1.ctl.blockTags (off / 2 ^ h.ctl.minLog) < 128 →
        (mergeUp fuel h off o).2.1 = off) := by
  intro fuel
  induction fuel with
  | zero => exact fun h off o hoff => ⟨.refl _, hoff, fun _ => rfl⟩
  | succ fuel ih =>
    intro h off o hoff
    simp only [mergeUp]
    by_cases htag : h.ctl.blockTags (buddy (h.ctl.minLog + o) off / 2 ^ h.ctl.minLog) ≠ tagFree o
    · rw [if_pos htag]
      exact ⟨.refl _, hoff, fun _ => rfl⟩
    rw [if_neg htag]
    have hrem := freelistRemove_unmarks h (h.ctl.base + buddy (h.ctl.minLog + o) off) o
    generalize freelistRemove h (h.ctl.base + buddy (h.ctl.minLog + o) off) o = r at hrem ⊢
    by_cases hr : r.1 = false
    · rw [if_pos hr]
      exact ⟨hrem, hoff, fun _ => rfl⟩
    rw [if_neg hr]
    have hbuddy : 2 ^ h.ctl.minLog ∣ buddy (h.ctl.minLog + o) off := dvd_buddy (by omega) hoff
    have hset : ∀ t, Unmarks h.ctl (r.2.ctl.setTag t 255) := fun t =>
      hrem.trans (.setTag _ _ (by norm_num))
    by_cases hlt : off < buddy (h.ctl.minLog + o) off
    · rw [if_pos hlt, if_neg (by omega)]
      have := ih ⟨r.2.ctl.setTag (buddy (h.ctl.minLog + o) off / 2 ^ h.ctl.minLog) 255, r.2.mem⟩
        off (o + 1) (by rw [(hset _).shape.minLog]; exact hoff)
      rw [(hset _).shape.minLog] at this
      exact ⟨(hset _).trans this.1, this.2⟩
    · have hne := buddy_ne (h.ctl.minLog + o) off
      rw [if_neg hlt, if_pos (by omega)]
      have := ih ⟨r.2.ctl.setTag (off / 2 ^ h.ctl.minLog) 255, r.2.mem⟩
        (buddy (h.ctl.minLog + o) off) (o + 1) (by rw [(hset _).shape.minLog]; exact hbuddy)
      rw [(hset _).shape.minLog] at this
      refine ⟨(hset _).trans this.1, this.2.1, fun hmark => ?_⟩
      have := this.1.marks _ hmark
      simp only [BuddyList.setTag, update_self] at this
      omega

theorem mergeAndFree_unmarks (h : Heap) {addr : ℕ} (o : ℕ) (ha : h.ctl.OnGrid addr) :
    Unmarks h.ctl (mergeAndFree h addr o).ctl ∧
      128 ≤ (mergeAndFree h addr o).ctl.blockTags (h.ctl.tagIndex addr) := by
  obtain ⟨hup, hdvd, hfirst⟩ :=
    mergeUp_unmarks (h.ctl.maxOrder - 1 - o) h (addr - h.ctl.base) o ha.2
  unfold mergeAndFree freelistPushOff
  dsimp only
  generalize mergeUp (h.ctl.maxOrder - 1 - o) h (addr - h.ctl.base) o = r at hup hdvd hfirst ⊢
  have hml : r.1.ctl.minLog = h.ctl.minLog := hup.shape.minLog
  have hgrid : r.1.ctl.OnGrid (r.1.ctl.base + r.2.1) := onGrid_add (by rwa [hml])
  have hpush := pushFree_unmarks r.1 r.2.2 (r.2.1 / 2 ^ r.1.ctl.minLog) hgrid
  refine ⟨hup.trans hpush, not_lt.1 fun hmark => ?_⟩
  have hat : r.2.1 = addr - h.ctl.base := hfirst (hpush.marks _ hmark)
  rw [hat, hml, show h.ctl.tagIndex addr = (addr - h.ctl.base) / 2 ^ h.ctl.minLog from rfl,
    pushFree_tag] at hmark
  have := le_tagFree r.2.2
  omega

/-! ## Operations -/

/-- A request marks the address it returns, and no other. -/
structure Marks (s s' : BuddyList) (b : ℕ) : Prop where
  shape : SameShape s s'
  marks : ∀ t, s'.blockTags t < 128 → s.blockTags t < 128 ∨ s'.unit t = b
  grid : Gridded s'

theorem Unmarks.toMarks {s s' : BuddyList} (h : Unmarks s s') (hg : Gridded s) (b : ℕ) :
    Marks s s' b :=
  ⟨h.shape, fun t ht => Or.inl (h.marks t ht), h.grid hg⟩

theorem handOut_marks {h h' : Heap} {b : ℕ} (o f : ℕ) (hU : Unmarks h.ctl h'.ctl)
    (hg : Gridded h.ctl) (hb : h.ctl.OnGrid b) : Marks h.ctl (handOut h' b o f).2.ctl b := by
  refine ⟨hU.shape.trans ⟨rfl, rfl, rfl, rfl, rfl⟩, fun t ht => ?_, ?_⟩
  · by_cases htb : t = h'.ctl.tagIndex b
    · subst htb
      exact Or.inr (OnGrid.unit ((onGrid_congr hU.shape).2 hb))
    · simp only [handOut, BuddyList.setTag, update_of_ne htb] at ht
      exact Or.inl (hU.marks t ht)
  · have := hU.grid hg
    exact ⟨this.free, this.cached, this.active⟩

theorem handOutTemporal_marks {h h' : Heap} {b : ℕ} (o r : ℕ) (hU : Unmarks h.ctl h'.ctl)
    (hg : Gridded h.ctl) (hb : h.ctl.OnGrid b) :
    Marks h.ctl (handOutTemporal h' b o r).2.ctl b := by
  obtain ⟨hshape, hmarks, hgrid⟩ := handOut_marks o (blockAlloc + blockTemporal) hU hg hb
  refine ⟨hshape.trans ⟨rfl, rfl, rfl, rfl, rfl⟩, hmarks, hgrid.free, hgrid.cached,
    fun i j hij => ?_⟩
  have hbg := (onGrid_congr hshape).2 hb
  by_cases hi : i = o
  · subst hi
    by_cases hj : j = r
    · subst hj
      simp only [handOutTemporal, update_self] at hij ⊢
      exact hbg
    · simp only [handOutTemporal, update_self, update_of_ne hj] at hij ⊢
      exact hgrid.active i j hij
  · simp only [handOutTemporal, update_of_ne hi] at hij ⊢
    exact hgrid.active i j hij

theorem allocate_marks {h h' : Heap} {n : ℕ} {c : Chunk} (hg : Gridded h.ctl)
    (hrun : allocate h n = some (c, h')) :
    Marks h.ctl h'.ctl c.ptr ∧ (c.ptr = 0 → h' = h) := by
  have hnull : some (Chunk.null, h) = some (c, h') → Marks h.ctl h'.ctl c.ptr ∧
    (c.ptr = 0 → h' = h) := by
    intro he
    cases he
    exact ⟨(Unmarks.refl _).toMarks hg _, fun _ => rfl⟩
  unfold allocate at hrun
  dsimp only at hrun
  split_ifs at hrun
  · exact hnull hrun
  · exact hnull hrun
  · exact hnull hrun
  · exact hnull hrun
  · obtain ⟨⟨b, h₁⟩, htake, hout⟩ := Option.bind_eq_some_iff.1 hrun
    obtain ⟨hU, hb, hb0⟩ := takeAndSplit_unmarks hg htake
    cases hout
    exact ⟨handOut_marks _ _ hU hg hb, fun h0 => absurd h0 hb0⟩

theorem temporalAllocate_marks {h h' : Heap} {n : ℕ} {c : Chunk} (hg : Gridded h.ctl)
    (hrun : temporalAllocate h n = some (c, h')) :
    Marks h.ctl h'.ctl c.ptr ∧ (c.ptr = 0 → Unmarks h.ctl h'.ctl) := by
  have hnull : ∀ {h₁ : Heap}, Unmarks h.ctl h₁.ctl → some (Chunk.null, h₁) = some (c, h') →
      Marks h.ctl h'.ctl c.ptr ∧ (c.ptr = 0 → Unmarks h.ctl h'.ctl) := by
    intro h₁ hU he
    cases he
    exact ⟨hU.toMarks hg _, fun _ => hU⟩
  unfold temporalAllocate at hrun
  dsimp only at hrun
  split_ifs at hrun with h₁ h₂ h₃ h₄
  · exact hnull (.refl _) hrun
  · exact hnull (.refl _) hrun
  · exact hnull (.refl _) hrun
  · simp only [Option.some.injEq, Prod.mk.injEq] at hrun
    obtain ⟨rfl, rfl⟩ := hrun
    have hU : Unmarks h.ctl { h.ctl with
        activeRotor := update h.ctl.activeRotor (h.ctl.orderForSize (n + 32))
          (activeSlot h.ctl (h.ctl.orderForSize (n + 32)) ^^^ 1) } :=
      ⟨⟨rfl, rfl, rfl, rfl, rfl⟩, fun _ ht => ht, fun hg => ⟨hg.free, hg.cached, hg.active⟩⟩
    exact ⟨hU.toMarks hg _, fun _ => hU⟩
  · obtain ⟨⟨b, h₅⟩, hpop, hrest⟩ := Option.bind_eq_some_iff.1 hrun
    obtain ⟨hU, hb⟩ := tcachePop_unmarks hg hpop
    dsimp only at hrest
    by_cases hb0 : b ≠ 0
    · rw [if_pos hb0] at hrest
      cases hrest
      exact ⟨handOutTemporal_marks _ _ hU hg (hb hb0), fun h0 => absurd h0 hb0⟩
    rw [if_neg hb0] at hrest
    split_ifs at hrest
    · exact hnull hU hrest
    · obtain ⟨⟨b', h₆⟩, htake, hout⟩ := Option.bind_eq_some_iff.1 hrest
      obtain ⟨hU', hb', hb0'⟩ := takeAndSplit_unmarks (hU.grid hg) htake
      cases hout
      exact ⟨handOutTemporal_marks _ _ (hU.trans hU') hg ((onGrid_congr hU.shape).1 hb'),
        fun h0 => absurd h0 hb0'⟩

theorem clearActive_unmarks (s : BuddyList) (addr o : ℕ) : Unmarks s (clearActive s addr o) := by
  have hslot : ∀ r, Unmarks s { s with active := update s.active o (update (s.active o) r 0) } := by
    intro r
    refine ⟨⟨rfl, rfl, rfl, rfl, rfl⟩, fun _ ht => ht,
      fun hg => ⟨hg.free, hg.cached, fun i j hij => ?_⟩⟩
    by_cases hi : i = o
    · subst hi
      by_cases hj : j = r
      · subst hj
        simp at hij
      · simp only [update_self, update_of_ne hj] at hij ⊢
        exact hg.active i j hij
    · simp only [update_of_ne hi] at hij ⊢
      exact hg.active i j hij
  unfold clearActive
  split_ifs
  · exact hslot 0
  · exact hslot 1
  · exact .refl s

/-- A deallocated address loses its mark. -/
theorem deallocate_unmarks {h : Heap} {p : ℕ} (hal : isAllocated h p = true) :
    Unmarks h.ctl (deallocate h p).2.ctl ∧
      ((deallocate h p).1 = .ok → 128 ≤ (deallocate h p).2.ctl.blockTags (h.ctl.tagIndex p)) := by
  have hp : h.ctl.OnGrid p := by
    simp only [isAllocated, Bool.and_eq_true, decide_eq_true_eq] at hal
    obtain ⟨⟨⟨⟨⟨⟨-, -⟩, hlow⟩, -⟩, hmod⟩, -⟩, -⟩ := hal
    exact ⟨hlow, Nat.dvd_of_mod_eq_zero hmod⟩
  -- freeing from any state that only lost marks
  have hfree : ∀ (h₁ : Heap) (o : ℕ), Unmarks h.ctl h₁.ctl →
      Unmarks h.ctl (mergeAndFree h₁ p o).ctl ∧
        128 ≤ (mergeAndFree h₁ p o).ctl.blockTags (h.ctl.tagIndex p) := by
    intro h₁ o hU
    obtain ⟨hM, htag⟩ := mergeAndFree_unmarks h₁ o ((onGrid_congr hU.shape).2 hp)
    rw [hU.shape.tagIndex] at htag
    exact ⟨hU.trans hM, htag⟩
  have hcount : ∀ a b : ℕ, Unmarks h.ctl { h.ctl with allocatedBytes := a, tombstonedBytes := b } :=
    fun a b => ⟨⟨rfl, rfl, rfl, rfl, rfl⟩, fun _ ht => ht,
      fun hg => ⟨hg.free, hg.cached, hg.active⟩⟩
  unfold deallocate
  dsimp only
  rw [if_neg (by simp [hal])]
  by_cases h₁ : h.ctl.maxOrder ≤ h.mem.lo (h.ctl.hdrOfTagged p)
  · rw [if_pos h₁]
    exact ⟨.refl _, fun he => by cases he⟩
  rw [if_neg h₁]
  by_cases h₂ : h.mem.hi (h.ctl.hdrOfTagged p) = blockFree
  · rw [if_pos h₂]
    exact ⟨.refl _, fun he => by cases he⟩
  rw [if_neg h₂]
  generalize hs : (BuddyList.mk _ _ _ _ _ _ _ _ _ _ _ _ _ _ _ : BuddyList) = s
  have hU : Unmarks h.ctl s := hs ▸ hcount _ _
  by_cases h₃ : h.mem.hi (h.ctl.hdrOfTagged p) &&& blockTemporal ≠ 0
  · rw [if_pos h₃]
    have hclear := hU.trans (clearActive_unmarks s p (h.mem.lo (h.ctl.hdrOfTagged p)))
    generalize clearActive s p (h.mem.lo (h.ctl.hdrOfTagged p)) = s' at hclear
    unfold tcachePush
    dsimp only
    by_cases h₄ : 4 ≤ s'.tcacheCount (h.mem.lo (h.ctl.hdrOfTagged p))
    · rw [if_pos h₄, if_neg (by simp)]
      obtain ⟨h₅, h₆⟩ := hfree ⟨s', h.mem⟩ (h.mem.lo (h.ctl.hdrOfTagged p)) hclear
      exact ⟨h₅, fun _ => h₆⟩
    · rw [if_neg h₄, if_pos rfl]
      have hpush := hclear.trans (.cache s' (h.mem.lo (h.ctl.hdrOfTagged p))
        (s'.tcacheCount (h.mem.lo (h.ctl.hdrOfTagged p)) + 1)
        fun _ => (onGrid_congr hclear.shape).2 hp)
      refine ⟨hpush.trans (.setTag _ _ (by norm_num)), fun _ => ?_⟩
      rw [← hpush.shape.tagIndex]
      simp [BuddyList.setTag]
  · rw [if_neg h₃]
    obtain ⟨h₅, h₆⟩ := hfree ⟨s, h.mem⟩ (h.mem.lo (h.ctl.hdrOfTagged p)) hU
    exact ⟨h₅, fun _ => h₆⟩

end AbcMalloc.Buddy
