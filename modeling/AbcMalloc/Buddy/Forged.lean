import AbcMalloc.Buddy.Checked
import AbcMalloc.Buddy.Rejects

/-! What forged links can reach. A link is followed when it is a unit of the pool, whatever block
lies there. That alone keeps the walks of the lists inside the pool; the requests that split or
mark the block behind a forged link also need the block to fit. -/
namespace AbcMalloc.Buddy
open Function Foundation

/-- A unit of the pool, as `__link_valid` tests it. -/
def BuddyList.Inside (s : BuddyList) (a : ℕ) : Prop := s.linkValid a = true ∧ a ≠ 0

/-- Heads are units or null, the mask names lists that are not empty, and the tail headers of the
blocks that are marked as allocated lie in the pool. Nothing is said of the memory. -/
structure Fenced (s : BuddyList) : Prop where
  free : ∀ o, s.linkValid (s.freeLists o) = true
  cached : ∀ o, s.linkValid (s.tcache o) = true
  mask : ∀ o, o < 64 → s.freeMask.getLsbD o = true → s.freeLists o ≠ 0
  marked : ∀ t, t < s.tagCount → s.blockTags t < s.maxOrder →
    s.hdrOf (s.unit t) (s.blockTags t) < s.base + s.total

structure Stays (s s' : BuddyList) : Prop where
  shape : SameShape s s'
  fenced : Fenced s'

section Geometry
variable {s s' : BuddyList} {a o : ℕ}

theorem linkValid_congr (h : SameShape s s') (a : ℕ) : s'.linkValid a = s.linkValid a := by
  unfold BuddyList.linkValid
  rw [h.base, h.total, h.minLog]

theorem BuddyList.Inside.congr (h : SameShape s s') (ha : s.Inside a) : s'.Inside a := by
  unfold BuddyList.Inside
  rw [linkValid_congr h]
  exact ha

theorem Geometry.min_dvd (hg : Geometry s) : 32 ∣ 2 ^ s.minLog :=
  Nat.pow_dvd_pow 2 hg.minLog_ge

/-- A cell that starts in the pool ends in it. -/
theorem Geometry.room (hg : Geometry s) (hlow : s.base ≤ a) (hcell : 32 ∣ a - s.base)
    (hup : a < s.base + s.total) : a + 32 ≤ s.base + s.total := by
  have htotal : 32 ∣ s.total := hg.min_dvd.trans hg.dvd
  omega

theorem BuddyList.Inside.bounds (hg : Geometry s) (ha : s.Inside a) :
    s.base ≤ a ∧ 2 ^ s.minLog ∣ a - s.base ∧ a + 32 ≤ s.base + s.total := by
  obtain ⟨hvalid, h0⟩ := ha
  simp only [BuddyList.linkValid, decide_eq_true_eq] at hvalid
  obtain ⟨hlow, hup, hmod⟩ := hvalid.resolve_left h0
  have hdvd := Nat.dvd_of_mod_eq_zero hmod
  exact ⟨hlow, hdvd, hg.room hlow (hg.min_dvd.trans hdvd) hup⟩

theorem inside_of_dvd (hg : Geometry s) (hlow : s.base ≤ a) (hdvd : 2 ^ s.minLog ∣ a - s.base)
    (hup : a < s.base + s.total) : s.Inside a := by
  have hbase := hg.base_pos
  refine ⟨?_, by omega⟩
  simp only [BuddyList.linkValid, decide_eq_true_eq]
  exact Or.inr ⟨hlow, hup, Nat.mod_eq_zero_of_dvd hdvd⟩

theorem BuddyList.Inside.tagIndex_lt (hg : Geometry s) (ha : s.Inside a) : s.tagIndex a <
    s.tagCount := by
  obtain ⟨hlow, -, hroom⟩ := ha.bounds hg
  rw [hg.tagCount]
  exact Nat.div_lt_div_of_lt_of_dvd hg.dvd (by omega)

theorem BuddyList.Inside.onGrid (hg : Geometry s) (ha : s.Inside a) : s.OnGrid a :=
  ⟨(ha.bounds hg).1, (ha.bounds hg).2.1⟩

theorem inside_of_link {n : ℕ} (h : s.linkValid n = true) (hn : n ≠ 0) : s.Inside n := ⟨h, hn⟩

theorem linkValid_zero (s : BuddyList) : s.linkValid 0 = true := by simp [BuddyList.linkValid]

theorem linkValid_link (n : ℕ) : s.linkValid (if s.linkValid n then n else 0) = true := by
  split_ifs with hn
  · exact hn
  · exact linkValid_zero s

theorem BuddyList.Inside.header (hg : Geometry s) (ha : s.Inside a)
    (hup : s.hdrOf a o < s.base + s.total) :
    s.base ≤ s.hdrOf a o ∧ s.hdrOf a o + 32 ≤ s.base + s.total := by
  obtain ⟨hlow, hdvd, -⟩ := ha.bounds hg
  have hsize : 32 ∣ s.orderSize o := hg.min_dvd.trans (min_dvd_orderSize s o)
  have hpos := orderSize_pos s o
  have hcell : 32 ∣ a - s.base := hg.min_dvd.trans hdvd
  have hle : s.base ≤ s.hdrOf a o := by
    unfold BuddyList.hdrOf
    omega
  refine ⟨hle, hg.room hle ?_ hup⟩
  unfold BuddyList.hdrOf at hle ⊢
  omega

end Geometry

namespace Fenced
variable {s : BuddyList} {o n : ℕ}

theorem refl (hF : Fenced s) : Stays s s := ⟨.refl s, hF⟩

/-- The lists, the caches, the mask and the tags are all that counts. -/
theorem congr {s' : BuddyList} (hF : Fenced s) (hs : SameShape s s')
    (hfree : s'.freeLists = s.freeLists) (hcached : s'.tcache = s.tcache)
    (hmask : s'.freeMask = s.freeMask) (htags : s'.blockTags = s.blockTags) : Stays s s' := by
  refine ⟨hs, fun o => ?_, fun o => ?_, fun o ho => ?_, fun t ht => ?_⟩
  · rw [linkValid_congr hs, hfree]
    exact hF.free o
  · rw [linkValid_congr hs, hcached]
    exact hF.cached o
  · rw [hmask, hfree]
    exact hF.mask o ho
  · rw [hs.tagCount] at ht
    rw [htags, hs.maxOrder, hs.base, hs.total, BuddyList.hdrOf, hs.orderSize, hs.unit]
    exact hF.marked t ht

/-- A new head; the mask bit goes with the last block. -/
theorem head (hF : Fenced s) (ho : o < 64) (hn : s.linkValid n = true) :
    Stays s ({ s with freeLists := update s.freeLists o n }.clearIfEmpty o) := by
  have hvalid : ∀ i, s.linkValid (update s.freeLists o n i) = true := by
    intro i
    rw [update_apply]
    split_ifs
    · exact hn
    · exact hF.free i
  unfold BuddyList.clearIfEmpty
  split_ifs with h0
  · refine ⟨⟨rfl, rfl, rfl, rfl, rfl⟩, hvalid, hF.cached, fun i hi hbit => ?_, hF.marked⟩
    rw [getLsbD_clearBit _ ho, Bool.and_eq_true, decide_eq_true_eq] at hbit
    simp only [update_of_ne hbit.2]
    exact hF.mask i hi hbit.1
  · refine ⟨⟨rfl, rfl, rfl, rfl, rfl⟩, hvalid, hF.cached, fun i hi hbit => ?_, hF.marked⟩
    by_cases hio : i = o
    · rw [hio]
      exact h0
    · simp only [update_of_ne hio]
      exact hF.mask i hi hbit

theorem takeHead (hF : Fenced s) (ho : o < 64) (hn : s.linkValid n = true) :
    Stays s (if n = 0 then
      { s with
        freeLists := update s.freeLists o n
        freeMask := s.freeMask &&& ~~~(1#64 <<< o) }
      else { s with freeLists := update s.freeLists o n }) := by
  have := hF.head ho hn
  unfold BuddyList.clearIfEmpty at this
  simpa only [update_self] using this

theorem clearIfEmpty (hF : Fenced s) (ho : o < 64) : Stays s (s.clearIfEmpty o) := by
  have := hF.head ho (hF.free o)
  rwa [update_eq_self] at this

theorem push {m : BitVec 64} (hF : Fenced s) (hn : s.Inside n)
    (hm : ∀ i, i < 64 → i ≠ o → m.getLsbD i = true → s.freeMask.getLsbD i = true) :
    Stays s { s with freeMask := m, freeLists := update s.freeLists o n } := by
  refine ⟨⟨rfl, rfl, rfl, rfl, rfl⟩, fun i => ?_, hF.cached, fun i hi hbit => ?_, hF.marked⟩
  · show s.linkValid (update s.freeLists o n i) = true
    rw [update_apply]
    split_ifs
    · exact hn.1
    · exact hF.free i
  · show update s.freeLists o n i ≠ 0
    rw [update_apply]
    split_ifs with hio
    · exact hn.2
    · exact hF.mask i hi (hm i hi hio hbit)

/-- Tags that mark nothing, or a block whose header lies in the pool. -/
theorem setTag (hF : Fenced s) (t : ℕ) {v : ℕ}
    (hv : v < s.maxOrder → s.hdrOf (s.unit t) v < s.base + s.total) : Stays s (s.setTag t v) := by
  refine ⟨⟨rfl, rfl, rfl, rfl, rfl⟩, hF.free, hF.cached, hF.mask, fun i hi => ?_⟩
  show update s.blockTags t v i < s.maxOrder →
    s.hdrOf (s.unit i) (update s.blockTags t v i) < s.base + s.total
  rw [update_apply]
  split_ifs with hit
  · rw [hit]
    exact hv
  · exact hF.marked i hi

theorem setTag_unmarked (hF : Fenced s) (hg : Geometry s) (t : ℕ) {v : ℕ} (hv : 128 ≤ v) :
    Stays s (s.setTag t v) := by
  have h64 := hg.order_le
  exact hF.setTag t fun hlt => by omega

theorem cache (hF : Fenced s) (o k : ℕ) (hn : s.linkValid n = true) :
    Stays s { s with
      tcache := update s.tcache o n
      tcacheCount := update s.tcacheCount o k } := by
  refine ⟨⟨rfl, rfl, rfl, rfl, rfl⟩, hF.free, fun i => ?_, hF.mask, hF.marked⟩
  show s.linkValid (update s.tcache o n i) = true
  rw [update_apply]
  split_ifs
  · exact hn
  · exact hF.cached i

end Fenced

/-- A list between two operations of a client that writes in place is fenced. -/
theorem Inv.fenced {h : Heap} {A : Blocks} (hI : Inv h A) : Fenced h.ctl := by
  obtain ⟨fl, hfl⟩ := hI.lists
  obtain ⟨tc, htc⟩ := hI.caches
  have h64 := hI.geo.order_le
  refine ⟨fun o => ?_, fun o => ?_, fun o ho hbit => ?_, fun t ht hord => ?_⟩
  · rw [hfl.head o]
    exact hI.linkValid_of_mem hfl headD_mem_or
  · rw [htc.head o]
    rcases headD_mem_or (l := tc o) with h0 | hmem
    · rw [h0]
      exact linkValid_zero _
    · obtain ⟨n, hA⟩ := (htc.mem o _).1 hmem
      exact hI.linkValid hA
  · rw [hfl.head o]
    exact fun h0 => (hfl.mask o ho).1 hbit ((headD_eq_zero (hfl.pos o)).1 h0)
  · have htag : TagOf (A (h.ctl.unit t)) (h.ctl.blockTags t) := hI.tags t ht
    cases hA : A (h.ctl.unit t) with
    | none =>
      rw [hA] at htag
      have : h.ctl.blockTags t = 255 := htag
      omega
    | some v =>
      obtain ⟨n, o, k⟩ := v
      rw [hA] at htag
      cases k with
      | free =>
        have hfree : h.ctl.blockTags t = tagFree o := htag
        have := le_tagFree o
        omega
      | cached =>
        have : h.ctl.blockTags t = 255 := htag
        omega
      | inUse f =>
        have ho : h.ctl.blockTags t = o := htag
        obtain ⟨-, hup, hroom⟩ := hI.within hA
        have hlim := hI.limit_le
        rw [ho, BuddyList.hdrOf, ← (hI.size hA).1]
        omega
      | detached => exact absurd hA hI.closed

namespace Stays
variable {s s' s'' : BuddyList}

theorem trans (h : Stays s s') (h' : Stays s' s'') : Stays s s'' :=
  ⟨h.shape.trans h'.shape, h'.fenced⟩

theorem geometry (h : Stays s s') (hg : Geometry s) : Geometry s' := h.shape.geometry hg

end Stays

namespace Checked

/-! ## Accesses -/

section Accesses
variable {h : Heap} {a t : ℕ} (hg : Geometry h.ctl)
include hg

theorem readNext_inside (ha : h.ctl.Inside a) : readNext h a = some (h.mem.next a) := by
  obtain ⟨hlow, -, hroom⟩ := ha.bounds hg
  simp [readNext, touch, hlow, show a + 8 ≤ h.ctl.base + h.ctl.total by omega]

theorem readPrev_inside (ha : h.ctl.Inside a) : readPrev h a = some (h.mem.w1 a) := by
  obtain ⟨hlow, -, hroom⟩ := ha.bounds hg
  simp [readPrev, touch, show h.ctl.base ≤ a + 8 by omega,
    show a + 8 + 8 ≤ h.ctl.base + h.ctl.total by omega]

theorem writeNext_inside (ha : h.ctl.Inside a) (v : ℕ) :
    writeNext h a v = some ⟨h.ctl, h.mem.setNext a v⟩ := by
  obtain ⟨hlow, -, hroom⟩ := ha.bounds hg
  simp [writeNext, touch, hlow, show a + 8 ≤ h.ctl.base + h.ctl.total by omega]

theorem linkBack_valid (ha : h.ctl.linkValid a = true) (v : ℕ) :
    linkBack h a v = some ⟨h.ctl, if a ≠ 0 then h.mem.setW1 a v else h.mem⟩ := by
  unfold linkBack
  split_ifs with h0
  · obtain ⟨hlow, -, hroom⟩ := (inside_of_link ha h0).bounds hg
    simp [writePrev, touch, show h.ctl.base ≤ a + 8 by omega,
      show a + 8 + 8 ≤ h.ctl.base + h.ctl.total by omega]
  · rfl

end Accesses

section Headers
variable {h : Heap} {a : ℕ} (hlow : h.ctl.base ≤ a) (hroom : a + 32 ≤ h.ctl.base + h.ctl.total)
include hlow hroom

theorem readOrder_header : readOrder h a = some (h.mem.lo a) := by
  simp [readOrder, touch, hlow, show a + 4 ≤ h.ctl.base + h.ctl.total by omega]

theorem readFlags_header : readFlags h a = some (h.mem.hi a) := by
  simp [readFlags, touch, show h.ctl.base ≤ a + 4 by omega,
    show a + 4 + 4 ≤ h.ctl.base + h.ctl.total by omega]

theorem writeOrder_header (v : ℕ) : writeOrder h a v = some ⟨h.ctl, h.mem.setLo a v⟩ := by
  simp [writeOrder, touch, hlow, show a + 4 ≤ h.ctl.base + h.ctl.total by omega]

theorem writeFlags_header (v : ℕ) : writeFlags h a v = some ⟨h.ctl, h.mem.setHi a v⟩ := by
  simp [writeFlags, touch, show h.ctl.base ≤ a + 4 by omega,
    show a + 4 + 4 ≤ h.ctl.base + h.ctl.total by omega]

end Headers

theorem readTag_lt {h : Heap} {t : ℕ} (ht : t < h.ctl.tagCount) :
    readTag h t = some (h.ctl.blockTags t) := by
  simp [readTag, touchTag, ht]

theorem writeTag_lt {h : Heap} {t : ℕ} (ht : t < h.ctl.tagCount) (v : ℕ) :
    writeTag h t v = some ⟨h.ctl.setTag t v, h.mem⟩ := by
  simp [writeTag, touchTag, ht]

/-! ## Lists -/

section Lists
variable {h : Heap} {buddy addr o prev next : ℕ} (hg : Geometry h.ctl) (hF : Fenced h.ctl)
include hg hF

theorem unlinkAfter_fenced (ho : o < 64) (hprev : h.ctl.linkValid prev = true)
    (hnext : h.ctl.linkValid next = true) :
    unlinkAfter h o prev next = some (true,
      ⟨(if prev ≠ 0 then h.ctl
          else { h.ctl with freeLists := update h.ctl.freeLists o next }).clearIfEmpty o,
        let m := if prev ≠ 0 then h.mem.setNext prev next else h.mem
        if prev ≠ 0 ∧ next ≠ 0 then m.setW1 next prev else m⟩) ∧
      Stays h.ctl ((if prev ≠ 0 then h.ctl
        else { h.ctl with freeLists := update h.ctl.freeLists o next }).clearIfEmpty o) := by
  unfold unlinkAfter
  by_cases hp : prev ≠ 0
  · have hback := linkBack_valid (h := ⟨h.ctl, h.mem.setNext prev next⟩) hg hnext prev
    simp only [if_pos hp, writeNext_inside hg (inside_of_link hprev hp), hback,
      Option.bind_eq_bind, Option.bind_some]
    exact ⟨by simp [hp], hF.clearIfEmpty ho⟩
  · simp only [if_neg hp]
    exact ⟨by simp [hp], hF.head ho hnext⟩

theorem removeSlow_fenced (ho : o < 64) : ∀ fuel prev cur, h.ctl.linkValid prev = true →
    h.ctl.linkValid cur = true →
    removeSlow h buddy o fuel prev cur = some (Buddy.removeSlow h buddy o fuel prev cur) ∧
      Stays h.ctl (Buddy.removeSlow h buddy o fuel prev cur).2.ctl := by
  intro fuel
  induction fuel with
  | zero => exact fun _ _ _ _ => ⟨rfl, hF.refl⟩
  | succ fuel ih =>
    intro prev cur hprev hcur
    simp only [removeSlow, Buddy.removeSlow]
    by_cases h0 : cur = 0
    · rw [if_pos h0, if_pos h0]
      exact ⟨rfl, hF.refl⟩
    rw [if_neg h0, if_neg h0, readNext_inside hg (inside_of_link hcur h0)]
    simp only [Option.bind_eq_bind, Option.bind_some]
    have hnext := linkValid_link (s := h.ctl) (h.mem.next cur)
    by_cases hb : cur = buddy
    · rw [if_pos hb, if_pos hb]
      obtain ⟨hrun, hstays⟩ := unlinkAfter_fenced hg hF ho hprev hnext
      exact ⟨hrun, hstays⟩
    · rw [if_neg hb, if_neg hb]
      exact ih cur _ hcur hnext

theorem freelistRemoveSlow_fenced (buddy : ℕ) (ho : o < 64) :
    freelistRemoveSlow h buddy o = some (Buddy.freelistRemoveSlow h buddy o) ∧
      Stays h.ctl (Buddy.freelistRemoveSlow h buddy o).2.ctl :=
  removeSlow_fenced hg hF ho _ 0 _ (linkValid_zero _) (hF.free o)

omit hF in
/-- The slow walk is taken, or both links of the block are units that point back. -/
theorem mismatched_eq (hnext : h.ctl.linkValid next = true) :
    mismatched h prev next buddy = some (decide (¬h.ctl.linkValid prev ∨ prev = 0 ∨
      h.mem.next prev ≠ buddy ∨ (next ≠ 0 ∧ h.mem.w1 next ≠ buddy))) := by
  unfold mismatched
  by_cases hp : ¬h.ctl.linkValid prev ∨ prev = 0
  · rw [if_pos hp]
    rcases hp with hp | hp <;> simp [hp]
  rw [if_neg hp]
  obtain ⟨hvalid, h0⟩ := not_or.1 hp
  rw [not_not] at hvalid
  simp only [readNext_inside hg (inside_of_link hvalid h0), Option.bind_eq_bind, Option.bind_some]
  by_cases hforth : h.mem.next prev ≠ buddy
  · simp [hforth]
  rw [if_neg hforth]
  unfold badBack
  by_cases hn : next = 0
  · simp [hn, hvalid, h0, not_not.1 hforth]
  · simp [hn, hvalid, h0, not_not.1 hforth, readPrev_inside hg (inside_of_link hnext hn)]

omit hF in
theorem unlinkMiddle_eq (hprev : h.ctl.Inside prev) (hnext : h.ctl.linkValid next = true) :
    unlinkMiddle h prev next = some (true, ⟨h.ctl,
      if next ≠ 0 then (h.mem.setNext prev next).setW1 next prev
      else h.mem.setNext prev next⟩) := by
  have hback := linkBack_valid (h := ⟨h.ctl, h.mem.setNext prev next⟩) hg hnext prev
  simp only [unlinkMiddle, writeNext_inside hg hprev, hback, Option.bind_eq_bind, Option.bind_some]

theorem freelistRemove_fenced (ho : o < 64) (hb : h.ctl.Inside buddy) :
    freelistRemove h buddy o = some (Buddy.freelistRemove h buddy o) ∧
      Stays h.ctl (Buddy.freelistRemove h buddy o).2.ctl := by
  have hslow := freelistRemoveSlow_fenced hg hF buddy ho
  unfold freelistRemove Buddy.freelistRemove
  simp only [readNext_inside hg hb, Option.bind_eq_bind, Option.bind_some]
  by_cases hhead : h.ctl.freeLists o = buddy
  · rw [if_pos hhead, if_pos hhead]
    unfold freelistRemoveHead
    split_ifs with hnext h0
    · have hstays := hF.head ho hnext
      rw [h0] at hstays ⊢
      exact ⟨rfl, by simpa [BuddyList.clearIfEmpty] using hstays⟩
    · have hstays := hF.head ho hnext
      exact ⟨rfl, by simpa [BuddyList.clearIfEmpty, h0] using hstays⟩
    · exact hslow
  rw [if_neg hhead, if_neg hhead]
  unfold freelistRemoveInner
  simp only [readPrev_inside hg hb, Option.bind_eq_bind, Option.bind_some]
  by_cases hnext : ¬h.ctl.linkValid (h.mem.next buddy)
  · rw [if_pos hnext, if_pos hnext]
    exact hslow
  rw [if_neg hnext, if_neg hnext]
  rw [not_not] at hnext
  simp only [mismatched_eq hg hnext, Option.bind_some, decide_eq_true_eq]
  split_ifs with hbad
  · exact hslow
  all_goals
    obtain ⟨hvalid, hrest⟩ := not_or.1 hbad
    rw [not_not] at hvalid
    have hprev := inside_of_link hvalid (not_or.1 hrest).1
    exact ⟨by simp [unlinkMiddle_eq hg hprev hnext, *], hF.refl⟩

theorem pushFree_fenced {t : ℕ} (ho : o < 64) (ha : h.ctl.Inside addr) (ht : t < h.ctl.tagCount) :
    pushFree h addr o t = some (Buddy.pushFree h addr o t) ∧
      Stays h.ctl (Buddy.pushFree h addr o t).ctl := by
  have hback := linkBack_valid (h := ⟨h.ctl, h.mem.setNext addr (h.ctl.freeLists o)⟩) hg
    (hF.free o) addr
  constructor
  · simp only [pushFree, writeNext_inside hg ha, hback, Option.bind_eq_bind, Option.bind_some]
    rw [writeTag_lt (by split_ifs <;> exact ht)]
    rfl
  · unfold Buddy.pushFree
    dsimp only
    split_ifs
    · have hstays := hF.push (o := o) ha fun i _ _ hbit => hbit
      exact hstays.trans (hstays.fenced.setTag_unmarked (hstays.geometry hg) t (le_tagFree o))
    · have hstays := hF.push (o := o) (m := h.ctl.freeMask ||| (1#64 <<< o)) ha (by
        intro i _ hio hbit
        rw [getLsbD_setBit _ ho, Bool.or_eq_true, decide_eq_true_eq] at hbit
        exact hbit.resolve_right hio)
      exact hstays.trans (hstays.fenced.setTag_unmarked (hstays.geometry hg) t (le_tagFree o))

end Lists

/-- A block is halved inside the pool when the first right half starts there. -/
theorem splitDown_fenced {blk : ℕ} (target : ℕ) : ∀ (o : ℕ) {h : Heap}, Geometry h.ctl →
    Fenced h.ctl →
    o ≤ 64 → h.ctl.Inside blk →
    (target < o → blk + h.ctl.orderSize (o - 1) < h.ctl.base + h.ctl.total) →
    splitDown blk target o h = some (Buddy.splitDown blk target o h) ∧
      Stays h.ctl (Buddy.splitDown blk target o h).ctl := by
  intro o
  induction o with
  | zero => exact fun _ hF _ _ _ => ⟨rfl, hF.refl⟩
  | succ o ih =>
    intro h hg hF ho hb hfit
    simp only [splitDown, Buddy.splitDown]
    by_cases hlt : target < o + 1
    · rw [if_pos hlt, if_pos hlt, orderSize_succ, Nat.mul_div_cancel_left _ (by norm_num)]
      obtain ⟨hlow, hdvd, -⟩ := hb.bounds hg
      have hright : h.ctl.Inside (blk + h.ctl.orderSize o) := by
        refine inside_of_dvd hg (by omega) ?_ (hfit hlt)
        rw [Nat.sub_add_comm hlow]
        exact (Nat.dvd_add_right hdvd).2 (min_dvd_orderSize _ _)
      obtain ⟨hpush, hstays⟩ := pushFree_fenced hg hF ho hright (hright.tagIndex_lt hg)
      rw [hpush]
      obtain ⟨hrun, hrest⟩ := ih (hstays.geometry hg) hstays.fenced (by omega)
        (BuddyList.Inside.congr hstays.shape hb) fun _ => by
          have hle := orderSize_mono h.ctl (Nat.sub_le o 1)
          have hfit := hfit hlt
          rw [Nat.add_sub_cancel] at hfit
          rw [hstays.shape.orderSize, hstays.shape.base, hstays.shape.total]
          omega
      exact ⟨hrun, hstays.trans hrest⟩
    · rw [if_neg hlt, if_neg hlt]
      exact ⟨rfl, hF.refl⟩

theorem takeAndSplit_fenced {h : Heap} {i : ℕ} (target : ℕ) (hg : Geometry h.ctl)
    (hF : Fenced h.ctl) (hi : i < 64) (h0 : h.ctl.freeLists i ≠ 0) (hfit : target < i →
      h.ctl.freeLists i + h.ctl.orderSize (i - 1) < h.ctl.base + h.ctl.total) :
    ∃ h', takeAndSplit h i target = some (h.ctl.freeLists i, h') ∧
      Buddy.takeAndSplit h i target = some (h.ctl.freeLists i, h') ∧ Stays h.ctl h'.ctl := by
  have hb : h.ctl.Inside (h.ctl.freeLists i) := inside_of_link (hF.free i) h0
  have hhead := hF.takeHead hi (linkValid_link (h.mem.next (h.ctl.freeLists i)))
  unfold takeAndSplit Buddy.takeAndSplit
  simp only [readNext_inside hg hb, if_neg h0, Option.bind_eq_bind, Option.bind_some]
  generalize (ite (_ = 0) _ _ : BuddyList) = s at hhead ⊢
  obtain ⟨hrun, hstays⟩ := splitDown_fenced target i (h := ⟨s, h.mem⟩)
    (hhead.geometry hg) hhead.fenced (by omega) (BuddyList.Inside.congr hhead.shape hb)
    (by rw [hhead.shape.orderSize, hhead.shape.base, hhead.shape.total]; exact hfit)
  rw [hrun]
  exact ⟨_, rfl, rfl, hhead.trans hstays⟩

/-- A right half outside of the pool cannot be linked. -/
theorem splitDown_outside {h : Heap} {blk target o : ℕ} (hlt : target < o + 1)
    (hup : ¬blk + h.ctl.orderSize o < h.ctl.base + h.ctl.total) :
    splitDown blk target (o + 1) h = none := by
  have htouch : touch h.ctl (blk + h.ctl.orderSize o) 8 = none := by
    rw [touch, if_neg (by omega)]
  rw [splitDown, if_pos hlt, orderSize_succ, Nat.mul_div_cancel_left _ (by norm_num)]
  simp [pushFree, writeNext, htouch]

theorem takeAndSplit_outside {h : Heap} {i target : ℕ} (hg : Geometry h.ctl) (hF : Fenced h.ctl)
    (hi : i + 1 < 64) (h0 : h.ctl.freeLists (i + 1) ≠ 0) (hlt : target < i + 1)
    (hup : ¬h.ctl.freeLists (i + 1) + h.ctl.orderSize i < h.ctl.base + h.ctl.total) :
    takeAndSplit h (i + 1) target = none := by
  have hb : h.ctl.Inside (h.ctl.freeLists (i + 1)) := inside_of_link (hF.free _) h0
  have hhead := hF.takeHead hi (linkValid_link (h.mem.next (h.ctl.freeLists (i + 1))))
  unfold takeAndSplit
  simp only [readNext_inside hg hb, Option.bind_eq_bind, Option.bind_some]
  rw [splitDown_outside hlt]
  · rfl
  · rwa [hhead.shape.orderSize, hhead.shape.base, hhead.shape.total]

/-! ## Temporal cache -/

section Caches
variable {h : Heap} {o : ℕ} (hg : Geometry h.ctl) (hF : Fenced h.ctl)
include hg hF

theorem tcachePop_fenced (hcount : h.ctl.tcacheCount o ≠ 0) (h0 : h.ctl.tcache o ≠ 0) :
    ∃ h', tcachePop h o = some (h.ctl.tcache o, h') ∧
      Buddy.tcachePop h o = some (h.ctl.tcache o, h') ∧ Stays h.ctl h'.ctl := by
  unfold tcachePop Buddy.tcachePop
  simp only [if_neg hcount, if_neg h0, readNext_inside hg (inside_of_link (hF.cached o) h0),
    Option.bind_eq_bind, Option.bind_some]
  refine ⟨_, rfl, rfl, ?_⟩
  dsimp only
  split_ifs with hl
  · exact hF.cache o _ hl
  · exact hF.cache o 0 (linkValid_zero _)

theorem tcachePush_fenced {blk : ℕ} (hb : h.ctl.Inside blk) :
    tcachePush h blk o = some (Buddy.tcachePush h blk o) ∧
      Stays h.ctl (Buddy.tcachePush h blk o).2.ctl := by
  unfold tcachePush Buddy.tcachePush
  split_ifs
  · exact ⟨rfl, hF.refl⟩
  · rw [writeNext_inside hg hb]
    exact ⟨rfl, hF.cache o _ hb.1⟩

end Caches

/-! ## Merging -/

/-- Below the largest order the buddy of a block of the largest block is one, too. -/
theorem inside_buddy {s : BuddyList} {off o : ℕ} (hg : Geometry s)
    (hdvd : 2 ^ s.minLog ∣ off) (hlt : off < s.orderSize (s.maxOrder - 1))
    (ho : o < s.maxOrder - 1) :
    2 ^ s.minLog ∣ buddy (s.minLog + o) off ∧
      buddy (s.minLog + o) off < s.orderSize (s.maxOrder - 1) ∧
      buddy (s.minLog + o) off / 2 ^ s.minLog < s.tagCount := by
  have hb : 2 ^ s.minLog ∣ buddy (s.minLog + o) off := dvd_buddy (Nat.le_add_right _ _) hdvd
  have hlt' : buddy (s.minLog + o) off < s.orderSize (s.maxOrder - 1) := by
    apply Nat.xor_lt_two_pow hlt
    exact Nat.pow_lt_pow_right (by norm_num) (by omega)
  refine ⟨hb, hlt', ?_⟩
  rw [hg.tagCount]
  exact Nat.div_lt_div_of_lt_of_dvd hg.dvd (hlt'.trans_le hg.span)

/-- What a merge leaves: a block below the limit, whose order is one of the pool's. -/
structure Merges (s : BuddyList) (r : Heap × ℕ × ℕ) : Prop where
  stays : Stays s r.1.ctl
  dvd : 2 ^ s.minLog ∣ r.2.1
  lt : r.2.1 < s.orderSize (s.maxOrder - 1)
  order : r.2.2 ≤ s.maxOrder - 1

theorem Merges.of_stays {s s' : BuddyList} {r : Heap × ℕ × ℕ} (h : Stays s s') (hM : Merges s' r) :
    Merges s r := by
  obtain ⟨hstays, hdvd, hlt, hord⟩ := hM
  rw [h.shape.minLog] at hdvd
  rw [h.shape.orderSize, h.shape.maxOrder] at hlt
  rw [h.shape.maxOrder] at hord
  exact ⟨h.trans hstays, hdvd, hlt, hord⟩

/-- Merges of a block below the limit stay below it. -/
theorem mergeUp_fenced : ∀ (fuel : ℕ) {h : Heap} {off o : ℕ}, Geometry h.ctl → Fenced h.ctl →
    2 ^ h.ctl.minLog ∣ off → off < h.ctl.orderSize (h.ctl.maxOrder - 1) →
    o + fuel ≤ h.ctl.maxOrder - 1 →
    mergeUp fuel h off o = some (Buddy.mergeUp fuel h off o) ∧
      Merges h.ctl (Buddy.mergeUp fuel h off o) := by
  intro fuel
  induction fuel with
  | zero => exact fun _ hF hdvd hlt ho => ⟨rfl, hF.refl, hdvd, hlt, ho⟩
  | succ fuel ih =>
    intro h off o hg hF hdvd hlt ho
    have hle : o ≤ h.ctl.maxOrder - 1 := by omega
    obtain ⟨hbdvd, hblt, hbtag⟩ := inside_buddy (o := o) hg hdvd hlt (by omega)
    simp only [mergeUp, Buddy.mergeUp, readTag_lt hbtag, Option.bind_eq_bind, Option.bind_some]
    by_cases htag : h.ctl.blockTags (buddy (h.ctl.minLog + o) off / 2 ^ h.ctl.minLog) ≠ tagFree o
    · rw [if_pos htag, if_pos htag]
      exact ⟨rfl, hF.refl, hdvd, hlt, hle⟩
    rw [if_neg htag, if_neg htag]
    have hspan := hg.span
    have h64 := hg.order_le
    have hin : h.ctl.Inside (h.ctl.base + buddy (h.ctl.minLog + o) off) := by
      refine inside_of_dvd hg (Nat.le_add_right _ _) (by rwa [Nat.add_sub_cancel_left]) ?_
      exact Nat.add_lt_add_left (hblt.trans_le hspan) _
    obtain ⟨hrun, hrem⟩ := freelistRemove_fenced (o := o) hg hF (by omega) hin
    rw [hrun, Option.bind_some]
    generalize Buddy.freelistRemove h (h.ctl.base + buddy (h.ctl.minLog + o) off) o = r at hrem ⊢
    by_cases hr : r.1 = false
    · rw [if_pos hr, if_pos hr]
      exact ⟨rfl, hrem, hdvd, hlt, hle⟩
    rw [if_neg hr, if_neg hr]
    have hunit : off / 2 ^ h.ctl.minLog < h.ctl.tagCount := by
      rw [hg.tagCount]
      exact Nat.div_lt_div_of_lt_of_dvd hg.dvd (hlt.trans_le hspan)
    have hmerge : ∀ t off', t < h.ctl.tagCount → 2 ^ h.ctl.minLog ∣ off' →
        off' < h.ctl.orderSize (h.ctl.maxOrder - 1) →
        ((writeTag r.2 t 255).bind fun h => mergeUp fuel h off' (o + 1)) =
            some (Buddy.mergeUp fuel { r.2 with ctl := r.2.ctl.setTag t 255 } off' (o + 1)) ∧
          Merges h.ctl
          (Buddy.mergeUp fuel { r.2 with ctl := r.2.ctl.setTag t 255 } off' (o + 1)) := by
      intro t off' ht hdvd' hlt'
      have hset :=
        hrem.trans (hrem.fenced.setTag_unmarked (hrem.geometry hg) t (v := 255) (by decide))
      rw [writeTag_lt (by rwa [hrem.shape.tagCount]), Option.bind_some]
      obtain ⟨hrun, hM⟩ := @ih ⟨r.2.ctl.setTag t 255, r.2.mem⟩ off' (o + 1)
        (hset.geometry hg) hset.fenced (by rwa [hset.shape.minLog])
        (by rwa [hset.shape.orderSize, hset.shape.maxOrder]) (by rw [hset.shape.maxOrder]; omega)
      exact ⟨hrun, hM.of_stays hset⟩
    apply hmerge <;> split_ifs <;> assumption

theorem mergeAndFree_fenced {h : Heap} {addr o : ℕ} (hg : Geometry h.ctl) (hF : Fenced h.ctl)
    (ha : h.ctl.Inside addr) (hlt : addr < h.ctl.limit) (ho : o < h.ctl.maxOrder) :
    mergeAndFree h addr o = some (Buddy.mergeAndFree h addr o) ∧
      Stays h.ctl (Buddy.mergeAndFree h addr o).ctl := by
  obtain ⟨hlow, hdvd, -⟩ := ha.bounds hg
  have hoff : addr - h.ctl.base < h.ctl.orderSize (h.ctl.maxOrder - 1) := by
    unfold BuddyList.limit at hlt
    omega
  obtain ⟨hrun, hM⟩ := mergeUp_fenced (h.ctl.maxOrder - 1 - o) hg hF hdvd hoff
    (show o + (h.ctl.maxOrder - 1 - o) ≤ _ by omega)
  unfold mergeAndFree Buddy.mergeAndFree
  simp only [hrun, Option.bind_eq_bind, Option.bind_some]
  generalize Buddy.mergeUp (h.ctl.maxOrder - 1 - o) h (addr - h.ctl.base) o = r at hM ⊢
  have hg' := hM.stays.geometry hg
  have h64 := hg.order_le
  have hin : r.1.ctl.Inside (r.1.ctl.base + r.2.1) := by
    refine inside_of_dvd hg' (Nat.le_add_right _ _) ?_ ?_
    · rw [Nat.add_sub_cancel_left, hM.stays.shape.minLog]
      exact hM.dvd
    · rw [hM.stays.shape.total]
      exact Nat.add_lt_add_left (hM.lt.trans_le hg.span) _
  have htag := hin.tagIndex_lt hg'
  rw [BuddyList.tagIndex, Nat.add_sub_cancel_left] at htag
  have hord := hM.order
  obtain ⟨hpush, hstays⟩ := pushFree_fenced hg' hM.stays.fenced (o := r.2.2)
    (by have := hg.order_pos; omega) hin htag
  exact ⟨hpush, hM.stays.trans hstays⟩

/-! ## Requests -/

/-- Without room for its tail header a block cannot be handed out. -/
theorem handOut_outside {h : Heap} {b o : ℕ} (f : ℕ)
    (hup : ¬h.ctl.hdrOf b o < h.ctl.base + h.ctl.total) : handOut h b o f = none := by
  simp [handOut, writeOrder, touch, show ¬h.ctl.hdrOf b o + 4 ≤ h.ctl.base + h.ctl.total by omega]

theorem handOutTemporal_outside {h : Heap} {b o : ℕ} (r : ℕ)
    (hup : ¬h.ctl.hdrOf b o < h.ctl.base + h.ctl.total) : handOutTemporal h b o r = none := by
  rw [handOutTemporal, handOut_outside _ hup]
  rfl

section HandOut
variable {h : Heap} {b o : ℕ} (hg : Geometry h.ctl) (hb : h.ctl.Inside b)
include hg hb

theorem handOut_fenced (hF : Fenced h.ctl) (hup : h.ctl.hdrOf b o < h.ctl.base + h.ctl.total)
    (f : ℕ) : handOut h b o f = some (Buddy.handOut h b o f) ∧
      Stays h.ctl (Buddy.handOut h b o f).2.ctl := by
  obtain ⟨hlow, hroom⟩ := hb.header hg hup
  have htag := hb.tagIndex_lt hg
  constructor
  · have hflags := writeFlags_header (h := ⟨h.ctl, h.mem.setLo (h.ctl.hdrOf b o) o⟩) hlow hroom f
    have hmark := writeTag_lt
      (h := ⟨h.ctl, (h.mem.setLo (h.ctl.hdrOf b o) o).setHi (h.ctl.hdrOf b o) f⟩) htag o
    simp only [handOut, writeOrder_header hlow hroom, hflags, hmark, Option.bind_eq_bind,
      Option.bind_some]
    rfl
  · have hset := hF.setTag (h.ctl.tagIndex b) (v := o) fun _ => by
      rwa [OnGrid.unit (hb.onGrid hg)]
    exact hset.trans (hset.fenced.congr ⟨rfl, rfl, rfl, rfl, rfl⟩ rfl rfl rfl rfl)

theorem handOutTemporal_fenced (hF : Fenced h.ctl)
    (hup : h.ctl.hdrOf b o < h.ctl.base + h.ctl.total) (r : ℕ) :
    handOutTemporal h b o r = some (Buddy.handOutTemporal h b o r) ∧
      Stays h.ctl (Buddy.handOutTemporal h b o r).2.ctl := by
  obtain ⟨hrun, hstays⟩ := handOut_fenced hg hb hF hup (blockAlloc + blockTemporal)
  constructor
  · rw [handOutTemporal, hrun]
    rfl
  · exact hstays.trans (hstays.fenced.congr ⟨rfl, rfl, rfl, rfl, rfl⟩ rfl rfl rfl rfl)

end HandOut

end Checked

/-- The farthest address that a request of order `o` touches when it takes the head of the first
list that is not empty: the first right half of a split, or the tail header. -/
def BuddyList.farthest (s : BuddyList) (o : ℕ) : ℕ :=
  let i := s.findFreeOrder o
  if o < i then s.freeLists i + s.orderSize (i - 1) else s.hdrOf (s.freeLists i) o

def Takeable (s : BuddyList) (o : ℕ) : Prop :=
  s.findFreeOrder o < s.maxOrder → s.farthest o < s.base + s.total

theorem Fenced.findFreeOrder {s : BuddyList} {o : ℕ} (hF : Fenced s) (hg : Geometry s)
    (hlt : s.findFreeOrder o < s.maxOrder) :
    o ≤ s.findFreeOrder o ∧ s.findFreeOrder o < 64 ∧ s.freeLists (s.findFreeOrder o) ≠ 0 := by
  have h64 := hg.order_le
  obtain ⟨hle, hbit⟩ := findFreeOrder_bit hlt
  exact ⟨hle, by omega, hF.mask _ (by omega) hbit⟩

namespace Checked

section Takes
variable {h : Heap} {o : ℕ} (hg : Geometry h.ctl) (hF : Fenced h.ctl)
  (hi : h.ctl.findFreeOrder o < h.ctl.maxOrder)
include hg hF hi

/-- A block that fits is taken, and its tail header lies in the pool. -/
theorem take_fenced (hfit : h.ctl.farthest o < h.ctl.base + h.ctl.total) :
    ∃ b h', takeAndSplit h (h.ctl.findFreeOrder o) o = some (b, h') ∧
      Buddy.takeAndSplit h (h.ctl.findFreeOrder o) o = some (b, h') ∧ Stays h.ctl h'.ctl ∧
      h'.ctl.Inside b ∧ h'.ctl.hdrOf b o < h'.ctl.base + h'.ctl.total := by
  obtain ⟨hle, h64, h0⟩ := hF.findFreeOrder hg hi
  unfold BuddyList.farthest at hfit
  dsimp only at hfit
  obtain ⟨h', hrun, hmodel, hstays⟩ := takeAndSplit_fenced o hg hF h64 h0 fun hlt => by
    rwa [if_pos hlt] at hfit
  have hb := inside_of_link (hF.free (h.ctl.findFreeOrder o)) h0
  refine ⟨_, h', hrun, hmodel, hstays, BuddyList.Inside.congr hstays.shape hb, ?_⟩
  rw [BuddyList.hdrOf, hstays.shape.orderSize, hstays.shape.base, hstays.shape.total]
  split_ifs at hfit with hlt
  · have := orderSize_mono h.ctl (show o ≤ h.ctl.findFreeOrder o - 1 by omega)
    omega
  · exact hfit

/-- A block that does not fit is taken in vain, whatever is done with it. -/
theorem take_outside {α : Type} {f : ℕ × Heap → Option α}
    (hf : ∀ b h', Stays h.ctl h'.ctl → ¬h'.ctl.hdrOf b o < h'.ctl.base + h'.ctl.total →
      f (b, h') = none)
    (hfit : ¬h.ctl.farthest o < h.ctl.base + h.ctl.total) :
    (takeAndSplit h (h.ctl.findFreeOrder o) o).bind f = none := by
  obtain ⟨hle, h64, h0⟩ := hF.findFreeOrder hg hi
  unfold BuddyList.farthest at hfit
  dsimp only at hfit
  by_cases hlt : o < h.ctl.findFreeOrder o
  · rw [if_pos hlt] at hfit
    obtain ⟨j, hj⟩ : ∃ j, h.ctl.findFreeOrder o = j + 1 := ⟨h.ctl.findFreeOrder o - 1, by omega⟩
    rw [hj] at hlt hfit h0 h64 ⊢
    rw [Nat.add_sub_cancel] at hfit
    rw [takeAndSplit_outside hg hF h64 h0 hlt hfit]
    rfl
  · rw [if_neg hlt] at hfit
    obtain ⟨h', hrun, -, hstays⟩ := takeAndSplit_fenced o hg hF h64 h0
      fun hlt' => absurd hlt' hlt
    rw [hrun, Option.bind_some]
    apply hf _ _ hstays
    rwa [BuddyList.hdrOf, hstays.shape.orderSize, hstays.shape.base, hstays.shape.total]

end Takes

end Checked

/-! ## Operations -/

def Guarded (s : BuddyList) : Prop :=
  s.base = 0 ∨ (Geometry s ∧ Fenced s)

theorem Guarded.stays {s s' : BuddyList} (hg : Geometry s) (h : Stays s s') : Guarded s' :=
  Or.inr ⟨h.geometry hg, h.fenced⟩

def AllocateFits (s : BuddyList) (n : ℕ) : Prop :=
  n ≤ 2 ^ 64 - 1 - 32 → s.base ≠ 0 → s.orderForSize (n + 32) < s.maxOrder →
    Takeable s (s.orderForSize (n + 32))

/-- `temporal_allocate` returns a block of the active ring, or takes one that fits from the cache
or from the lists. -/
def TemporalFits (s : BuddyList) (n : ℕ) : Prop :=
  let o := s.orderForSize (n + 32)
  n ≤ 2 ^ 64 - 1 - 32 → s.base ≠ 0 → o < s.maxOrder → s.active o (activeSlot s o) = 0 →
    if s.tcacheCount o = 0 then Takeable s o
    else s.tcache o ≠ 0 ∧ s.hdrOf (s.tcache o) o < s.base + s.total

namespace Checked

section Requests
variable {h : Heap} {n o : ℕ}

theorem allocate_fits (hs : Guarded h.ctl) (hfit : AllocateFits h.ctl n) :
    ∃ r, allocate h n = some r ∧ Buddy.allocate h n = some r ∧ Guarded r.2.ctl := by
  unfold allocate Buddy.allocate
  dsimp only
  by_cases h₁ : 2 ^ 64 - 1 - 32 < n
  · simp only [if_pos h₁]
    exact ⟨_, rfl, rfl, hs⟩
  simp only [if_neg h₁]
  by_cases h₂ : h.ctl.base = 0
  · simp only [if_pos h₂]
    exact ⟨_, rfl, rfl, hs⟩
  simp only [if_neg h₂]
  by_cases h₃ : h.ctl.maxOrder ≤ h.ctl.orderForSize (n + 32)
  · simp only [if_pos h₃]
    exact ⟨_, rfl, rfl, hs⟩
  simp only [if_neg h₃]
  by_cases h₄ : h.ctl.maxOrder ≤ h.ctl.findFreeOrder (h.ctl.orderForSize (n + 32))
  · simp only [if_pos h₄]
    exact ⟨_, rfl, rfl, hs⟩
  simp only [if_neg h₄]
  obtain ⟨hg, hF⟩ := hs.resolve_left h₂
  obtain ⟨b, h', hrun, hmodel, hstays, hb, hup⟩ := take_fenced hg hF (not_le.1 h₄)
    (hfit (not_lt.1 h₁) h₂ (not_le.1 h₃) (not_le.1 h₄))
  obtain ⟨hout, hlast⟩ := handOut_fenced (hstays.geometry hg) hb hstays.fenced hup blockAlloc
  rw [hrun, hmodel]
  exact ⟨_, hout, rfl, .stays hg (hstays.trans hlast)⟩

theorem allocate_outside (hs : Guarded h.ctl) (hfit : ¬AllocateFits h.ctl n) :
    allocate h n = none := by
  simp only [AllocateFits, Takeable, Classical.not_imp] at hfit
  obtain ⟨h₁, hbase, h₂, h₃, hup⟩ := hfit
  obtain ⟨hg, hF⟩ := hs.resolve_left hbase
  unfold allocate
  dsimp only
  rw [if_neg (not_lt.2 h₁), if_neg hbase, if_neg (not_le.2 h₂), if_neg (not_le.2 h₃)]
  exact take_outside hg hF h₃ (fun b h' _ hhdr => handOut_outside _ hhdr) hup

theorem temporalFresh_fits {r : ℕ} (hg : Geometry h.ctl) (hF : Fenced h.ctl)
    (hfit : if h.ctl.tcacheCount o = 0 then Takeable h.ctl o
      else h.ctl.tcache o ≠ 0 ∧ h.ctl.hdrOf (h.ctl.tcache o) o < h.ctl.base + h.ctl.total) :
    ∃ q, temporalFresh h o r = some q ∧ Stays h.ctl q.2.ctl ∧
      ((Buddy.tcachePop h o).bind fun c =>
        if c.1 ≠ 0 then some (Buddy.handOutTemporal c.2 c.1 o r)
        else if c.2.ctl.maxOrder ≤ c.2.ctl.findFreeOrder o then some (.null, c.2)
        else (Buddy.takeAndSplit c.2 (c.2.ctl.findFreeOrder o) o).bind fun b =>
          some (Buddy.handOutTemporal b.2 b.1 o r)) = some q := by
  unfold temporalFresh
  split_ifs at hfit with hcount
  · simp only [tcachePop, Buddy.tcachePop, if_pos hcount, Option.bind_eq_bind, Option.bind_some,
      ne_eq, not_true_eq_false, if_false]
    by_cases hi : h.ctl.maxOrder ≤ h.ctl.findFreeOrder o
    · simp only [if_pos hi]
      exact ⟨_, rfl, hF.refl, rfl⟩
    simp only [if_neg hi]
    obtain ⟨b, h', hrun, hmodel, hstays, hb, hup⟩ := take_fenced hg hF (not_le.1 hi)
      (hfit (not_le.1 hi))
    obtain ⟨hout, hlast⟩ := handOutTemporal_fenced (hstays.geometry hg) hb hstays.fenced hup r
    rw [hrun, hmodel]
    exact ⟨_, hout, hstays.trans hlast, rfl⟩
  · obtain ⟨h0, hup⟩ := hfit
    obtain ⟨h', hrun, hmodel, hstays⟩ := tcachePop_fenced hg hF hcount h0
    have hb := BuddyList.Inside.congr hstays.shape (inside_of_link (hF.cached o) h0)
    obtain ⟨hout, hlast⟩ := handOutTemporal_fenced (hstays.geometry hg) hb hstays.fenced
      (by rwa [BuddyList.hdrOf, hstays.shape.orderSize, hstays.shape.base, hstays.shape.total]) r
    simp only [hrun, hmodel, Option.bind_eq_bind, Option.bind_some, if_pos h0]
    exact ⟨_, hout, hstays.trans hlast, rfl⟩

theorem temporalAllocate_fits (hs : Guarded h.ctl) (hfit : TemporalFits h.ctl n) :
    ∃ r, temporalAllocate h n = some r ∧ Buddy.temporalAllocate h n = some r ∧
      Guarded r.2.ctl := by
  unfold TemporalFits at hfit
  unfold temporalAllocate Buddy.temporalAllocate
  dsimp only at hfit ⊢
  by_cases h₁ : 2 ^ 64 - 1 - 32 < n
  · simp only [if_pos h₁]
    exact ⟨_, rfl, rfl, hs⟩
  simp only [if_neg h₁]
  by_cases h₂ : h.ctl.base = 0
  · simp only [if_pos h₂]
    exact ⟨_, rfl, rfl, hs⟩
  simp only [if_neg h₂]
  by_cases h₃ : h.ctl.maxOrder ≤ h.ctl.orderForSize (n + 32)
  · simp only [if_pos h₃]
    exact ⟨_, rfl, rfl, hs⟩
  simp only [if_neg h₃]
  obtain ⟨hg, hF⟩ := hs.resolve_left h₂
  set o := h.ctl.orderForSize (n + 32)
  by_cases h₄ : h.ctl.active o (activeSlot h.ctl o) ≠ 0
  · simp only [if_pos h₄]
    exact ⟨_, rfl, rfl, .stays hg (hF.congr ⟨rfl, rfl, rfl, rfl, rfl⟩ rfl rfl rfl rfl)⟩
  simp only [if_neg h₄]
  obtain ⟨q, hrun, hstays, hmodel⟩ := temporalFresh_fits (r := activeSlot h.ctl o) hg hF
    (hfit (not_lt.1 h₁) h₂ (not_le.1 h₃) (not_not.1 h₄))
  exact ⟨q, hrun, hmodel, .stays hg hstays⟩

theorem temporalFresh_outside {r : ℕ} (hg : Geometry h.ctl) (hF : Fenced h.ctl)
    (hfit : ¬if h.ctl.tcacheCount o = 0 then Takeable h.ctl o
      else h.ctl.tcache o ≠ 0 ∧ h.ctl.hdrOf (h.ctl.tcache o) o < h.ctl.base + h.ctl.total) :
    temporalFresh h o r = none := by
  unfold temporalFresh
  split_ifs at hfit with hcount
  · simp only [Takeable, Classical.not_imp] at hfit
    obtain ⟨hi, hup⟩ := hfit
    simp only [tcachePop, if_pos hcount, Option.bind_eq_bind, Option.bind_some, ne_eq,
      not_true_eq_false, if_false, if_neg (not_le.2 hi)]
    exact take_outside hg hF hi (fun b h' _ hhdr => handOutTemporal_outside _ hhdr) hup
  · by_cases h0 : h.ctl.tcache o = 0
    · -- The cache counts more blocks than it holds, and the source follows a null pointer.
      have hbase := hg.base_pos
      simp [tcachePop, hcount, h0, readNext, touch, show h.ctl.base ≠ 0 by omega]
    · obtain ⟨h', hrun, -, hstays⟩ := tcachePop_fenced hg hF hcount h0
      simp only [hrun, Option.bind_eq_bind, Option.bind_some, ne_eq, h0, not_false_eq_true, if_true]
      apply handOutTemporal_outside
      rw [BuddyList.hdrOf, hstays.shape.orderSize, hstays.shape.base, hstays.shape.total]
      exact fun hup => hfit ⟨h0, hup⟩

theorem temporalAllocate_outside (hs : Guarded h.ctl) (hfit : ¬TemporalFits h.ctl n) :
    temporalAllocate h n = none := by
  simp only [TemporalFits, Classical.not_imp] at hfit
  obtain ⟨h₁, hbase, h₂, h₃, hup⟩ := hfit
  obtain ⟨hg, hF⟩ := hs.resolve_left hbase
  unfold temporalAllocate
  dsimp only
  rw [if_neg (not_lt.2 h₁), if_neg hbase, if_neg (not_le.2 h₂), if_neg (not_not.2 h₃)]
  exact temporalFresh_outside hg hF hup

end Requests

/-! ## Deallocation -/

section Deallocation
variable {h : Heap} {p o f : ℕ}

theorem isAllocated_guarded (hs : Guarded h.ctl) :
    isAllocated h p = some (Buddy.isAllocated h p) := by
  unfold isAllocated Buddy.isAllocated
  split_ifs with hout
  · congr 1
    symm
    simp only [Bool.eq_false_iff, ne_eq, Bool.and_eq_true, decide_eq_true_eq]
    rintro ⟨⟨⟨⟨⟨⟨h₁, h₂⟩, h₃⟩, h₄⟩, h₅⟩, -⟩, -⟩
    omega
  · have hbase : h.ctl.base ≠ 0 := fun h0 => hout (Or.inr (Or.inl h0))
    obtain ⟨hg, -⟩ := hs.resolve_left hbase
    have hin : h.ctl.Inside p := by
      refine inside_of_dvd hg (by omega) (Nat.dvd_of_mod_eq_zero ?_) (by omega)
      by_contra h0
      exact hout (by simp [h0])
    rw [readTag_lt (hin.tagIndex_lt hg)]
    simp only [not_or, not_lt, not_le, not_not] at hout
    obtain ⟨h₁, -, h₃, h₄, h₅⟩ := hout
    simp [h₁, hbase, h₃, h₄, h₅]

theorem clearActive_stays {s : BuddyList} (hF : Fenced s) (addr o : ℕ) :
    Stays s (clearActive s addr o) := by
  unfold clearActive
  split_ifs
  · exact hF.congr ⟨rfl, rfl, rfl, rfl, rfl⟩ rfl rfl rfl rfl
  · exact hF.congr ⟨rfl, rfl, rfl, rfl, rfl⟩ rfl rfl rfl rfl
  · exact hF.refl

theorem retire_fits (hg : Geometry h.ctl) (hF : Fenced h.ctl) (hp : h.ctl.Inside p)
    (hlt : p < h.ctl.limit) (ho : o < h.ctl.maxOrder) :
    ∃ h', retire h p o f = some (.ok, h') ∧ Stays h.ctl h'.ctl ∧
      (let size := h.ctl.orderSize o
      let s := { h.ctl with
        allocatedBytes := (h.ctl.allocatedBytes + (2 ^ 64 - size)) % 2 ^ 64
        tombstonedBytes :=
          if f &&& blockTombstone ≠ 0 then (h.ctl.tombstonedBytes + (2 ^ 64 - size)) % 2 ^ 64
          else h.ctl.tombstonedBytes }
      if f &&& blockTemporal ≠ 0 then
        let r := Buddy.tcachePush ⟨clearActive s p o, h.mem⟩ p o
        if r.1 then (.ok, { r.2 with ctl := r.2.ctl.setTag (r.2.ctl.tagIndex p) 255 })
        else (.ok, Buddy.mergeAndFree r.2 p o)
      else (RetFlag.ok, Buddy.mergeAndFree ⟨s, h.mem⟩ p o)) = (.ok, h') := by
  have hmerge : ∀ h₁ : Heap, Stays h.ctl h₁.ctl →
      mergeAndFree h₁ p o = some (Buddy.mergeAndFree h₁ p o) ∧
        Stays h.ctl (Buddy.mergeAndFree h₁ p o).ctl := by
    intro h₁ hstays
    obtain ⟨hrun, hrest⟩ := mergeAndFree_fenced (o := o) (hstays.geometry hg) hstays.fenced
      (BuddyList.Inside.congr hstays.shape hp) (by rwa [hstays.shape.limit])
      (by rwa [hstays.shape.maxOrder])
    exact ⟨hrun, hstays.trans hrest⟩
  unfold retire
  dsimp only
  generalize hs : (BuddyList.mk _ _ _ _ _ _ _ _ _ _ _ _ _ _ _ : BuddyList) = s
  have hcount : Stays h.ctl s := hs ▸ hF.congr ⟨rfl, rfl, rfl, rfl, rfl⟩ rfl rfl rfl rfl
  by_cases htemp : f &&& blockTemporal ≠ 0
  · simp only [if_pos htemp]
    have hclear := hcount.trans (clearActive_stays hcount.fenced p o)
    obtain ⟨hrun, hpush⟩ := tcachePush_fenced (h := ⟨clearActive s p o, h.mem⟩) (o := o)
      (hclear.geometry hg) hclear.fenced (BuddyList.Inside.congr hclear.shape hp)
    rw [hrun]
    generalize Buddy.tcachePush ⟨clearActive s p o, h.mem⟩ p o = r at hpush
    have hpushed := hclear.trans hpush
    simp only [Option.bind_eq_bind, Option.bind_some]
    by_cases hr : r.1 = true
    · have hin := BuddyList.Inside.congr hpushed.shape hp
      have hset := hpushed.fenced.setTag_unmarked (hpushed.geometry hg) (r.2.ctl.tagIndex p)
        (v := 255) (by decide)
      simp only [if_pos hr, writeTag_lt (hin.tagIndex_lt (hpushed.geometry hg)), Option.bind_some]
      exact ⟨_, rfl, hpushed.trans hset, rfl⟩
    · obtain ⟨hrun, hrest⟩ := hmerge _ hpushed
      simp only [if_neg hr, hrun, Option.bind_some]
      exact ⟨_, rfl, hrest, rfl⟩
  · obtain ⟨hrun, hrest⟩ := hmerge ⟨s, h.mem⟩ hcount
    simp only [if_neg htemp, hrun, Option.bind_eq_bind, Option.bind_some]
    exact ⟨_, rfl, hrest, rfl⟩

theorem deallocate_fits (hs : Guarded h.ctl)
    (hfit : Buddy.isAllocated h p = true → p < h.ctl.limit) :
    ∃ r, deallocate h p = some r ∧ Buddy.deallocate h p = r ∧ Guarded r.2.ctl := by
  unfold deallocate Buddy.deallocate
  simp only [isAllocated_guarded hs, Option.bind_eq_bind, Option.bind_some]
  by_cases hal : Buddy.isAllocated h p = false
  · simp only [if_pos hal]
    exact ⟨_, rfl, rfl, hs⟩
  simp only [if_neg hal]
  rw [Bool.not_eq_false] at hal
  have hbase : h.ctl.base ≠ 0 := by
    intro h0
    simp [Buddy.isAllocated, h0] at hal
  obtain ⟨hg, hF⟩ := hs.resolve_left hbase
  obtain ⟨hunit, htag, hmark, hord, -⟩ := unit_of_isAllocated (fun _ => hg) hal
  have hp : h.ctl.Inside p := by
    simp only [Buddy.isAllocated, Bool.and_eq_true, decide_eq_true_eq] at hal
    obtain ⟨⟨⟨⟨⟨-, hlow⟩, hup⟩, hmod⟩, -⟩, -⟩ := hal
    exact inside_of_dvd hg hlow (Nat.dvd_of_mod_eq_zero hmod) hup
  have hhdr := hF.marked _ htag hord
  rw [hunit, ← Nat.mod_eq_of_lt hmark] at hhdr
  obtain ⟨hlow, hroom⟩ := hp.header hg hhdr
  have hdr : h.ctl.hdrOf p (h.ctl.blockTags (h.ctl.tagIndex p) % 128) = h.ctl.hdrOfTagged p := rfl
  rw [hdr] at hlow hroom
  unfold deallocateAt
  simp only [readTag_lt htag, hdr, readOrder_header hlow hroom, readFlags_header hlow hroom,
    Option.bind_eq_bind, Option.bind_some]
  by_cases ho : h.ctl.maxOrder ≤ h.mem.lo (h.ctl.hdrOfTagged p)
  · simp only [if_pos ho]
    exact ⟨_, rfl, rfl, hs⟩
  simp only [if_neg ho]
  by_cases hf : h.mem.hi (h.ctl.hdrOfTagged p) = blockFree
  · simp only [if_pos hf]
    exact ⟨_, rfl, rfl, hs⟩
  simp only [if_neg hf]
  obtain ⟨h', hrun, hstays, hmodel⟩ := retire_fits hg hF hp (hfit hal) (not_le.1 ho)
  exact ⟨_, hrun, hmodel, .stays hg hstays⟩

end Deallocation

end Checked

/-! ## Runs -/

/-- Requests whose block fits, and deallocations of blocks below the end of the largest block. -/
def Contained (w : Client Heap) : Op → Prop
  | .allocate n => AllocateFits w.book.ctl n
  | .temporalAllocate n => TemporalFits w.book.ctl n
  | .deallocate p => isAllocated w.book p = true → p < w.book.ctl.limit
  | _ => False

/-- A contained step touches nothing outside the pool, and the fence stands after it. -/
theorem Guarded.step {w : Client Heap} {op : Op} (hs : Guarded w.book.ctl) (hop : Contained w op) :
    ∃ w', Checked.step w op = some w' ∧ w.step buddyBook op = some w' ∧ Guarded w'.book.ctl := by
  cases op with
  | allocate n =>
    obtain ⟨r, hrun, hmodel, hs'⟩ := Checked.allocate_fits hs hop
    refine ⟨w.receive buddyBook r.1 r.2, by simp [Checked.step, hrun],
      by simp [Client.step, buddyBook, hmodel], ?_⟩
    rwa [receive_book]
  | temporalAllocate n =>
    obtain ⟨r, hrun, hmodel, hs'⟩ := Checked.temporalAllocate_fits hs hop
    refine ⟨w.receive buddyBook r.1 r.2, by simp [Checked.step, hrun],
      by simp [Client.step, buddyBook, hmodel], ?_⟩
    rwa [receive_book]
  | deallocate p =>
    obtain ⟨r, hrun, hmodel, hs'⟩ := Checked.deallocate_fits hs hop
    have hmodel : buddyBook.deallocate w.book p = r := hmodel
    by_cases hr : r.1 = .ok
    · simp only [Checked.step, Client.step, hrun, hmodel, Option.bind_eq_bind, Option.bind_some,
        if_pos hr]
      exact ⟨_, rfl, rfl, hs'⟩
    · simp only [Checked.step, Client.step, hrun, hmodel, Option.bind_eq_bind, Option.bind_some,
        if_neg hr]
      exact ⟨_, rfl, rfl, hs'⟩
  | tombstone p => exact hop.elim
  | write p i c => exact hop.elim

def StartsIdle (h : Heap) (a : ℕ) : Prop :=
  ∃ fl tc B o, Represents h fl tc B ∧ (a ∈ fl o ∨ a ∈ tc o)

/-- The `next` and `prev` words of free and cached blocks may hold anything. -/
structure Forged (h : Heap) (m : Mem) : Prop where
  links : ∀ a, ¬StartsIdle h a → m.next a = h.mem.next a ∧ m.w1 a = h.mem.w1 a
  rest : m.w2 = h.mem.w2 ∧ m.w3 = h.mem.w3

theorem guarded_of_run {minLog ptr len : ℕ} {m : Mem} {ext : Bool} {tags : ℕ → ℕ} {ops : List Op}
    {w : Client Heap} (hmin : 5 ≤ minLog) (hlen : ptr + len < 2 ^ 64)
    (hrun : Run (fun w op => inPlace w op = true) (Client.step buddyBook)
      (.start (initMemory minLog m ptr len ext tags)) ops w) : Guarded w.book.ctl := by
  by_cases hacc : (initMemory minLog m ptr len ext tags).ctl.base = 0
  · have hM := hrun.invariant (Marked (initMemory minLog m ptr len ext tags).ctl)
      (fun _ _ _ hM _ hstep => hM.step hstep) (initMemory_marked minLog ptr len m ext tags)
    exact Or.inl (hM.shape.base.trans hacc)
  · obtain ⟨A, hI⟩ := inv_of_buddy_run hmin hlen hacc hrun
    exact Or.inr ⟨hI.geo, hI.fenced⟩

/-- After whatever was written over the memory of a reachable list, contained calls access the
pool and its tags only, and a request accesses anything else if and only if it is not contained. -/
theorem forged_links_contained {minLog ptr len : ℕ} {m mem : Mem} {ext : Bool} {tags : ℕ → ℕ}
    {ops calls : List Op} {w w' : Client Heap} (hmin : 5 ≤ minLog) (hlen : ptr + len < 2 ^ 64)
    (hrun : Run (fun w op => inPlace w op = true) (Client.step buddyBook)
      (.start (initMemory minLog m ptr len ext tags)) ops w)
    (hcalls : Run Contained (Client.step buddyBook) { w with book := ⟨w.book.ctl, mem⟩ } calls w') :
    Run Contained Checked.step { w with book := ⟨w.book.ctl, mem⟩ } calls w' ∧
      (∀ op, Contained w' op →
        ∃ w'', Checked.step w' op = some w'' ∧ w'.step buddyBook op = some w'') ∧
      (∀ n, Checked.allocate w'.book n = none ↔ ¬AllocateFits w'.book.ctl n) ∧
      ∀ n, Checked.temporalAllocate w'.book n = none ↔ ¬TemporalFits w'.book.ctl n := by
  obtain ⟨hchecked, hs⟩ := hcalls.transfer Checked.step (fun w => Guarded w.book.ctl)
    (by
      intro w op w' hs hop hstep
      obtain ⟨w'', hrun, hmodel, hs'⟩ := hs.step hop
      obtain rfl : w'' = w' := Option.some.inj (hmodel.symm.trans hstep)
      exact ⟨hrun, hs'⟩)
    (show Guarded w.book.ctl from guarded_of_run hmin hlen hrun)
  refine ⟨hchecked, fun op hop => ?_, fun n => ⟨fun hnone hfit => ?_, Checked.allocate_outside hs⟩,
    fun n => ⟨fun hnone hfit => ?_, Checked.temporalAllocate_outside hs⟩⟩
  · obtain ⟨w'', hrun, hmodel, -⟩ := hs.step hop
    exact ⟨w'', hrun, hmodel⟩
  · obtain ⟨r, hsome, -⟩ := Checked.allocate_fits hs hfit
    rw [hnone] at hsome
    cases hsome
  · obtain ⟨r, hsome, -⟩ := Checked.temporalAllocate_fits hs hfit
    rw [hnone] at hsome
    cases hsome

instance (s : BuddyList) (o : ℕ) : Decidable (Takeable s o) := inferInstanceAs (Decidable (_ → _))

instance (s : BuddyList) (n : ℕ) : Decidable (AllocateFits s n) :=
  inferInstanceAs (Decidable (_ → _ → _ → Takeable s _))

instance (s : BuddyList) (n : ℕ) : Decidable (TemporalFits s n) :=
  inferInstanceAs (Decidable (_ → _ → _ → _ → ite _ (Takeable s _) _))

instance (w : Client Heap) (op : Op) : Decidable (Contained w op) :=
  match op with
  | .allocate n => inferInstanceAs (Decidable (AllocateFits w.book.ctl n))
  | .temporalAllocate n => inferInstanceAs (Decidable (TemporalFits w.book.ctl n))
  | .deallocate p => inferInstanceAs (Decidable (_ = true → p < w.book.ctl.limit))
  | .tombstone _ => inferInstanceAs (Decidable False)
  | .write .. => inferInstanceAs (Decidable False)

/-- Contained calls on a forged link: the block behind it has room for its header. -/
theorem forged_links_contained_near : ∃ w w', Run (fun w op => inPlace w op = true)
      (Client.step buddyBook) (.start (initMemory 5 .zero 4096 4096 false fun _ => 0))
      [.allocate 10] w ∧
    Run Contained Checked.step { w with book := ⟨w.book.ctl, w.book.mem.setNext 4288 4416⟩ }
      [.allocate 10, .allocate 10, .deallocate 4416, .temporalAllocate 70] w' := by
  obtain ⟨w, hrun, hw⟩ := exists_run_of_exec (fun w op => inPlace w op = true)
    (Client.step buddyBook) (s := .start (initMemory 5 .zero 4096 4096 false fun _ => 0))
    (l := [.allocate 10])
    (P := fun w => (exec Contained (Client.step buddyBook)
      { w with book := ⟨w.book.ctl, w.book.mem.setNext 4288 4416⟩ }
      [.allocate 10, .allocate 10, .deallocate 4416, .temporalAllocate 70]).isSome)
    (by decide +kernel)
  obtain ⟨w', hw'⟩ := Option.isSome_iff_exists.1 hw
  exact ⟨w, w', hrun,
    (forged_links_contained (by decide) (by decide) hrun (run_of_exec hw')).1⟩

theorem startsIdle_of_tag {h : Heap} {t o : ℕ} (hR : RepInv h) (ht : t < h.ctl.tagCount)
    (ho : o < 64) (htag : h.ctl.blockTags t = tagFree o) : StartsIdle h (h.ctl.unit t) := by
  obtain ⟨fl, tc, B, hR⟩ := hR
  exact ⟨fl, tc, B, o, hR, Or.inl ((hR.free t ht o ho).1 htag)⟩

theorem forged_setNext {h : Heap} {a : ℕ} (ha : StartsIdle h a) (v : ℕ) :
    Forged h (h.mem.setNext a v) := by
  refine ⟨fun b hb => ⟨?_, rfl⟩, rfl, rfl⟩
  have hba : b ≠ a := by
    rintro rfl
    exact hb ha
  rw [Mem.setNext_next, update_of_ne hba]

/-- A link to the last unit of the pool is accepted; the block of 64 bytes that is handed out
there has its header past the end. -/
theorem forged_link_escapes : ∃ w mem w', Run (fun w op => inPlace w op = true)
      (Client.step buddyBook) (.start (initMemory 5 .zero 4096 4096 false fun _ => 0))
      [.allocate 10] w ∧
    Forged w.book mem ∧
    Run (fun w op => w.wellHeld op = true) (Client.step buddyBook)
      { w with book := ⟨w.book.ctl, mem⟩ } [.allocate 10] w' ∧
    Checked.step w' (.allocate 10) = none ∧ (w'.step buddyBook (.allocate 10)).isSome = true := by
  obtain ⟨w, hrun, hw⟩ := exists_run_of_exec (fun w op => inPlace w op = true)
    (Client.step buddyBook) (s := .start (initMemory 5 .zero 4096 4096 false fun _ => 0))
    (l := [.allocate 10])
    (P := fun w => w.book.ctl.unit 2 = 4288 ∧ 2 < w.book.ctl.tagCount ∧
      w.book.ctl.blockTags 2 = tagFree 1 ∧
      (exec (fun (w : Client Heap) op => w.wellHeld op = true) (Client.step buddyBook)
        { w with book := ⟨w.book.ctl, w.book.mem.setNext 4288 8160⟩ } [.allocate 10]).any fun w' =>
          (Checked.step w' (.allocate 10)).isNone &&
            (w'.step buddyBook (.allocate 10)).isSome)
    (by decide +kernel)
  obtain ⟨hunit, ht, htag, hw⟩ := of_decide_eq_true hw
  obtain ⟨w', hw', hlast⟩ := Option.any_eq_true _ _ |>.1 hw
  rw [Bool.and_eq_true, Option.isNone_iff_eq_none] at hlast
  have hidle := startsIdle_of_tag
    (repInv_of_buddy_run (by decide) (by decide) (by decide +kernel) hrun).1 ht (by decide) htag
  rw [hunit] at hidle
  exact ⟨w, _, w', hrun, forged_setNext hidle 8160, run_of_exec hw', hlast⟩

end AbcMalloc.Buddy
