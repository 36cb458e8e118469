import AbcMalloc.Foundation.Bits
import AbcMalloc.Foundation.Links
import AbcMalloc.Foundation.Tiling
import AbcMalloc.Tlsf.Classes

/-! The segregated free lists. `FreeLists s m A fl` says that the heads, links and bitmaps
represent the lists `fl`, one per size class, and that these hold exactly the free blocks
of the block map `A`. A label of a block map is the block's flags, or `none` while the
block is detached: on its way between a list and a caller. -/
namespace AbcMalloc.Tlsf
open Function Foundation

/-! ## Bitmaps -/

/-- The lowest bit of `x` at position `k` or above. -/
theorem getLsbD_ctz_mask {x : BitVec 32} {k : ℕ} (hx : x &&& (BitVec.allOnes 32 <<< k) ≠ 0) :
    x.getLsbD (x &&& (BitVec.allOnes 32 <<< k)).ctz.toNat = true ∧
      k ≤ (x &&& (BitVec.allOnes 32 <<< k)).ctz.toNat := by
  have hbit := BitVec.getLsbD_true_ctz_of_ne_zero hx
  rw [BitVec.getLsbD_and, Bool.and_eq_true, BitVec.getLsbD_shiftLeft] at hbit
  simp only [Bool.and_eq_true, Bool.not_eq_true', decide_eq_false_iff_not] at hbit
  exact ⟨hbit.1, by omega⟩

theorem idx_inj {f j f' j' : ℕ} (hj : j < 16) (hj' : j' < 16) :
    idx f j = idx f' j' ↔ f = f' ∧ j = j' := by
  unfold idx
  omega

structure Bits (s : TlsfList) (fl : ℕ → List ℕ) : Prop where
  sl : ∀ f j, (s.slBitmap f).getLsbD j = true ↔ j < 16 ∧ fl (idx f j) ≠ []
  top : ∀ f, s.flBitmap.getLsbD f = true ↔ s.slBitmap f ≠ 0

namespace Bits
variable {s : TlsfList} {fl : ℕ → List ℕ} {fi si : ℕ}

/-- A list that stays non-empty keeps its bits. -/
theorem keep (h : Bits s fl) {l : List ℕ} (hold : fl (idx fi si) ≠ []) (hl : l ≠ []) :
    Bits s (update fl (idx fi si) l) := by
  refine ⟨fun f j => ?_, h.top⟩
  rw [h.sl]
  by_cases he : idx f j = idx fi si
  · rw [he, update_self]
    simp [hold, hl]
  · rw [update_of_ne he]

theorem set (h : Bits s fl) (hf : fi < 32) (hs : si < 16) {l : List ℕ} (hl : l ≠ []) :
    Bits { s with
      flBitmap := s.flBitmap ||| (1#32 <<< fi)
      slBitmap := update s.slBitmap fi (s.slBitmap fi ||| (1#32 <<< si)) }
      (update fl (idx fi si) l) := by
  refine ⟨fun f j => ?_, fun f => ?_⟩
  · by_cases hff : f = fi
    · subst hff
      simp only [update_self, getLsbD_setBit _ (show si < 32 by omega), Bool.or_eq_true, h.sl,
        decide_eq_true_eq]
      by_cases hj : j = si
      · subst hj
        simp [hs, hl]
      · by_cases hj16 : j < 16
        · rw [update_of_ne (fun he => hj ((idx_inj hj16 hs).1 he).2)]
          simp [hj]
        · simp [hj, hj16]
    · simp only [update_of_ne hff, h.sl]
      refine and_congr_right fun hj => ?_
      rw [update_of_ne (fun he => hff ((idx_inj hj hs).1 he).1)]
  · simp only [getLsbD_setBit _ hf, Bool.or_eq_true, decide_eq_true_eq]
    by_cases hff : f = fi
    · subst hff
      simp only [update_self, or_true, true_iff]
      exact bitvec_ne_zero_iff.2 ⟨si, by simp [getLsbD_setBit _ (show si < 32 by omega)]⟩
    · simp [hff, h.top]

theorem clear (h : Bits s fl) (hf : fi < 32) (hs : si < 16) :
    Bits (clearBits s fi si) (update fl (idx fi si) []) := by
  have hbit : ∀ j, (s.slBitmap fi &&& ~~~(1#32 <<< si)).getLsbD j = true ↔
      (j < 16 ∧ fl (idx fi j) ≠ []) ∧ j ≠ si := by
    intro j
    rw [getLsbD_clearBit _ (by omega), Bool.and_eq_true, h.sl, decide_eq_true_eq]
  refine ⟨fun f j => ?_, fun f => ?_⟩
  · by_cases hff : f = fi
    · subst hff
      simp only [clearBits, update_self, hbit]
      by_cases hj : j = si
      · subst hj
        simp
      · by_cases hj16 : j < 16
        · rw [update_of_ne (fun he => hj ((idx_inj hj16 hs).1 he).2)]
          simp [hj]
        · simp [hj16]
    · simp only [clearBits, update_of_ne hff, h.sl]
      refine and_congr_right fun hj => ?_
      rw [update_of_ne (fun he => hff ((idx_inj hj hs).1 he).1)]
  · by_cases hff : f = fi
    · subst hff
      simp only [clearBits, update_self]
      split_ifs with hz
      · simp [getLsbD_clearBit _ hf, hz]
      · refine iff_of_true ((h.top f).2 ?_) hz
        obtain ⟨j, hj⟩ := bitvec_ne_zero_iff.1 hz
        exact bitvec_ne_zero_iff.2 ⟨j, (h.sl f j).2 ((hbit j).1 hj).1⟩
    · simp only [clearBits, update_of_ne hff]
      split_ifs
      · rw [getLsbD_clearBit _ hf]
        simp [hff, h.top]
      · exact h.top f

theorem congr (h : Bits s fl) {s' : TlsfList} (hsl : s'.slBitmap = s.slBitmap)
    (htop : s'.flBitmap = s.flBitmap) : Bits s' fl :=
  ⟨fun f j => by rw [hsl]; exact h.sl f j, fun f => by rw [hsl, htop]; exact h.top f⟩

end Bits

/-! ## What the list primitives write -/

section Writes
variable (h : Heap) (b : ℕ)

/-- The list of a block, as the source computes it from its header. -/
abbrev listOf (m : Mem) (b : ℕ) : ℕ := classIndex (m.lo b)

@[simp] theorem flInsert_lo : (flInsert h b).mem.lo = h.mem.lo := by
  simp only [flInsert]
  split_ifs <;> rfl

@[simp] theorem flInsert_hi : (flInsert h b).mem.hi = update h.mem.hi b blockFree := by
  simp only [flInsert]
  split_ifs <;> rfl

@[simp] theorem flInsert_w1 : (flInsert h b).mem.w1 = h.mem.w1 := by
  simp only [flInsert]
  split_ifs <;> rfl

theorem flInsert_w2 :
    (flInsert h b).mem.w2 = update h.mem.w2 b (h.ctl.heads (listOf h.mem b)) := by
  simp only [flInsert, listOf, classIndex]
  split_ifs <;> rfl

theorem flInsert_w3 : (flInsert h b).mem.w3 =
    if h.ctl.heads (listOf h.mem b) ≠ 0 then
      update (update h.mem.w3 b 0) (h.ctl.heads (listOf h.mem b)) b
    else update h.mem.w3 b 0 := by
  by_cases hh : h.ctl.heads (listOf h.mem b) = 0
  · simp only [hh, ne_eq, not_true_eq_false, if_false]
    simp only [listOf, classIndex] at hh
    simp [flInsert, hh]
  · simp only [hh, ne_eq, not_false_eq_true, if_true]
    simp only [listOf, classIndex] at hh ⊢
    simp [flInsert, hh]

theorem flInsert_heads :
    (flInsert h b).ctl.heads = update h.ctl.heads (listOf h.mem b) b := rfl

@[simp] theorem flRemove_lo : (flRemove h b).mem.lo = h.mem.lo := by
  simp only [flRemove]
  split_ifs <;> rfl

@[simp] theorem flRemove_hi : (flRemove h b).mem.hi = h.mem.hi := by
  simp only [flRemove]
  split_ifs <;> rfl

@[simp] theorem flRemove_w1 : (flRemove h b).mem.w1 = h.mem.w1 := by
  simp only [flRemove]
  split_ifs <;> rfl

theorem flRemove_w2 : (flRemove h b).mem.w2 =
    if h.mem.w3 b ≠ 0 then update h.mem.w2 (h.mem.w3 b) (h.mem.w2 b) else h.mem.w2 := by
  simp only [flRemove]
  split_ifs <;> rfl

theorem flRemove_w3 : (flRemove h b).mem.w3 =
    if h.mem.w2 b ≠ 0 then update h.mem.w3 (h.mem.w2 b) (h.mem.w3 b) else h.mem.w3 := by
  simp only [flRemove]
  split_ifs <;> rfl

theorem flRemove_heads : (flRemove h b).ctl.heads =
    if h.mem.w3 b ≠ 0 then h.ctl.heads
    else update h.ctl.heads (listOf h.mem b) (h.mem.w2 b) := by
  simp only [flRemove, listOf, classIndex, clearBits]
  split_ifs <;> rfl

theorem flRemove_bits {fl : ℕ → List ℕ}
    (hB : Bits (if (flRemove h b).ctl.heads (listOf h.mem b) = 0 then
      clearBits h.ctl (mappingInsert (h.mem.lo b)).1.toNat (mappingInsert (h.mem.lo b)).2
      else h.ctl) fl) :
    Bits (flRemove h b).ctl fl := by
  rw [flRemove_heads] at hB
  simp only [listOf, classIndex] at hB
  simp only [flRemove]
  split_ifs at hB ⊢ <;> exact hB.congr rfl rfl

/-- The parts of the control block that list surgery leaves alone. -/
def SameBook (s s' : TlsfList) : Prop :=
  ∃ fb sb hd, s' = { s with flBitmap := fb, slBitmap := sb, heads := hd }

theorem SameBook.refl (s : TlsfList) : SameBook s s := ⟨_, _, _, rfl⟩

theorem SameBook.trans {s s' s'' : TlsfList} (h : SameBook s s') (h' : SameBook s' s'') :
    SameBook s s'' := by
  obtain ⟨_, _, _, rfl⟩ := h
  obtain ⟨_, _, _, rfl⟩ := h'
  exact ⟨_, _, _, rfl⟩

theorem flInsert_sameBook : SameBook h.ctl (flInsert h b).ctl := ⟨_, _, _, rfl⟩

theorem flRemove_sameBook : SameBook h.ctl (flRemove h b).ctl := by
  simp only [flRemove, clearBits]
  split_ifs <;> exact ⟨_, _, _, rfl⟩

end Writes

/-! ## Lists -/

/-- Blocks of a pool, labelled with their flags; `none` marks a detached block. -/
abbrev Blocks := BlockMap (Option ℕ)

/-- Heads, links and bitmaps represent the lists `fl`, and these hold the free blocks. -/
structure FreeLists (s : TlsfList) (m : Mem) (A : Blocks) (fl : ℕ → List ℕ) : Prop where
  seg : ∀ i, Seg m.w2 m.w3 0 (fl i) 0
  head : ∀ i, s.heads i = (fl i).headD 0
  mem : ∀ i b, b ∈ fl i ↔ ∃ n, A b = some (n, some blockFree) ∧ classIndex n = i
  nodup : ∀ i, (fl i).Nodup
  pos : ∀ i, 0 ∉ fl i
  size : ∀ {b n}, A b = some (n, some blockFree) → m.lo b = n ∧ 64 ≤ n ∧ n < 2 ^ 32
  bits : Bits s fl

namespace FreeLists
variable {s s' : TlsfList} {m m' : Mem} {A A' : Blocks} {fl : ℕ → List ℕ} {b n : ℕ}

/-- The lists of different classes have no node in common. -/
theorem not_mem_of_ne (h : FreeLists s m A fl) {i j x : ℕ} (hij : i ≠ j) (hx : x ∈ fl i) :
    x ∉ fl j := by
  intro hxj
  obtain ⟨n, hn, rfl⟩ := (h.mem i x).1 hx
  obtain ⟨n', hn', rfl⟩ := (h.mem j x).1 hxj
  rw [hn] at hn'
  simp only [Option.some.injEq, Prod.mk.injEq, and_true] at hn'
  exact hij (by rw [hn'])

/-- The lists survive any change that keeps the free blocks, their links and the control
data of the lists. -/
theorem congr (h : FreeLists s m A fl) (hs : s'.heads = s.heads)
    (hsl : s'.slBitmap = s.slBitmap) (htop : s'.flBitmap = s.flBitmap)
    (hA : ∀ x n, A' x = some (n, some blockFree) ↔ A x = some (n, some blockFree))
    (hm : ∀ x n, A x = some (n, some blockFree) →
      m'.lo x = m.lo x ∧ m'.w2 x = m.w2 x ∧ m'.w3 x = m.w3 x) :
    FreeLists s' m' A' fl where
  seg i := by
    have hx : ∀ x ∈ fl i, m'.w2 x = m.w2 x ∧ m'.w3 x = m.w3 x := by
      intro x hx
      obtain ⟨n, hn, -⟩ := (h.mem i x).1 hx
      exact (hm x n hn).2
    exact (h.seg i).congr (fun x hx' => (hx x hx').1) (fun x hx' => (hx x hx').2)
  head i := by rw [hs]; exact h.head i
  mem i x := by simp only [hA]; exact h.mem i x
  nodup := h.nodup
  pos := h.pos
  size {x n} hx := by
    rw [hA] at hx
    rw [(hm x n hx).1]
    exact h.size hx
  bits := h.bits.congr hsl htop

theorem class_of_size (hn : 64 ≤ n) (hlt : n < 2 ^ 32) :
    (mappingInsert n).1.toNat < 32 ∧ (mappingInsert n).2 < 16 := by
  refine ⟨?_, mappingInsert_snd_lt hn⟩
  rw [mappingInsert_fst hn, Int.toNat_natCast]
  have := log2_sub_lt_flMax hn hlt
  omega

theorem flInsert (h : FreeLists s m A fl) (hb : b ≠ 0) (hA : A b = some (n, none))
    (hlo : m.lo b = n) (hn : 64 ≤ n) (hlt : n < 2 ^ 32) :
    FreeLists (flInsert ⟨s, m⟩ b).ctl (flInsert ⟨s, m⟩ b).mem
      (update A b (some (n, some blockFree)))
      (update fl (classIndex n) (b :: fl (classIndex n))) := by
  obtain ⟨hfi, hsi⟩ := class_of_size hn hlt
  have hnot : ∀ i, b ∉ fl i := by
    intro i hmem
    obtain ⟨n', hn', -⟩ := (h.mem i b).1 hmem
    simp [hA] at hn'
  have hlist : listOf m b = classIndex n := by rw [listOf, hlo]
  have hhead := h.head (classIndex n)
  have hw2 : ∀ x, x ≠ b → (Tlsf.flInsert ⟨s, m⟩ b).mem.w2 x = m.w2 x := fun x hx => by
    rw [flInsert_w2, update_of_ne hx]
  have hw3 : ∀ x, x ≠ b → x ≠ (fl (classIndex n)).headD 0 →
      (Tlsf.flInsert ⟨s, m⟩ b).mem.w3 x = m.w3 x := fun x hx hx' => by
    rw [flInsert_w3]
    simp only [hlist, hhead]
    split_ifs
    · rw [update_of_ne hx', update_of_ne hx]
    · rw [update_of_ne hx]
  have hheadmem : (fl (classIndex n)).headD 0 ≠ 0 →
    (fl (classIndex n)).headD 0 ∈ fl (classIndex n) := by
    cases fl (classIndex n) <;> simp
  refine ⟨fun i => ?_, fun i => ?_, fun i x => ?_, fun i => ?_, fun i => ?_, fun {x k} hx => ?_, ?_⟩
  · -- only the new block and the old head of its list are written
    by_cases hii : i = classIndex n
    · subst hii
      rw [update_self]
      have hnd := h.nodup (classIndex n)
      refine (h.seg _).pushFront ?_ ?_ (fun y hy => hw2 y ?_) (fun y ys hl => ?_)
        (fun y ys hl z hz => hw3 z ?_ ?_)
      · rw [flInsert_w2, update_self]
        simp only [hlist, hhead]
      · rw [flInsert_w3]
        simp only [hlist, hhead]
        split_ifs with h0
        · rw [update_of_ne (fun he => hnot _ (he ▸ hheadmem h0)), update_self]
        · rw [update_self]
      · exact fun he => hnot _ (he ▸ hy)
      · have hy0 : y ≠ 0 := fun he => h.pos (classIndex n) (by simp [hl, he])
        rw [flInsert_w3]
        simp only [hlist, hhead, hl, List.headD_cons]
        rw [if_pos hy0, update_self]
      · exact fun he => hnot (classIndex n) (by simp [hl, ← he, hz])
      · rw [hl] at hnd ⊢
        rintro rfl
        exact (List.nodup_cons.1 hnd).1 hz
    · rw [update_of_ne hii]
      refine (h.seg i).congr (fun y hy => hw2 y ?_) (fun y hy => hw3 y ?_ ?_)
      · exact fun he => hnot _ (he ▸ hy)
      · exact fun he => hnot _ (he ▸ hy)
      · intro he
        have hy0 : y ≠ 0 := fun h0 => h.pos i (h0 ▸ hy)
        exact h.not_mem_of_ne hii hy (he ▸ hheadmem (he ▸ hy0))
  · rw [flInsert_heads, hlist]
    by_cases hii : i = classIndex n
    · rw [hii, update_self, update_self]
      rfl
    · rw [update_of_ne hii, update_of_ne hii]
      exact h.head i
  · by_cases hx : x = b
    · subst hx
      by_cases hii : i = classIndex n
      · simp [hii]
      · have := hnot i
        simp [hii, this, Ne.symm hii]
    · rw [update_of_ne hx, ← h.mem]
      by_cases hii : i = classIndex n
      · simp [hii, hx]
      · rw [update_of_ne hii]
  · by_cases hii : i = classIndex n
    · rw [hii, update_self]
      exact List.nodup_cons.2 ⟨hnot _, h.nodup _⟩
    · rw [update_of_ne hii]
      exact h.nodup i
  · by_cases hii : i = classIndex n
    · rw [hii, update_self]
      simp [h.pos, Ne.symm hb]
    · rw [update_of_ne hii]
      exact h.pos i
  · rw [flInsert_lo]
    by_cases hxb : x = b
    · subst hxb
      simp only [update_self, Option.some.injEq, Prod.mk.injEq, and_true] at hx
      exact ⟨hlo.trans hx, hx ▸ hn, hx ▸ hlt⟩
    · rw [update_of_ne hxb] at hx
      exact h.size hx
  · simp only [Tlsf.flInsert, hlo]
    exact (h.bits.set hfi hsi (List.cons_ne_nil _ _)).congr rfl rfl

/-- What stands before and behind a block in its list is what its links say. -/
theorem links (h : FreeLists s m A fl) {i : ℕ} {l₁ l₂ : List ℕ} (hl : fl i = l₁ ++ b :: l₂) :
    m.w3 b = l₁.getLastD 0 ∧ m.w2 b = l₂.headD 0 := by
  have hseg := h.seg i
  rw [hl] at hseg
  exact hseg.links

theorem links_free (h : FreeLists s m A fl) (hA : A b = some (n, some blockFree)) :
    (m.w2 b ≠ 0 → ∃ j, A (m.w2 b) = some (j, some blockFree)) ∧
      (m.w3 b ≠ 0 → ∃ j, A (m.w3 b) = some (j, some blockFree)) := by
  have hmem : b ∈ fl (classIndex n) := (h.mem _ _).2 ⟨n, hA, rfl⟩
  have hfree : ∀ x ∈ fl (classIndex n), ∃ j, A x = some (j, some blockFree) := by
    intro x hx
    obtain ⟨j, hj, -⟩ := (h.mem _ _).1 hx
    exact ⟨j, hj⟩
  obtain ⟨l₁, l₂, hl⟩ := List.append_of_mem hmem
  obtain ⟨hprev, hnext⟩ := h.links hl
  rw [hl] at hfree
  rw [hprev, hnext]
  constructor
  · intro h0
    cases l₂ with
    | nil => simp at h0
    | cons y ys => exact hfree _ (by simp)
  · intro h0
    rcases l₁.eq_nil_or_concat' with rfl | ⟨l, z, rfl⟩
    · simp at h0
    · exact hfree _ (by simp)

/-- `fl_remove` leaves the back link of the removed block as it was. -/
theorem flRemove_w3_self (h : FreeLists s m A fl) (hA : A b = some (n, some blockFree)) :
    (Tlsf.flRemove ⟨s, m⟩ b).mem.w3 b = m.w3 b := by
  have hmem : b ∈ fl (classIndex n) := (h.mem _ _).2 ⟨n, hA, rfl⟩
  obtain ⟨l₁, l₂, hl⟩ := List.append_of_mem hmem
  have hnd := h.nodup (classIndex n)
  have hb0 : b ≠ 0 := fun he => h.pos _ (he ▸ hmem)
  rw [hl, List.nodup_middle, List.nodup_cons, List.mem_append, not_or] at hnd
  rw [flRemove_w3]
  exact relink_of_ne ((h.links hl).2 ▸ headD_ne hnd.1.2 hb0)

theorem head_free (h : FreeLists s m A fl) {i : ℕ} (h0 : s.heads i ≠ 0) :
    ∃ j, A (s.heads i) = some (j, some blockFree) := by
  rw [h.head] at h0 ⊢
  cases hl : fl i with
  | nil => simp [hl] at h0
  | cons y ys =>
    obtain ⟨j, hj, -⟩ := (h.mem i y).1 (by simp [hl])
    exact ⟨j, hj⟩

theorem flInsert_frame (h : FreeLists s m A fl) (x : ℕ) (hx : x ≠ b)
    (hfree : ∀ j, A x ≠ some (j, some blockFree)) :
    (Tlsf.flInsert ⟨s, m⟩ b).mem.w2 x = m.w2 x ∧ (Tlsf.flInsert ⟨s, m⟩ b).mem.w3 x = m.w3 x := by
  rw [flInsert_w2, flInsert_w3, update_of_ne hx]
  refine ⟨rfl, ?_⟩
  split_ifs with h0
  · have hne : x ≠ s.heads (listOf m b) := by
      rintro rfl
      obtain ⟨j, hj⟩ := h.head_free h0
      exact hfree j hj
    rw [update_of_ne hne, update_of_ne hx]
  · rw [update_of_ne hx]

/-- `fl_remove` writes the links of the neighbours in the list only. -/
theorem flRemove_frame (h : FreeLists s m A fl) (hA : A b = some (n, some blockFree)) (x : ℕ)
    (hfree : ∀ j, A x ≠ some (j, some blockFree)) :
    (Tlsf.flRemove ⟨s, m⟩ b).mem.w2 x = m.w2 x ∧ (Tlsf.flRemove ⟨s, m⟩ b).mem.w3 x = m.w3 x := by
  obtain ⟨hnext, hprev⟩ := h.links_free hA
  have hne : ∀ y, (y ≠ 0 → ∃ j, A y = some (j, some blockFree)) → y ≠ 0 → x ≠ y := by
    rintro y hy h0 rfl
    obtain ⟨j, hj⟩ := hy h0
    exact hfree j hj
  rw [flRemove_w2, flRemove_w3]
  constructor
  · split_ifs with h0
    · rw [update_of_ne (hne _ hprev h0)]
    · rfl
  · split_ifs with h0
    · rw [update_of_ne (hne _ hnext h0)]
    · rfl

theorem flRemove_seg (h : FreeLists s m A fl) {i : ℕ} {l₁ l₂ : List ℕ}
    (hl : fl i = l₁ ++ b :: l₂) :
    Seg (Tlsf.flRemove ⟨s, m⟩ b).mem.w2 (Tlsf.flRemove ⟨s, m⟩ b).mem.w3 0 (l₁ ++ l₂) 0 := by
  have hseg := h.seg i
  have hnd := h.nodup i
  have hpos := h.pos i
  have hprev := (h.links hl).1
  rw [hl] at hseg hnd hpos
  rw [flRemove_w2, flRemove_w3]
  rcases l₁.eq_nil_or_concat' with rfl | ⟨l, z, rfl⟩
  · -- the head has no predecessor
    simp only [List.getLastD_nil] at hprev
    simp only [hprev, ne_eq, not_true_eq_false, if_false]
    exact hseg.pop (List.nodup_cons.1 hnd).2 fun h0 => hpos (List.mem_cons_of_mem _ h0)
  · rw [List.getLastD_concat] at hprev
    have hz0 : z ≠ 0 := fun he => hpos (by simp [he])
    simp only [hprev, ne_eq, hz0, not_false_eq_true, if_true]
    rw [List.append_assoc, List.singleton_append] at hseg hnd hpos ⊢
    exact hseg.splice hnd hpos

/-- The blocks of the other lists keep their links. -/
theorem flRemove_others (h : FreeLists s m A fl) {i j x : ℕ} {l₁ l₂ : List ℕ}
    (hl : fl i = l₁ ++ b :: l₂) (hij : j ≠ i) (hx : x ∈ fl j) :
    (Tlsf.flRemove ⟨s, m⟩ b).mem.w2 x = m.w2 x ∧ (Tlsf.flRemove ⟨s, m⟩ b).mem.w3 x = m.w3 x := by
  obtain ⟨hprev, hnext⟩ := h.links hl
  have hx0 : x ≠ 0 := fun he => h.pos j (he ▸ hx)
  have hout := h.not_mem_of_ne hij hx
  rw [hl, List.mem_append, List.mem_cons, not_or, not_or] at hout
  rw [flRemove_w2, flRemove_w3]
  constructor
  · exact relink_of_ne (hprev ▸ getLastD_ne hout.1 hx0)
  · exact relink_of_ne (hnext ▸ headD_ne hout.2.2 hx0)

theorem flRemove_head (h : FreeLists s m A fl) {l₁ l₂ : List ℕ}
    (hl : fl (listOf m b) = l₁ ++ b :: l₂) (i : ℕ) :
    (Tlsf.flRemove ⟨s, m⟩ b).ctl.heads i = (update fl (listOf m b) (l₁ ++ l₂) i).headD 0 := by
  obtain ⟨hprev, hnext⟩ := h.links hl
  rw [flRemove_heads]
  simp only [hprev, hnext]
  by_cases hi : i = listOf m b
  · have hhead := h.head (listOf m b)
    rw [hl] at hhead
    rw [hi, update_self]
    cases l₁ with
    | nil => simp
    | cons y ys =>
      have hlast : (y :: ys).getLastD 0 ≠ 0 := by
        have hmem : ys.getLastD y ∈ y :: ys := List.getLastD_mem_cons
        have hpos := h.pos (listOf m b)
        rw [hl] at hpos
        rw [List.getLastD_cons]
        exact fun h0 => hpos (List.mem_append_left _ (h0 ▸ hmem))
      rw [if_pos hlast, hhead]
      rfl
  · rw [update_of_ne hi]
    split_ifs
    · exact h.head i
    · rw [update_of_ne hi]
      exact h.head i

/-- The lists without `b` hold the free blocks once `b` is detached. -/
theorem mem_detach (h : FreeLists s m A fl) (hA : A b = some (n, some blockFree))
    {l₁ l₂ : List ℕ} (hl : fl (classIndex n) = l₁ ++ b :: l₂) (i x : ℕ) :
    x ∈ update fl (classIndex n) (l₁ ++ l₂) i ↔
      ∃ j, update A b (some (n, none)) x = some (j, some blockFree) ∧ classIndex j = i := by
  by_cases hx : x = b
  · subst hx
    have hnot : x ∉ update fl (classIndex n) (l₁ ++ l₂) i := by
      by_cases hi : i = classIndex n
      · have hnd := h.nodup (classIndex n)
        rw [hl, List.nodup_middle, List.nodup_cons] at hnd
        rw [hi, update_self]
        exact hnd.1
      · rw [update_of_ne hi]
        exact h.not_mem_of_ne (Ne.symm hi) ((h.mem _ _).2 ⟨n, hA, rfl⟩)
    simp [hnot]
  · rw [update_of_ne hx, ← h.mem]
    by_cases hi : i = classIndex n
    · rw [hi, update_self, hl]
      simp [hx]
    · rw [update_of_ne hi]

/-- The bits stay truthful: those of a list that becomes empty are cleared. -/
theorem flRemove_truthful (h : FreeLists s m A fl) (hA : A b = some (n, some blockFree))
    {l₁ l₂ : List ℕ} (hl : fl (classIndex n) = l₁ ++ b :: l₂) :
    Bits (Tlsf.flRemove ⟨s, m⟩ b).ctl (update fl (classIndex n) (l₁ ++ l₂)) := by
  obtain ⟨hlo, hn, hlt⟩ := h.size hA
  obtain ⟨hfi, hsi⟩ := class_of_size hn hlt
  have hlist : listOf m b = classIndex n := by rw [listOf, hlo]
  have hpos := h.pos (classIndex n)
  rw [hl] at hpos
  refine flRemove_bits _ _ ?_
  simp only [h.flRemove_head (hlist ▸ hl), hlist, update_self, hlo]
  rcases hrest : l₁ ++ l₂ with _ | ⟨y, ys⟩
  · simp only [List.headD_nil, if_true]
    exact h.bits.clear hfi hsi
  · have hy0 : y ≠ 0 := by
      rintro rfl
      have h0 : 0 ∈ l₁ ++ l₂ := by simp [hrest]
      exact hpos ((List.Sublist.append_left (List.sublist_cons_self b l₂) l₁).subset h0)
    rw [List.headD_cons, if_neg hy0]
    have hold : fl (classIndex n) ≠ [] := by simp [hl]
    exact h.bits.keep hold (List.cons_ne_nil _ _)

/-- `fl_remove` of a free block detaches it. -/
theorem flRemove (h : FreeLists s m A fl) (hA : A b = some (n, some blockFree)) :
    FreeLists (flRemove ⟨s, m⟩ b).ctl (flRemove ⟨s, m⟩ b).mem (update A b (some (n, none)))
      (update fl (classIndex n) ((fl (classIndex n)).erase b)) := by
  have hlist : listOf m b = classIndex n := by rw [listOf, (h.size hA).1]
  obtain ⟨l₁, l₂, hl⟩ := List.append_of_mem ((h.mem _ _).2 ⟨n, hA, rfl⟩)
  have hnd := h.nodup (classIndex n)
  have hpos := h.pos (classIndex n)
  rw [hl] at hnd hpos
  have hb₁ : b ∉ l₁ := fun hb => (List.nodup_append.1 hnd).2.2 b hb b (by simp) rfl
  have hsub : (l₁ ++ l₂).Sublist (l₁ ++ b :: l₂) :=
    List.Sublist.append_left (List.sublist_cons_self b l₂) l₁
  rw [hl, List.erase_append_right _ hb₁, List.erase_cons_head]
  refine ⟨fun i => ?_, fun i => ?_, h.mem_detach hA hl, fun i => ?_, fun i => ?_,
    fun {x k} hx => ?_, h.flRemove_truthful hA hl⟩
  · by_cases hi : i = classIndex n
    · rw [hi, update_self]
      exact h.flRemove_seg hl
    · rw [update_of_ne hi]
      exact (h.seg i).congr (fun x hx => (h.flRemove_others hl hi hx).1)
        (fun x hx => (h.flRemove_others hl hi hx).2)
  · rw [h.flRemove_head (hlist ▸ hl), hlist]
  · by_cases hi : i = classIndex n
    · rw [hi, update_self]
      exact hnd.sublist hsub
    · rw [update_of_ne hi]
      exact h.nodup i
  · by_cases hi : i = classIndex n
    · rw [hi, update_self]
      exact fun h0 => hpos (hsub.subset h0)
    · rw [update_of_ne hi]
      exact h.pos i
  · rw [flRemove_lo]
    have hxb : x ≠ b := by
      rintro rfl
      simp at hx
    rw [update_of_ne hxb] at hx
    exact h.size hx

/-- Taking the head of a non-empty list is removing its first block. -/
theorem takeHead (h : FreeLists s m A fl) {fi si : ℕ} (hsi : si < 16)
    (hne : fl (idx fi si) ≠ []) :
    ∃ b n, A b = some (n, some blockFree) ∧ classIndex n = idx fi si ∧ m.w3 b = 0 ∧
      takeHead ⟨s, m⟩ fi si = some (b, Tlsf.flRemove ⟨s, m⟩ b) := by
  obtain ⟨b, l, hl⟩ := List.exists_cons_of_ne_nil hne
  have hmem : b ∈ fl (idx fi si) := by simp [hl]
  obtain ⟨n, hA, hcls⟩ := (h.mem _ _).1 hmem
  obtain ⟨hlo, hn, hlt⟩ := h.size hA
  obtain ⟨hfi', hsi'⟩ := (idx_inj (mappingInsert_snd_lt hn) hsi).1 hcls
  have hb0 : b ≠ 0 := fun he => h.pos _ (he ▸ hmem)
  have hhead : s.heads (idx fi si) = b := by rw [h.head, hl, List.headD_cons]
  have hw3 : m.w3 b = 0 := by
    have hseg := h.seg (idx fi si)
    rw [hl] at hseg
    exact hseg.1
  refine ⟨b, n, hA, hcls, hw3, ?_⟩
  simp only [Tlsf.takeHead, Tlsf.flRemove, hhead, if_neg hb0, hlo, hfi', hsi', hw3]
  by_cases hnext : m.w2 b = 0 <;> simp [hnext]

/-- `find_free` returns null, or detaches a block of the search class or a class above it. -/
theorem findFree_from (h : FreeLists s m A fl) {q : ℕ} (hfi : 0 ≤ (mappingSearch q).1) :
    findFree ⟨s, m⟩ q = some (0, ⟨s, m⟩) ∨
      ∃ b n, A b = some (n, some blockFree) ∧ searchClass q ≤ classIndex n ∧ m.w3 b = 0 ∧
        findFree ⟨s, m⟩ q = some (b, Tlsf.flRemove ⟨s, m⟩ b) := by
  have hsi := mappingSearch_snd_lt q
  -- a list of a class at or above the search class serves the request
  have hserve : ∀ f j, j < 16 → fl (idx f j) ≠ [] → searchClass q ≤ idx f j →
      ∃ b n, A b = some (n, some blockFree) ∧ searchClass q ≤ classIndex n ∧ m.w3 b = 0 ∧
        Tlsf.takeHead ⟨s, m⟩ f j = some (b, Tlsf.flRemove ⟨s, m⟩ b) := by
    intro f j hj hne hle
    obtain ⟨b, n, hA, hcls, hw3, htake⟩ := h.takeHead hj hne
    exact ⟨b, n, hA, hcls ▸ hle, hw3, htake⟩
  simp only [Tlsf.findFree]
  split_ifs with h₁ h₂ h₃ h₄ h₅
  · exact Or.inl rfl
  · omega
  · right
    obtain ⟨hbit, hle⟩ := getLsbD_ctz_mask h₃
    obtain ⟨hj, hne⟩ := (h.bits.sl _ _).1 hbit
    refine hserve _ _ hj hne ?_
    unfold searchClass idx
    omega
  · exact Or.inl rfl
  · obtain ⟨hbit, -⟩ := getLsbD_ctz_mask h₄
    exact absurd h₅ ((h.bits.top _).1 hbit)
  · right
    obtain ⟨-, hle⟩ := getLsbD_ctz_mask h₄
    obtain ⟨hj, hne⟩ := (h.bits.sl _ _).1 (BitVec.getLsbD_true_ctz_of_ne_zero h₅)
    refine hserve _ _ hj hne ?_
    unfold searchClass idx
    omega

/-- `find_free` returns null, or detaches a block that is large enough. -/
theorem findFree (h : FreeLists s m A fl) {q : ℕ} (hq : 64 ≤ q) (hlim : q ≤ 2 ^ 64 - 2 ^ 59) :
    findFree ⟨s, m⟩ q = some (0, ⟨s, m⟩) ∨
      ∃ b n, A b = some (n, some blockFree) ∧ q ≤ n ∧ m.w3 b = 0 ∧
        findFree ⟨s, m⟩ q = some (b, Tlsf.flRemove ⟨s, m⟩ b) := by
  rcases h.findFree_from (le_classLower_search hq hlim).1 with hnone | ⟨b, n, hA, hcls, hw3, hfind⟩
  · exact Or.inl hnone
  · exact Or.inr ⟨b, n, hA, le_of_search_le_class hq hlim (h.size hA).2.1 hcls, hw3, hfind⟩

/-- A search below `flCount` fails only if there is no block of its class or a class above it. -/
theorem findFree_null_from (h : FreeLists s m A fl) {q : ℕ} (hfi : 0 ≤ (mappingSearch q).1)
    (hin : (mappingSearch q).1 < s.flCount) :
    Tlsf.findFree ⟨s, m⟩ q = some (0, ⟨s, m⟩) ↔
      ∀ b n, A b = some (n, some blockFree) → classIndex n < searchClass q := by
  have hsi := mappingSearch_snd_lt q
  constructor
  · intro hnull b n hA
    obtain ⟨-, hn, -⟩ := h.size hA
    have hsn := mappingInsert_snd_lt hn
    by_contra hge
    rw [classIndex_eq hn] at hge
    unfold searchClass idx at hge
    have hlist : fl (idx (Nat.log2 n - 6) (mappingInsert n).2) ≠ [] :=
      List.ne_nil_of_mem ((h.mem _ b).2 ⟨n, hA, classIndex_eq hn⟩)
    have hbit := (h.bits.sl (Nat.log2 n - 6) (mappingInsert n).2).2 ⟨hsn, hlist⟩
    -- no list that the bitmaps name is empty
    have htake : ∀ {f j}, j < 16 → fl (idx f j) ≠ [] →
      Tlsf.takeHead ⟨s, m⟩ f j ≠ some (0, ⟨s, m⟩) := by
      intro f j hj hne hrun
      obtain ⟨b', n', hA', hcls, -, hrun'⟩ := h.takeHead hj hne
      rw [hrun', Option.some.injEq, Prod.mk.injEq] at hrun
      exact h.pos _ (hrun.1 ▸ (h.mem _ b').2 ⟨n', hA', hcls⟩)
    simp only [Tlsf.findFree] at hnull
    split_ifs at hnull with h₁ h₂ h₃ h₄ h₅
    · omega
    · obtain ⟨hset, -⟩ := getLsbD_ctz_mask h₃
      obtain ⟨hj, hne⟩ := (h.bits.sl _ _).1 hset
      exact htake hj hne hnull
    · rcases Nat.lt_or_ge (mappingSearch q).1.toNat (Nat.log2 n - 6) with hup | hsame
      · have hset := (h.bits.top (Nat.log2 n - 6)).2 (bitvec_ne_zero_iff.2 ⟨_, hbit⟩)
        refine bitvec_ne_zero_iff.2 ⟨Nat.log2 n - 6, ?_⟩ h₄
        rw [BitVec.getLsbD_and, hset, BitVec.getLsbD_shiftLeft, BitVec.getLsbD_allOnes]
        have := log2_sub_lt_flMax hn (h.size hA).2.2
        simp
        omega
      · refine bitvec_ne_zero_iff.2 ⟨(mappingInsert n).2, ?_⟩ (not_not.1 h₃)
        rw [show (mappingSearch q).1.toNat = Nat.log2 n - 6 by omega, BitVec.getLsbD_and, hbit,
          BitVec.getLsbD_shiftLeft, BitVec.getLsbD_allOnes]
        simp
        omega
    · obtain ⟨hj, hne⟩ := (h.bits.sl _ _).1 (BitVec.getLsbD_true_ctz_of_ne_zero h₅)
      exact htake hj hne hnull
  · intro hsmall
    rcases h.findFree_from hfi with hnone | ⟨b, n, hA, hcls, -⟩
    · exact hnone
    · exact absurd (hsmall b n hA) (not_lt.2 hcls)

theorem findFree_null_heads (h : FreeLists s m A fl) {q : ℕ} (hfi : 0 ≤ (mappingSearch q).1)
    (hin : (mappingSearch q).1 < s.flCount) :
    Tlsf.findFree ⟨s, m⟩ q = some (0, ⟨s, m⟩) ↔ ∀ i, searchClass q ≤ i → s.heads i = 0 := by
  rw [h.findFree_null_from hfi hin]
  constructor
  · intro hsmall i hi
    by_contra h0
    obtain ⟨n, hA, hcls⟩ :=
      (h.mem i _).1 (List.head_mem (l := fl i) fun he => h0 (by rw [h.head, he]; rfl))
    exact absurd (hsmall _ n hA) (not_lt.2 (hcls ▸ hi))
  · intro hempty b n hA
    by_contra hge
    have hmem : b ∈ fl (classIndex n) := (h.mem _ b).2 ⟨n, hA, rfl⟩
    have hhead := hempty _ (not_lt.1 hge)
    rw [h.head] at hhead
    obtain ⟨x, l, hl⟩ := List.exists_cons_of_ne_nil (List.ne_nil_of_mem hmem)
    rw [hl, List.headD_cons] at hhead
    exact h.pos (classIndex n) (by simp [hl, hhead])

theorem findFree_null_iff (h : FreeLists s m A fl) {q : ℕ} (hq : 64 ≤ q)
    (hlim : q ≤ 2 ^ 64 - 2 ^ 59)
    (hfl : ∀ {b n}, A b = some (n, some blockFree) → Nat.log2 n - 6 < s.flCount) :
    Tlsf.findFree ⟨s, m⟩ q = some (0, ⟨s, m⟩) ↔
      ∀ b n, A b = some (n, some blockFree) → classIndex n < searchClass q := by
  have hfi := (le_classLower_search hq hlim).1
  by_cases hin : (mappingSearch q).1 < s.flCount
  · exact h.findFree_null_from hfi hin
  · refine iff_of_true (if_pos (not_lt.1 hin)) fun b n hA => ?_
    have hlt := hfl hA
    have hn := (h.size hA).2.1
    have hsn := mappingInsert_snd_lt hn
    rw [classIndex_eq hn]
    unfold searchClass idx
    omega

end FreeLists
end AbcMalloc.Tlsf
