import AbcMalloc.Arena.RangeIndex

/-! What the operations on the index of a tier do to its bits and entries, and that every one of
them is the same operation on a list of sheets sorted by address. -/
namespace AbcMalloc.Arena
open Function Foundation

namespace RangeIndex
variable {ν : Type*} {maxSheets words pos i b k a : ℕ} {mask : ℕ → BitVec 64} {v : Bool}
  {t t' : RangeIndex ν} {r : Range ν}

/-! ## The bitmap -/

section Masks
variable (w : BitVec 64)

theorem getLsbD_loMask (hk : k < 64) (hb : b < 64) :
    (if b = 0 then 0#64 else 1#64 <<< b - 1#64).getLsbD k = decide (k < b) := by
  split_ifs with h
  · simp [h]
  · exact getLsbD_below hk hb

theorem getLsbD_hiKeepMask (hk : k < 64) (hb : b < 64) :
    (if b = 63 then 0#64 else ~~~(1#64 <<< (b + 1) - 1#64)).getLsbD k = decide (b < k) := by
  split_ifs with h
  · have : ¬b < k := by omega
    simp [this]
  · rw [BitVec.getLsbD_not, getLsbD_below hk (by omega)]
    by_cases hbk : b < k
    · have : ¬k < b + 1 := by omega
      simp [hk, hbk, this]
    · have : k < b + 1 := by omega
      simp [hbk, this]

theorem getLsbD_insertWord (hk : k < 64) (hb : b < 64) :
    ((w &&& if b = 0 then 0#64 else 1#64 <<< b - 1#64) |||
      ((w <<< 1) &&& if b = 63 then 0#64 else ~~~(1#64 <<< (b + 1) - 1#64)) |||
      ((if v then 1#64 else 0#64) <<< b)).getLsbD k =
      if k < b then w.getLsbD k else if k = b then v else w.getLsbD (k - 1) := by
  simp only [BitVec.getLsbD_or, BitVec.getLsbD_and, BitVec.getLsbD_shiftLeft,
    getLsbD_loMask hk hb, getLsbD_hiKeepMask hk hb, hk, decide_true, Bool.true_and]
  rcases lt_trichotomy k b with hlt | rfl | hgt
  · have h₁ : ¬b < k := by omega
    simp [hlt, h₁]
  · cases v <;> simp
  · have h₁ : ¬k < b := by omega
    have h₂ : k ≠ b := by omega
    have h₃ : k ≠ 0 := by omega
    have h₄ : k - b ≠ 0 := by omega
    have hv : (if v then 1#64 else 0#64).getLsbD (k - b) = false := by
      cases v <;> simp [h₄]
    rw [hv]
    simp [hgt, h₁, h₂, h₃]

theorem getLsbD_removeWord (next : BitVec 64) (hk : k < 64) (hb : b < 64) :
    ((w &&& if b = 0 then 0#64 else 1#64 <<< b - 1#64) |||
      ((w >>> 1) &&& if b = 0 then 1#64 <<< 63 - 1#64
        else (1#64 <<< 63 - 1#64) &&& ~~~(1#64 <<< b - 1#64)) |||
      (next <<< 63)).getLsbD k =
      if k < b then w.getLsbD k else if k < 63 then w.getLsbD (k + 1) else next.getLsbD 0 := by
  have hkeep : (if b = 0 then 1#64 <<< 63 - 1#64
      else (1#64 <<< 63 - 1#64) &&& ~~~(1#64 <<< b - 1#64)).getLsbD k =
      (decide (b ≤ k) && decide (k < 63)) := by
    split_ifs with h
    · rw [getLsbD_below hk (by decide)]
      simp [h]
    · rw [BitVec.getLsbD_and, BitVec.getLsbD_not, getLsbD_below hk (by decide),
        getLsbD_below hk hb]
      by_cases hbk : b ≤ k
      · have : ¬k < b := by omega
        simp [hbk, this, hk]
      · have : k < b := by omega
        simp [hbk, this]
  simp only [BitVec.getLsbD_or, BitVec.getLsbD_and, BitVec.getLsbD_shiftLeft,
    BitVec.getLsbD_ushiftRight, getLsbD_loMask hk hb, hkeep, hk, decide_true, Bool.true_and]
  by_cases hlt : k < b
  · have h₁ : ¬b ≤ k := by omega
    have h₂ : k < 63 := by omega
    simp [hlt, h₁, h₂]
  · by_cases htop : k < 63
    · have h₁ : b ≤ k := by omega
      simp [hlt, htop, h₁, Nat.add_comm]
    · obtain rfl : k = 63 := by omega
      simp [hlt]

end Masks

/-- `__mask_insert` puts a bit in front of the bits from `pos` on. -/
theorem bit_maskInsert (hi : i / 64 < words) :
    bit (maskInsert words mask pos v) i =
      if i < pos then bit mask i else if i = pos then v else bit mask (i - 1) := by
  have hmod : i % 64 < 64 := Nat.mod_lt _ (by decide)
  have hmod' : pos % 64 < 64 := Nat.mod_lt _ (by decide)
  unfold bit maskInsert
  simp only [carryUp_apply]
  rcases lt_trichotomy (i / 64) (pos / 64) with hlt | heq | hgt
  · have hi : i < pos := by omega
    rw [if_neg (by omega), update_of_ne (by omega), if_pos hi]
  · rw [if_neg (by omega), heq, update_self, getLsbD_insertWord _ hmod hmod']
    have h₁ : i % 64 < pos % 64 ↔ i < pos := by omega
    have h₂ : i % 64 = pos % 64 ↔ i = pos := by omega
    simp only [h₁, h₂]
    split_ifs with hip hie
    · rfl
    · rfl
    · have h₃ : (i - 1) / 64 = pos / 64 := by omega
      have h₄ : (i - 1) % 64 = i % 64 - 1 := by omega
      rw [h₃, h₄]
  · -- a word behind the one of the bit
    have h₁ : ¬i < pos := by omega
    have h₂ : i ≠ pos := by omega
    rw [if_pos ⟨by omega, hi⟩, update_of_ne (by omega), if_neg h₁, if_neg h₂,
      BitVec.getLsbD_or, BitVec.getLsbD_shiftLeft]
    have hcarry : ∀ y, (if i / 64 = pos / 64 + 1 then (mask (pos / 64) >>> 63) &&& 1#64
        else (update mask (pos / 64) y (i / 64 - 1) >>> 63) &&& 1#64) =
        (mask (i / 64 - 1) >>> 63) &&& 1#64 := by
      intro y
      split_ifs with h
      · rw [h, Nat.add_sub_cancel]
      · rw [update_of_ne (by omega)]
    rw [hcarry, BitVec.getLsbD_and, BitVec.getLsbD_ushiftRight]
    by_cases hz : i % 64 = 0
    · have h₃ : (i - 1) / 64 = i / 64 - 1 := by omega
      have h₄ : (i - 1) % 64 = 63 := by omega
      rw [hz, h₃, h₄]
      simp
    · have h₃ : (i - 1) / 64 = i / 64 := by omega
      have h₄ : (i - 1) % 64 = i % 64 - 1 := by omega
      rw [h₃, h₄]
      simp [hz, hmod]

/-- `__mask_remove` drops a bit and moves the bits behind it down; a 0 comes in at the end. -/
theorem bit_maskRemove (hpos : pos / 64 < words) (hi : i / 64 < words) :
    bit (maskRemove words mask pos) i =
      if i < pos then bit mask i
      else if (i + 1) / 64 < words then bit mask (i + 1) else false := by
  have hmod : i % 64 < 64 := Nat.mod_lt _ (by decide)
  have hmod' : pos % 64 < 64 := Nat.mod_lt _ (by decide)
  unfold bit maskRemove
  simp only [carryDown_apply]
  rcases lt_trichotomy (i / 64) (pos / 64) with hlt | heq | hgt
  · have hi : i < pos := by omega
    rw [if_neg (by omega), update_of_ne (by omega), if_pos hi]
  · rw [if_neg (by omega), heq, update_self, getLsbD_removeWord _ _ hmod hmod']
    have h₁ : i % 64 < pos % 64 ↔ i < pos := by omega
    simp only [h₁]
    split_ifs with hip htop hw hnext hw
    · rfl
    · have h₂ : (i + 1) / 64 = pos / 64 := by omega
      have h₃ : (i + 1) % 64 = i % 64 + 1 := by omega
      rw [h₂, h₃]
    · omega
    · have h₂ : (i + 1) / 64 = pos / 64 + 1 := by omega
      have h₃ : (i + 1) % 64 = 0 := by omega
      rw [h₂, h₃]
      simp
    · omega
    · omega
    · rfl
  · -- a word behind the one of the bit
    have h₁ : ¬i < pos := by omega
    rw [if_pos ⟨by omega, hi⟩, update_of_ne (by omega), update_of_ne (by omega), if_neg h₁,
      BitVec.getLsbD_or, BitVec.getLsbD_shiftLeft, BitVec.getLsbD_ushiftRight]
    by_cases htop : i % 64 = 63
    · have h₂ : (i + 1) / 64 = i / 64 + 1 := by omega
      have h₃ : (i + 1) % 64 = 0 := by omega
      rw [h₂, h₃, htop]
      split_ifs with hnext
      · simp
      · simp
    · have h₂ : (i + 1) / 64 = i / 64 := by omega
      have h₃ : (i + 1) % 64 = 1 + i % 64 := by omega
      have h₄ : i % 64 < 63 := by omega
      rw [h₂, h₃, if_pos hi]
      simp [h₄]

theorem maskGet_markAvailable : (t.markAvailable pos).maskGet i = (t.maskGet i || i = pos) := by
  unfold markAvailable maskGet bit
  have hmod : pos % 64 < 64 := Nat.mod_lt _ (by decide)
  by_cases hw : i / 64 = pos / 64
  · have hiff : i % 64 = pos % 64 ↔ i = pos := by omega
    simp only [hw, update_self, getLsbD_setBit _ hmod, hiff]
  · have hne : i ≠ pos := fun h => hw (by rw [h])
    simp [update_of_ne hw, hne]

theorem maskGet_markExhausted : (t.markExhausted pos).maskGet i = (t.maskGet i && i ≠ pos) := by
  unfold markExhausted maskGet bit
  have hmod : pos % 64 < 64 := Nat.mod_lt _ (by decide)
  by_cases hw : i / 64 = pos / 64
  · have hiff : i % 64 ≠ pos % 64 ↔ i ≠ pos := by omega
    simp only [hw, update_self, getLsbD_clearBit _ hmod, hiff]
  · have hne : i ≠ pos := fun h => hw (by rw [h])
    simp [update_of_ne hw, hne]

theorem clearMask_apply {n : ℕ} : clearMask mask n i = if i < n then 0 else mask i := by
  induction n with
  | zero => rfl
  | succ n ih =>
    rw [clearMask]
    rcases eq_or_ne i n with rfl | hne
    · rw [update_self, if_pos (Nat.lt_succ_self i)]
    · have hiff : i < n ↔ i < n + 1 := by omega
      rw [update_of_ne hne, ih]
      simp only [hiff]

/-- Every position has its bit when the number of words does not wrap. -/
theorem lt_detailWords (hmax : maxSheets ≤ 2 ^ 32 - 64) (hi : i < maxSheets) :
    i / 64 < detailWords maxSheets := by
  unfold detailWords
  omega

/-! ## Operations -/

/-- What a client of the index does: `hit` is an assignment to `__last_hit`. -/
inductive Op (ν : Type*)
  | register (r : Range ν)
  | unregister (pos : ℕ)
  | markExhausted (pos : ℕ)
  | markAvailable (pos : ℕ)
  | hit (pos : ℕ)

/-- Sheets with non-empty ranges that meet no registered one; positions below `__count`. -/
def Permitted (t : RangeIndex ν) : Op ν → Prop
  | .register r => r.lo < r.hi ∧ ∀ i < t.count, r.hi ≤ (t.idx i).lo ∨ (t.idx i).hi ≤ r.lo
  | .unregister _ => True
  | .markExhausted pos | .markAvailable pos | .hit pos => pos < t.count

def apply (maxSheets : ℕ) (t : RangeIndex ν) : Op ν → RangeIndex ν
  | .register r => (t.registerSheet maxSheets r).2
  | .unregister pos => t.unregister maxSheets pos
  | .markExhausted pos => t.markExhausted pos
  | .markAvailable pos => t.markAvailable pos
  | .hit pos => { t with lastHit := pos }

/-! ## The sorted list -/

/-- A list of sheets in ascending order of their addresses: the range, the node, and whether the
sheet has space. -/
abbrev SheetList (ν : Type*) := List (Range ν × Bool)

namespace SheetList

def apply (maxSheets : ℕ) (l : SheetList ν) : Op ν → SheetList ν
  | .register r =>
    if maxSheets ≤ l.length then l else l.orderedInsert (fun e e' => e.1.lo ≤ e'.1.lo) (r, true)
  | .unregister pos => l.eraseIdx pos
  | .markExhausted pos => l.modify pos fun e => (e.1, false)
  | .markAvailable pos => l.modify pos fun e => (e.1, true)
  | .hit _ => l

def Permitted (l : SheetList ν) : Op ν → Prop
  | .register r => r.lo < r.hi ∧ ∀ e ∈ l, r.hi ≤ e.1.lo ∨ e.1.hi ≤ r.lo
  | .unregister _ => True
  | .markExhausted pos | .markAvailable pos | .hit pos => pos < l.length

instance (l : SheetList ν) : DecidablePred (Permitted l)
  | .register r =>
    inferInstanceAs (Decidable (r.lo < r.hi ∧ ∀ e ∈ l, r.hi ≤ e.1.lo ∨ e.1.hi ≤ r.lo))
  | .unregister _ => inferInstanceAs (Decidable True)
  | .markExhausted pos => inferInstanceAs (Decidable (pos < l.length))
  | .markAvailable pos => inferInstanceAs (Decidable (pos < l.length))
  | .hit pos => inferInstanceAs (Decidable (pos < l.length))

end SheetList

def sheets (t : RangeIndex ν) : SheetList ν := toList (fun i => (t.idx i, t.maskGet i)) t.count

@[simp] theorem length_sheets (t : RangeIndex ν) : t.sheets.length = t.count := length_toList

theorem permitted_iff {op : Op ν} : SheetList.Permitted t.sheets op ↔ t.Permitted op := by
  cases op with
  | register r => simp [SheetList.Permitted, Permitted, sheets, toList]
  | unregister pos => exact Iff.rfl
  | markExhausted pos => simp [SheetList.Permitted, Permitted]
  | markAvailable pos => simp [SheetList.Permitted, Permitted]
  | hit pos => simp [SheetList.Permitted, Permitted]

/-! ## The invariant -/

/-- Ranges in ascending order, no bits behind the last sheet, and a last hit that is a sheet. -/
structure Ordered (maxSheets : ℕ) (t : RangeIndex ν) : Prop where
  count_le : t.count ≤ maxSheets
  nonempty : ∀ i < t.count, (t.idx i).lo < (t.idx i).hi
  ordered : ∀ i j, i < j → j < t.count → (t.idx i).hi ≤ (t.idx j).lo
  clear : ∀ i, t.count ≤ i → i / 64 < detailWords maxSheets → t.maskGet i = false
  hit : t.lastHit = noHit maxSheets ∨ t.lastHit < t.count

theorem ordered_init (junk : RangeIndex ν) : (init maxSheets junk).Ordered maxSheets where
  count_le := Nat.zero_le _
  nonempty i hi := absurd hi (Nat.not_lt_zero i)
  ordered i j _ hj := absurd hj (Nat.not_lt_zero j)
  clear i _ hw := by
    unfold maskGet bit init
    simp [clearMask_apply, hw]
  hit := .inl rfl

theorem insertPos_spec (lo : ℕ) : pos ≤ t.count → (∀ i < pos, (t.idx i).lo < lo) →
    t.insertPos lo pos ≤ t.count ∧ (∀ i < t.insertPos lo pos, (t.idx i).lo < lo) ∧
      (t.insertPos lo pos < t.count → lo ≤ (t.idx (t.insertPos lo pos)).lo) := by
  fun_induction insertPos t lo pos with
  | case1 pos h ih =>
    intro _ hlt
    apply ih h.1
    intro i hi
    rcases Nat.lt_succ_iff_lt_or_eq.1 hi with hi | rfl
    · exact hlt i hi
    · exact h.2
  | case2 pos h =>
    intro hpos hlt
    refine ⟨hpos, hlt, fun hc => ?_⟩
    by_contra hlo
    exact h ⟨hc, by omega⟩

structure Inserted (maxSheets : ℕ) (r : Range ν) (pos : ℕ) (t t' : RangeIndex ν) : Prop where
  pos_le : pos ≤ t.count
  below : ∀ i < pos, (t.idx i).lo < r.lo
  above : pos < t.count → r.lo ≤ (t.idx pos).lo
  count : t'.count = t.count + 1
  idx_lt : ∀ i < pos, t'.idx i = t.idx i
  idx_self : t'.idx pos = r
  idx_succ : ∀ i, pos ≤ i → i < t.count → t'.idx (i + 1) = t.idx i
  idx_frame : ∀ i, t.count < i → t'.idx i = t.idx i
  mask : t'.spaceMask = maskInsert (detailWords maxSheets) t.spaceMask pos true
  hit : t'.lastHit = if t.lastHit ≠ noHit maxSheets ∧ pos ≤ t.lastHit ∧ t.lastHit + 1 < maxSheets
    then t.lastHit + 1 else t.lastHit

theorem registerSheet_inserted (hroom : t.count < maxSheets) (r : Range ν) :
    Inserted maxSheets r (t.registerSheet maxSheets r).1 t (t.registerSheet maxSheets r).2 := by
  obtain ⟨hpos, hbelow, habove⟩ := insertPos_spec r.lo (Nat.zero_le t.count) (by simp)
  unfold registerSheet
  rw [if_neg (by omega)]
  simp only
  generalize t.insertPos r.lo 0 = pos at hpos hbelow habove ⊢
  constructor
  · exact hpos
  · exact hbelow
  · exact habove
  · rfl
  · intro i hi
    simp only
    rw [update_of_ne (by omega), shiftRight_apply, if_neg (by omega)]
  · exact update_self _ _ _
  · intro i hpi hi
    simp only
    rw [update_of_ne (by omega), shiftRight_apply, if_pos (by omega), Nat.add_sub_cancel]
  · intro i hi
    simp only
    rw [update_of_ne (by omega), shiftRight_apply, if_neg (by omega)]
  · rfl
  · rfl

structure Removed (maxSheets : ℕ) (pos : ℕ) (t t' : RangeIndex ν) : Prop where
  count : t'.count = t.count - 1
  idx_lt : ∀ i < pos, t'.idx i = t.idx i
  idx_ge : ∀ i, pos ≤ i → i + 1 < t.count → t'.idx i = t.idx (i + 1)
  idx_frame : ∀ i, t.count ≤ i + 1 → t'.idx i = t.idx i
  mask : t'.spaceMask = maskRemove (detailWords maxSheets) t.spaceMask pos
  hit : t'.lastHit = if t.lastHit ≠ noHit maxSheets then
      if pos = t.lastHit then noHit maxSheets
      else if pos < t.lastHit then t.lastHit - 1 else t.lastHit
    else t.lastHit

theorem unregister_removed (hpos : pos < t.count) :
    Removed maxSheets pos t (t.unregister maxSheets pos) := by
  unfold unregister
  rw [if_neg (by omega)]
  constructor
  · rfl
  · intro i hi
    simp only
    rw [shiftLeft_apply, if_neg (by omega)]
  · intro i hpi hi
    simp only
    rw [shiftLeft_apply, if_pos ⟨hpi, hi⟩]
  · intro i hi
    simp only
    rw [shiftLeft_apply, if_neg (by omega)]
  · rfl
  · rfl

namespace Inserted
variable (h : Inserted maxSheets r pos t t')
include h

theorem maskGet (hi : i / 64 < detailWords maxSheets) : t'.maskGet i =
    if i < pos then t.maskGet i else if i = pos then true else t.maskGet (i - 1) := by
  unfold RangeIndex.maskGet
  rw [h.mask, bit_maskInsert hi]

theorem sheets_eq (hmax : maxSheets ≤ 2 ^ 32 - 64) (hroom : t.count < maxSheets) :
    t'.sheets = SheetList.apply maxSheets t.sheets (.register r) := by
  have hpos := h.pos_le
  have hlength := t.length_sheets
  have hinsert : t'.sheets = t.sheets.insertIdx pos (r, true) := by
    unfold sheets
    rw [h.count]
    apply toList_insert hpos
    · intro i hi
      rw [h.idx_lt i hi, h.maskGet (lt_detailWords hmax (by omega)), if_pos hi]
    · rw [h.idx_self, h.maskGet (lt_detailWords hmax (by omega)), if_neg (by omega), if_pos rfl]
    · intro i hpi hi
      rw [h.idx_succ i hpi hi, h.maskGet (lt_detailWords hmax (by omega)), if_neg (by omega),
        if_neg (by omega), Nat.add_sub_cancel]
  rw [hinsert]
  simp only [SheetList.apply]
  rw [if_neg (by omega)]
  symm
  apply orderedInsert_eq_insertIdx
  · rwa [hlength]
  · intro i hi hip
    have := h.below i hip
    simp only [sheets, getElem_toList]
    omega
  · intro hp
    simp only [sheets, getElem_toList]
    exact h.above (hlength ▸ hp)

theorem ordered (hO : t.Ordered maxSheets) (hroom : t.count < maxSheets)
    (hperm : t.Permitted (.register r)) : t'.Ordered maxSheets := by
  have hpos := h.pos_le
  -- the entry at a position of the new index
  have hat : ∀ i < t'.count, (i < pos ∧ t'.idx i = t.idx i) ∨ (i = pos ∧ t'.idx i = r) ∨
      (pos < i ∧ i - 1 < t.count ∧ t'.idx i = t.idx (i - 1)) := by
    intro i hi
    rw [h.count] at hi
    rcases lt_trichotomy i pos with hlt | rfl | hgt
    · exact .inl ⟨hlt, h.idx_lt i hlt⟩
    · exact .inr (.inl ⟨rfl, h.idx_self⟩)
    · have := h.idx_succ (i - 1) (by omega) (by omega)
      rw [Nat.sub_add_cancel (by omega)] at this
      exact .inr (.inr ⟨hgt, by omega, this⟩)
  -- the new range lies between its neighbours
  have hbefore : ∀ i < pos, (t.idx i).hi ≤ r.lo := by
    intro i hi
    have hlo := h.below i hi
    have hne := hO.nonempty i (by omega)
    have hnew := hperm.1
    rcases hperm.2 i (by omega) with hd | hd
    · omega
    · exact hd
  have hbehind : ∀ i, pos ≤ i → i < t.count → r.hi ≤ (t.idx i).lo := by
    intro i hpi hi
    have hlo : r.lo ≤ (t.idx i).lo := by
      have hfirst := h.above (by omega)
      rcases hpi.eq_or_lt with rfl | hlt
      · exact hfirst
      · have := hO.nonempty pos (by omega)
        have := hO.ordered pos i hlt hi
        omega
    have hne := hO.nonempty i hi
    rcases hperm.2 i hi with hd | hd
    · exact hd
    · omega
  constructor
  · rw [h.count]
    exact hroom
  · intro i hi
    rcases hat i hi with ⟨hlt, he⟩ | ⟨-, he⟩ | ⟨-, hlt, he⟩
    · rw [he]
      exact hO.nonempty i (by omega)
    · rw [he]
      exact hperm.1
    · rw [he]
      exact hO.nonempty _ hlt
  · intro i j hij hj
    rcases hat i (by omega) with ⟨hi', he⟩ | ⟨hi', he⟩ | ⟨hi', hi'', he⟩
    · rcases hat j hj with ⟨hj', hf⟩ | ⟨hj', hf⟩ | ⟨hj', hj'', hf⟩
      · rw [he, hf]
        exact hO.ordered i j hij (by omega)
      · rw [he, hf]
        exact hbefore i hi'
      · rw [he, hf]
        exact hO.ordered i (j - 1) (by omega) hj''
    · rcases hat j hj with ⟨hj', hf⟩ | ⟨hj', hf⟩ | ⟨hj', hj'', hf⟩
      · omega
      · omega
      · rw [he, hf]
        exact hbehind (j - 1) (by omega) hj''
    · rcases hat j hj with ⟨hj', hf⟩ | ⟨hj', hf⟩ | ⟨hj', hj'', hf⟩
      · omega
      · omega
      · rw [he, hf]
        exact hO.ordered (i - 1) (j - 1) (by omega) hj''
  · intro i hi hw
    rw [h.count] at hi
    rw [h.maskGet hw, if_neg (by omega), if_neg (by omega)]
    exact hO.clear (i - 1) (by omega) (by omega)
  · rw [h.hit, h.count]
    rcases hO.hit with hno | hlt
    · left
      rw [if_neg (by simp [hno]), hno]
    · right
      split_ifs <;> omega

end Inserted

namespace Removed
variable (h : Removed maxSheets pos t t')
include h

theorem maskGet (hpos : pos / 64 < detailWords maxSheets) (hi : i / 64 < detailWords maxSheets) :
    t'.maskGet i = if i < pos then t.maskGet i
      else if (i + 1) / 64 < detailWords maxSheets then t.maskGet (i + 1) else false := by
  unfold RangeIndex.maskGet
  rw [h.mask, bit_maskRemove hpos hi]

theorem sheets_eq (hmax : maxSheets ≤ 2 ^ 32 - 64) (hle : t.count ≤ maxSheets)
    (hpos : pos < t.count) : t'.sheets = t.sheets.eraseIdx pos := by
  unfold sheets
  rw [h.count]
  apply toList_erase hpos
  · intro i hi
    rw [h.idx_lt i hi, h.maskGet (lt_detailWords hmax (by omega)) (lt_detailWords hmax (by omega)),
      if_pos hi]
  · intro i hpi hi
    rw [h.idx_ge i hpi hi, h.maskGet (lt_detailWords hmax (by omega))
      (lt_detailWords hmax (by omega)), if_neg (by omega),
      if_pos (lt_detailWords hmax (by omega))]

theorem ordered (hmax : maxSheets ≤ 2 ^ 32 - 64) (hO : t.Ordered maxSheets)
    (hpos : pos < t.count) : t'.Ordered maxSheets := by
  have hle := hO.count_le
  -- the entry at a position comes from one at or behind it
  have hat : ∀ i < t'.count, (i < pos ∧ t'.idx i = t.idx i) ∨
      (pos ≤ i ∧ i + 1 < t.count ∧ t'.idx i = t.idx (i + 1)) := by
    intro i hi
    rw [h.count] at hi
    by_cases hip : i < pos
    · exact .inl ⟨hip, h.idx_lt i hip⟩
    · exact .inr ⟨by omega, by omega, h.idx_ge i (by omega) (by omega)⟩
  constructor
  · rw [h.count]
    omega
  · intro i hi
    rcases hat i hi with ⟨hlt, he⟩ | ⟨-, hlt, he⟩
    · rw [he]
      exact hO.nonempty i (by omega)
    · rw [he]
      exact hO.nonempty _ hlt
  · intro i j hij hj
    rcases hat i (by omega) with ⟨hi', he⟩ | ⟨hi', hi'', he⟩
    · rcases hat j hj with ⟨hj', hf⟩ | ⟨hj', hj'', hf⟩
      · rw [he, hf]
        exact hO.ordered i j hij (by omega)
      · rw [he, hf]
        exact hO.ordered i (j + 1) (by omega) hj''
    · rcases hat j hj with ⟨hj', hf⟩ | ⟨hj', hj'', hf⟩
      · omega
      · rw [he, hf]
        exact hO.ordered (i + 1) (j + 1) (by omega) hj''
  · intro i hi hw
    rw [h.count] at hi
    rw [h.maskGet (lt_detailWords hmax (by omega)) hw, if_neg (by omega)]
    split_ifs with hnext
    · exact hO.clear (i + 1) (by omega) hnext
    · rfl
  · rw [h.hit, h.count]
    rcases hO.hit with hno | hlt
    · left
      rw [if_neg (by simp [hno]), hno]
    · split_ifs with hne he hlt'
      · exact .inl rfl
      · right
        omega
      · right
        omega
      · left
        simpa using hne

end Removed

/-! ## Steps -/

theorem register_full (h : maxSheets ≤ t.count) : t.registerSheet maxSheets r = (maxSheets, t) := by
  unfold registerSheet
  rw [if_pos h]

theorem unregister_beyond (h : t.count ≤ pos) : t.unregister maxSheets pos = t := by
  unfold unregister
  rw [if_pos h]

theorem Ordered.markAvailable (hO : t.Ordered maxSheets) (hpos : pos < t.count) :
    (t.markAvailable pos).Ordered maxSheets where
  count_le := hO.count_le
  nonempty := hO.nonempty
  ordered := hO.ordered
  clear i hi hw := by
    have hne : i ≠ pos := fun h => absurd hi (by subst h; exact not_le.2 hpos)
    rw [maskGet_markAvailable, hO.clear i hi hw]
    simp [hne]
  hit := hO.hit

theorem Ordered.markExhausted (hO : t.Ordered maxSheets) :
    (t.markExhausted pos).Ordered maxSheets where
  count_le := hO.count_le
  nonempty := hO.nonempty
  ordered := hO.ordered
  clear i hi hw := by rw [maskGet_markExhausted, hO.clear i hi hw, Bool.false_and]
  hit := hO.hit

theorem apply_sheets (hmax : maxSheets ≤ 2 ^ 32 - 64) (hO : t.Ordered maxSheets) {op : Op ν}
    (hperm : t.Permitted op) :
    (t.apply maxSheets op).sheets = SheetList.apply maxSheets t.sheets op ∧
      (t.apply maxSheets op).Ordered maxSheets := by
  have hlength := t.length_sheets
  cases op with
  | register r =>
    simp only [apply]
    by_cases hroom : t.count < maxSheets
    · have h := registerSheet_inserted hroom r
      exact ⟨h.sheets_eq hmax hroom, h.ordered hO hroom hperm⟩
    · rw [register_full (by omega)]
      refine ⟨?_, hO⟩
      simp only [SheetList.apply]
      rw [if_pos (by omega)]
  | unregister pos =>
    simp only [apply, SheetList.apply]
    by_cases hpos : pos < t.count
    · have h : Removed maxSheets pos t _ := unregister_removed hpos
      exact ⟨h.sheets_eq hmax hO.count_le hpos, h.ordered hmax hO hpos⟩
    · rw [unregister_beyond (by omega)]
      refine ⟨?_, hO⟩
      rw [List.eraseIdx_of_length_le (by omega)]
  | markExhausted pos =>
    refine ⟨?_, hO.markExhausted⟩
    apply toList_modify
    · simp only [apply]
      rw [maskGet_markExhausted]
      simp [markExhausted]
    · intro i _ hne
      simp only [apply]
      rw [maskGet_markExhausted]
      simp [markExhausted, hne]
  | markAvailable pos =>
    refine ⟨?_, hO.markAvailable hperm⟩
    apply toList_modify
    · simp only [apply]
      rw [maskGet_markAvailable]
      simp [markAvailable]
    · intro i _ hne
      simp only [apply]
      rw [maskGet_markAvailable]
      simp [markAvailable, hne]
  | hit pos =>
    refine ⟨rfl, ?_⟩
    exact ⟨hO.count_le, hO.nonempty, hO.ordered, hO.clear, .inr hperm⟩

end RangeIndex
end AbcMalloc.Arena
