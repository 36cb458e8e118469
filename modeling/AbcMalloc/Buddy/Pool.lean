import AbcMalloc.Buddy.Runs
import Mathlib.Order.CompletePartialOrder

/-! Where `__impl_init_memory` puts the tags and the blocks of a pool that holds its own tags.
The tag area is sized from `(usable + Min) / (Min + 1)`, before the block area is known. -/
namespace AbcMalloc.Buddy
open Function Foundation

/-- `aligned`, the first address of the pool that is a multiple of eight. Without external tags
it is `block_tags`. -/
def alignedStart (ptr : ℕ) : ℕ := (ptr + 7) % 2 ^ 64 / 8 * 8

def tagArea (minLog usable : ℕ) : ℕ :=
  let approxTags := (usable + 2 ^ minLog) % 2 ^ 64 / (2 ^ minLog + 1)
  (approxTags + 2 ^ minLog - 1) % 2 ^ 64 / 2 ^ minLog * 2 ^ minLog

section Arithmetic
variable {minLog ptr len usable k : ℕ}

theorem alignedStart_spec (hptr : ptr + len ≤ 2 ^ 64)
    (hlen : ¬len ≤ (alignedStart ptr + (2 ^ 64 - ptr)) % 2 ^ 64) :
    alignedStart ptr = ptr + (alignedStart ptr + (2 ^ 64 - ptr)) % 2 ^ 64 := by
  unfold alignedStart at hlen ⊢
  omega

/-- The area holds a tag for each block of minimum size behind it. -/
theorem tags_le_tagArea (hno : usable + 2 ^ minLog < 2 ^ 64)
    (hfit : tagArea minLog usable < usable) :
    (usable - tagArea minLog usable) / 2 ^ minLog ≤ tagArea minLog usable := by
  have hM := Nat.two_pow_pos minLog
  unfold tagArea at hfit ⊢
  dsimp only at hfit ⊢
  generalize 2 ^ minLog = M at hno hfit hM ⊢
  rw [Nat.mod_eq_of_lt hno] at hfit ⊢
  -- `approx_tags` is the quotient rounded up
  have happrox : usable ≤ (usable + M) / (M + 1) * (M + 1) := by
    have := Nat.lt_div_mul_add (a := usable + M) (show 0 < M + 1 by omega)
    omega
  have hsmall : (usable + M) / (M + 1) ≤ usable := by
    apply Nat.div_le_of_le_mul
    rw [Nat.add_mul, Nat.one_mul]
    have := Nat.mul_le_mul_left M (show 1 ≤ usable by omega)
    omega
  generalize (usable + M) / (M + 1) = approx at happrox hsmall hfit ⊢
  have hround : approx ≤ (approx + M - 1) / M * M := by
    have := Nat.lt_div_mul_add (a := approx + M - 1) hM
    omega
  have happrox' : approx + M - 1 < 2 ^ 64 := by omega
  rw [Nat.mod_eq_of_lt happrox'] at hfit ⊢
  generalize (approx + M - 1) / M * M = area at hround hfit ⊢
  refine le_trans ?_ hround
  rw [Nat.div_le_iff_le_mul_add_pred hM]
  rw [Nat.mul_add, Nat.mul_one] at happrox
  rw [Nat.mul_comm]
  omega

theorem initMemory_eq_formatPool {m : Mem} {tags : ℕ → ℕ} (hptr : ptr + len ≤ 2 ^ 64)
    (hacc : (initMemory minLog m ptr len false tags).ctl.base ≠ 0) :
    ∃ usable, alignedStart ptr + usable = ptr + len ∧ ptr ≤ alignedStart ptr ∧
      tagArea minLog usable < usable ∧
      2 ^ minLog ≤ (usable - tagArea minLog usable) / 2 ^ minLog * 2 ^ minLog ∧
      initMemory minLog m ptr len false tags =
        formatPool minLog m (alignedStart ptr + tagArea minLog usable)
          ((usable - tagArea minLog usable) / 2 ^ minLog * 2 ^ minLog) false tags := by
  have hempty : (BuddyList.empty minLog).base = 0 := rfl
  have hspec := alignedStart_spec hptr
  unfold initMemory at hacc ⊢
  dsimp only at hacc ⊢
  rw [← alignedStart] at hacc ⊢
  generalize (alignedStart ptr + (2 ^ 64 - ptr)) % 2 ^ 64 = adjust at hacc hspec ⊢
  by_cases h₁ : len ≤ adjust
  · rw [if_pos h₁] at hacc
    exact absurd hempty hacc
  rw [if_neg h₁] at hacc ⊢
  simp only [Bool.false_eq_true, if_false] at hacc ⊢
  rw [← tagArea] at hacc ⊢
  by_cases h₂ : len - adjust ≤ tagArea minLog (len - adjust)
  · rw [if_pos h₂] at hacc
    exact absurd hempty hacc
  rw [if_neg h₂] at hacc ⊢
  by_cases h₃ : (len - adjust - tagArea minLog (len - adjust)) / 2 ^ minLog * 2 ^ minLog <
    2 ^ minLog
  · rw [if_pos h₃] at hacc
    exact absurd hempty hacc
  rw [if_neg h₃]
  have hstart := hspec h₁
  exact ⟨len - adjust, by omega, by omega, not_le.1 h₂, not_lt.1 h₃, rfl⟩

/-- The largest block of a pool of whole minimum-size units fits and takes more than half. -/
theorem formatPool_top {m : Mem} {tags : ℕ → ℕ} {base total : ℕ} {ext : Bool}
    (hdvd : 2 ^ minLog ∣ total) (hpos : 2 ^ minLog ≤ total) (hlt : total < 2 ^ 64) :
    (formatPool minLog m base total ext tags).ctl.orderSize
        ((formatPool minLog m base total ext tags).ctl.maxOrder - 1) ≤ total ∧
      total < 2 * (formatPool minLog m base total ext tags).ctl.orderSize
        ((formatPool minLog m base total ext tags).ctl.maxOrder - 1) := by
  have hM := Nat.two_pow_pos minLog
  have hunits : 0 < total / 2 ^ minLog := Nat.div_pos hpos hM
  have htotal : total / 2 ^ minLog * 2 ^ minLog = total := Nat.div_mul_cancel hdvd
  have hlow := Nat.log2_self_le hunits.ne'
  have hhigh := Nat.lt_log2_self (n := total / 2 ^ minLog)
  have hlog : (total / 2 ^ minLog).log2 < 64 := by
    rw [Nat.log2_lt hunits.ne']
    exact (Nat.div_le_self _ _).trans_lt hlt
  show 2 ^ (minLog + (min 64 ((total / 2 ^ minLog).log2 + 1) - 1)) ≤ total ∧
    total < 2 * 2 ^ (minLog + (min 64 ((total / 2 ^ minLog).log2 + 1) - 1))
  rw [show min 64 ((total / 2 ^ minLog).log2 + 1) - 1 = (total / 2 ^ minLog).log2 by omega]
  generalize total / 2 ^ minLog = units at htotal hlow hhigh
  rw [← htotal, Nat.pow_add, Nat.mul_comm (2 ^ minLog)]
  constructor
  · exact Nat.mul_le_mul_right _ hlow
  · rw [← Nat.mul_assoc, Nat.mul_comm 2, ← pow_succ]
    exact Nat.mul_lt_mul_of_pos_right hhigh hM

end Arithmetic

theorem buddy_div_lt {s : BuddyList} (hdvd : 2 ^ s.minLog ∣ s.total)
    (htop : s.orderSize (s.maxOrder - 1) ≤ s.total) {o off : ℕ} (ho : o < s.maxOrder - 1)
    (hoff : off < s.orderSize (s.maxOrder - 1)) :
    buddy (s.minLog + o) off / 2 ^ s.minLog < s.total / 2 ^ s.minLog := by
  have hlt : buddy (s.minLog + o) off < 2 ^ (s.minLog + (s.maxOrder - 1)) :=
    Nat.xor_lt_two_pow hoff (Nat.pow_lt_pow_right (by norm_num) (by omega))
  rw [Nat.div_lt_iff_lt_mul (Nat.two_pow_pos _), Nat.div_mul_cancel hdvd]
  exact hlt.trans_le htop

/-- A pool that holds its own tags: the tags and the block area are apart and inside the memory
given, the largest block takes more than half of the block area, and every buddy that a merge
looks at has a tag. -/
theorem pool_layout {minLog ptr len : ℕ} {m : Mem} {tags : ℕ → ℕ} (hptr : ptr + len ≤ 2 ^ 64)
    (hlen : len + 2 ^ minLog < 2 ^ 64)
    (hacc : (initMemory minLog m ptr len false tags).ctl.base ≠ 0) :
    let s := (initMemory minLog m ptr len false tags).ctl
    Disjoint (Set.Ico (alignedStart ptr) (alignedStart ptr + s.tagCount))
        (Set.Ico s.base (s.base + s.total)) ∧
      Set.Ico (alignedStart ptr) (alignedStart ptr + s.tagCount) ⊆ Set.Ico ptr (ptr + len) ∧
      Set.Ico s.base (s.base + s.total) ⊆ Set.Ico ptr (ptr + len) ∧
      0 < s.total ∧ 2 ^ minLog ∣ s.total ∧ s.orderSize (s.maxOrder - 1) ≤ s.total ∧
      s.total < 2 * s.orderSize (s.maxOrder - 1) ∧
      ∀ o off, o < s.maxOrder - 1 → s.orderSize o ∣ off → off < s.orderSize (s.maxOrder - 1) →
        s.tagIndex (s.base + (off ^^^ s.orderSize o)) < s.tagCount := by
  obtain ⟨usable, hend, hstart, hfit, hge, heq⟩ := initMemory_eq_formatPool hptr hacc
  rw [heq]
  intro s
  have hM := Nat.two_pow_pos minLog
  have hle : (usable - tagArea minLog usable) / 2 ^ minLog * 2 ^ minLog ≤
      usable - tagArea minLog usable := Nat.div_mul_le_self _ _
  have hbase : s.base = alignedStart ptr + tagArea minLog usable := rfl
  have htotal : s.total = (usable - tagArea minLog usable) / 2 ^ minLog * 2 ^ minLog := rfl
  have htags : s.tagCount ≤ tagArea minLog usable := by
    have hcount : s.tagCount = (usable - tagArea minLog usable) / 2 ^ minLog := by
      show (usable - tagArea minLog usable) / 2 ^ minLog * 2 ^ minLog / 2 ^ minLog = _
      exact Nat.mul_div_cancel _ hM
    rw [hcount]
    exact tags_le_tagArea (by omega) hfit
  have hdvd : 2 ^ minLog ∣ s.total := Nat.dvd_mul_left _ _
  obtain ⟨hlow, hhigh⟩ : s.orderSize (s.maxOrder - 1) ≤ s.total ∧
      s.total < 2 * s.orderSize (s.maxOrder - 1) := formatPool_top hdvd (htotal ▸ hge) (by omega)
  refine ⟨?_, ?_, ?_, by omega, hdvd, hlow, hhigh, fun o off ho _ hoff => ?_⟩
  · rw [Set.Ico_disjoint_Ico]
    omega
  · exact Set.Ico_subset_Ico hstart (by omega)
  · exact Set.Ico_subset_Ico (by omega) (by omega)
  · rw [BuddyList.tagIndex, Nat.add_sub_cancel_left]
    exact buddy_div_lt hdvd hlow ho hoff

theorem pool_layout_page :
    Disjoint (Set.Ico 4096 (4096 + 124)) (Set.Ico 4224 (4224 + 3968)) ∧
      Set.Ico 4096 (4096 + 124) ⊆ Set.Ico 4096 (4096 + 4096) := by
  have h := @pool_layout 5 4096 4096 .zero (fun _ => 0) (by decide) (by decide) (by decide)
  exact ⟨h.1, h.2.1⟩

end AbcMalloc.Buddy
