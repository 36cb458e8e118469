import AbcMalloc.Foundation.Gaps
import AbcMalloc.Tlsf.Refinement

/-! Completeness of `__tlsf_list`: a request is served exactly if some free block is at least as
large as the smallest class bound at or above it. -/
namespace AbcMalloc.Tlsf
open Function Foundation

/-! ## Class bounds -/

def ClassBound (x : ℕ) : Prop := ∃ f s, 6 ≤ f ∧ s < 16 ∧ x = 2 ^ f + s * 2 ^ (f - 4)

theorem classLower_eq (i : ℕ) :
    classLower i = 2 ^ (i / 16 + 6) + i % 16 * 2 ^ (i / 16 + 2) := by
  rw [classLower, add_mul, show i / 16 + 6 = i / 16 + 2 + 4 by omega, pow_add 2 (i / 16 + 2) 4]
  omega

theorem classBound_iff (x : ℕ) : ClassBound x ↔ ∃ i, x = classLower i := by
  constructor
  · rintro ⟨f, s, hf, hs, rfl⟩
    refine ⟨idx (f - 6) s, ?_⟩
    rw [classLower_eq]
    unfold idx
    rw [show ((f - 6) * 16 + s) / 16 = f - 6 by omega, show ((f - 6) * 16 + s) % 16 = s by omega,
      show f - 6 + 6 = f by omega, show f - 6 + 2 = f - 4 by omega]
  · rintro ⟨i, rfl⟩
    refine ⟨i / 16 + 6, i % 16, by omega, Nat.mod_lt _ (by norm_num), ?_⟩
    rw [classLower_eq, show i / 16 + 6 - 4 = i / 16 + 2 by omega]

theorem classLower_succ (i : ℕ) : classLower (i + 1) = classLower i + 2 ^ (i / 16 + 2) := by
  unfold classLower
  by_cases h : i % 16 = 15
  · rw [show (i + 1) % 16 = 0 by omega, show (i + 1) / 16 = i / 16 + 1 by omega, h,
      show i / 16 + 1 + 2 = (i / 16 + 2) + 1 by omega, pow_succ 2 (i / 16 + 2)]
    omega
  · rw [show (i + 1) % 16 = i % 16 + 1 by omega, show (i + 1) / 16 = i / 16 by omega]
    ring

theorem le_classIndex_iff {s : ℕ} (h : 64 ≤ s) (i : ℕ) : i ≤ classIndex s ↔ classLower i ≤ s := by
  constructor
  · intro hi
    exact (classLower_mono hi).trans (classLower_classIndex h)
  · intro hi
    by_contra hlt
    have hnext : classLower (classIndex s + 1) ≤ s := (classLower_mono (by omega)).trans hi
    obtain ⟨hs, h16⟩ := mappingInsert_snd h
    have hl := six_le_log2 h
    have hdiv : (classIndex s + 1) = idx (Nat.log2 s - 6) (mappingInsert s).2 + 1 := by
      rw [classIndex_eq h]
    rw [hdiv, classLower_succ, classLower_idx _ _ h16] at hnext
    unfold idx at hnext
    rw [show ((Nat.log2 s - 6) * 16 + (mappingInsert s).2) / 16 = Nat.log2 s - 6 by omega,
      show Nat.log2 s - 6 + 2 = Nat.log2 s - 4 by omega, Nat.add_comm 16, hs] at hnext
    have hlt' := Nat.lt_div_mul_add (a := s) (Nat.two_pow_pos (Nat.log2 s - 4))
    omega

/-- The class of the search holds the rounded request, and rounding adds less than the width of
the request's own class. -/
theorem classLower_searchClass_le_add {q : ℕ} (hq : 64 ≤ q) (hlim : q ≤ 2 ^ 64 - 2 ^ 59) :
    classLower (searchClass q) ≤ q + (2 ^ (Nat.log2 q - 4) - 1) := by
  have hcls := classLower_classIndex (s := q + (2 ^ (Nat.log2 q - 4) - 1)) (by omega)
  unfold classIndex at hcls
  rwa [← mappingSearch_eq hq hlim] at hcls

theorem classLower_searchClass_le {q j : ℕ} (hq : 64 ≤ q) (hlim : q ≤ 2 ^ 64 - 2 ^ 59)
    (hj : q ≤ classLower j) : classLower (searchClass q) ≤ classLower j := by
  have hpos := Nat.two_pow_pos (Nat.log2 q - 4)
  have hround := classLower_searchClass_le_add hq hlim
  by_contra hlt
  have hsucc : classLower (j + 1) ≤ classLower (searchClass q) := by
    apply classLower_mono
    by_contra hle
    exact hlt (classLower_mono (by omega))
  -- classes at or above `q` are at least as wide as the class of `q`
  have hlog : Nat.log2 q < j / 16 + 7 := by
    apply log2_lt_of_lt (by omega)
    have hup := classLower_eq j
    have hmul : j % 16 * 2 ^ (j / 16 + 2) < 16 * 2 ^ (j / 16 + 2) :=
      Nat.mul_lt_mul_of_pos_right (Nat.mod_lt _ (by norm_num)) (Nat.two_pow_pos _)
    have h16 : 2 ^ (j / 16 + 6) = 16 * 2 ^ (j / 16 + 2) := by
      rw [show j / 16 + 6 = j / 16 + 2 + 4 by omega, pow_add 2 (j / 16 + 2) 4]
      omega
    rw [show j / 16 + 7 = j / 16 + 6 + 1 by omega, pow_succ]
    omega
  have hwidth : 2 ^ (Nat.log2 q - 4) ≤ 2 ^ (j / 16 + 2) :=
    Nat.pow_le_pow_right (by norm_num) (by omega)
  rw [classLower_succ] at hsucc
  omega

theorem searchClass_isLeast {q : ℕ} (hq : 64 ≤ q) (hlim : q ≤ 2 ^ 64 - 2 ^ 59) :
    IsLeast {x | ClassBound x ∧ q ≤ x} (classLower (searchClass q)) := by
  refine ⟨⟨(classBound_iff _).2 ⟨_, rfl⟩, (le_classLower_search hq hlim).2.2⟩, ?_⟩
  rintro x ⟨hx, hqx⟩
  obtain ⟨j, rfl⟩ := (classBound_iff x).1 hx
  exact classLower_searchClass_le hq hlim hqx

/-! ## Free runs -/

def Classed (s : TlsfList) : Prop := ∀ n, n ≤ s.total → Nat.log2 n - 6 < s.flCount

namespace Good
variable {h : Heap} {A : Blocks}

/-- A request is served exactly if some free block reaches the bound of its search class. -/
theorem allocate_iff (hG : Good h A) (hF : Classed h.ctl) {u : ℕ} (hu : adjustedBlockSize u ≠ 0)
    (hlim : adjustedBlockSize u ≤ 2 ^ 64 - 2 ^ 59) :
    (∃ c h', Tlsf.allocate h u = some (c, h') ∧ c.ptr ≠ 0) ↔
      ∃ b n, A b = some (n, some blockFree) ∧
      classLower (searchClass (adjustedBlockSize u)) ≤ n := by
  obtain ⟨hq, hqm, -⟩ := adjustedBlockSize_spec hu
  obtain ⟨fl, hL⟩ := hG.lists
  have hclassed : ∀ {b n}, A b = some (n, some blockFree) → Nat.log2 n - 6 < h.ctl.flCount := by
    intro b n hA
    have hin := hG.phys.base_lt hA
    unfold TlsfList.endSentinel at hin
    exact hF n (by omega)
  have hnull := hL.findFree_null_iff hq hlim hclassed
  have hsmall : ∀ {b n}, A b = some (n, some blockFree) →
      (classIndex n < searchClass (adjustedBlockSize u) ↔
        n < classLower (searchClass (adjustedBlockSize u))) := by
    intro b n hA
    rw [← not_le, ← not_le, le_classIndex_iff (hG.phys.size_ge hA)]
  have hserved : (∃ c h', Tlsf.allocate h u = some (c, h') ∧ c.ptr ≠ 0) ↔
      findFree h (adjustedBlockSize u) ≠ some (0, h) := by
    simp only [Tlsf.allocate, if_neg hG.base_ne_zero, if_neg hu]
    rcases hG.take hq hqm hlim with hnone | ⟨b, h₁, h₂, sz, hb0, hfind, hsplit, hlo, hsz, hbook, -⟩
    · simp [hnone, Chunk.null]
    · rw [hfind]
      simp [hb0, hsplit, Tlsf.handOut]
  rw [hserved, Ne, hnull]
  push Not
  constructor
  · rintro ⟨b, n, hA, hle⟩
    refine ⟨b, n, hA, not_lt.1 fun hlt => ?_⟩
    exact absurd ((hsmall hA).2 hlt) (not_lt.2 hle)
  · rintro ⟨b, n, hA, hle⟩
    refine ⟨b, n, hA, not_lt.1 fun hlt => ?_⟩
    exact absurd ((hsmall hA).1 hlt) (not_lt.2 hle)

end Good

/-- The address belongs to the block of a chunk that the client holds, tombstoned or not. -/
def Covered (w : Client Heap) (x : ℕ) : Prop :=
  ∃ p len, w.held p = some len ∧ p ≤ x + 32 ∧ x < p + len

/-- A maximal run of bytes of the pool that no block covers. -/
def FreeRun (w : Client Heap) (x y : ℕ) : Prop :=
  Gap (Covered w) (w.book.ctl.base + 32) w.book.ctl.endSentinel x y

/-- The free runs that a client sees are the free blocks. -/
theorem freeRun_iff {w : Client Heap} {A : Blocks} (hG : Good w.book A)
    (hH : (tlsfLedger w.book A).Holds 32 w) (hR : (tlsfLedger w.book A).Reported 32 w) (x y : ℕ) :
    FreeRun w x y ↔ ∃ n, A x = some (n, some blockFree) ∧ y = x + n := by
  have hcov : Covered w = Tiles.Covers A (fun k => k = some blockFree) := by
    funext z
    apply propext
    constructor
    · rintro ⟨p, len, hp, h₁, h₂⟩
      obtain ⟨b, n, f, rfl, rfl, hb⟩ := hH p len hp
      obtain ⟨hA, hf⟩ := used_eq_some.1 hb
      have hsz := hG.phys.size_ge hA
      exact ⟨b, n, some f, hA, by simpa using hf, by omega, by omega⟩
    · rintro ⟨b, n, k, hA, hk, h₁, h₂⟩
      have hsz := hG.phys.size_ge hA
      cases k with
      | none => exact absurd hA hG.closed
      | some f =>
        have hb : used A b = some (n, f) := used_eq_some.2 ⟨hA, fun hf => hk (congrArg some hf)⟩
        exact ⟨b + 32, n - 32, hR hb, by omega, by omega⟩
  unfold FreeRun
  rw [hcov, hG.phys.tiles.gap_iff]
  · constructor
    · rintro ⟨n, k, hA, rfl, rfl⟩
      exact ⟨n, hA, rfl⟩
    · rintro ⟨n, hA, rfl⟩
      exact ⟨n, _, hA, rfl, rfl⟩
  · rintro a n n' k k' ha ha' rfl rfl
    exact hG.coalesced ha ha'

/-! ## Recovery -/

/-- The pool is one free block, and it is all that heads and bitmaps name. -/
structure Recovered (h : Heap) : Prop where
  blocks : blocks h = [h.ctl.base + 32]
  size : h.mem.lo (h.ctl.base + 32) = h.ctl.total
  flags : h.mem.hi (h.ctl.base + 32) = blockFree
  heads : h.ctl.heads = update (fun _ => 0) (classIndex h.ctl.total) (h.ctl.base + 32)
  next : h.mem.w2 (h.ctl.base + 32) = 0
  prev : h.mem.w3 (h.ctl.base + 32) = 0
  slBits : ∀ fi si, (h.ctl.slBitmap fi).getLsbD si = true ↔
    si < 16 ∧ idx fi si = classIndex h.ctl.total
  flBits : ∀ fi, h.ctl.flBitmap.getLsbD fi = true ↔ fi = classIndex h.ctl.total / 16
  allocated : h.ctl.allocatedBytes = 0
  rings : ∀ i r, r < 2 → h.ctl.temporalActive i r = 0

namespace Good
variable {h : Heap} {A : Blocks}

/-- Without blocks in use the whole pool is one free block. -/
theorem blocks_of_unused (hG : Good h A) (hused : ∀ b, used A b = none) :
    A = freshBlocks h.ctl := by
  have hfree : ∀ {a n k}, A a = some (n, k) → k = some blockFree := by
    intro a n k ha
    cases k with
    | none => exact absurd ha hG.closed
    | some f =>
      by_contra hf
      have hb := used_eq_some.2 ⟨ha, fun he => hf (congrArg some he)⟩
      rw [hused] at hb
      exact absurd hb (by simp)
  obtain ⟨hlt, n, k, hA⟩ := hG.first_block
  obtain rfl := hfree hA
  have hn : h.ctl.base + 32 + n = h.ctl.endSentinel := by
    rcases hG.phys.tiles.next hA with heq | ⟨n', k', hA'⟩
    · exact heq
    · obtain rfl := hfree hA'
      exact absurd hA' (hG.coalesced hA)
  obtain rfl : n = h.ctl.total := by
    unfold TlsfList.endSentinel at hn
    omega
  funext a
  by_cases ha : a = h.ctl.base + 32
  · rw [ha, hA, freshBlocks, update_self]
  · rw [freshBlocks, update_of_ne ha]
    cases hB : A a with
    | none => rfl
    | some v =>
      have hlow := hG.phys.base_lt hB
      have hpos := hG.phys.size_ge hB
      exact absurd (hG.phys.tiles.eq_of_within hA hB hlow.1 (by omega)).symm ha

/-- Without blocks in use the state is the one right after initialisation. -/
theorem recovered (hG : Good h A) (hused : ∀ b, used A b = none) (hal : h.ctl.allocatedBytes = 0) :
    Recovered h := by
  have hA := hG.blocks_of_unused hused
  subst hA
  obtain ⟨fl, hL⟩ := hG.lists
  have hfirst : freshBlocks h.ctl (h.ctl.base + 32) = some (h.ctl.total, some blockFree) :=
    update_self _ _ _
  have hone : ∀ {a n k}, freshBlocks h.ctl a = some (n, k) → a = h.ctl.base + 32 ∧
    n = h.ctl.total := by
    intro a n k ha
    rw [freshBlocks, update_apply] at ha
    split_ifs at ha with hi
    simp only [Option.some.injEq, Prod.mk.injEq] at ha
    exact ⟨hi, ha.1.symm⟩
  have hsz := hG.phys.size_ge hfirst
  have hlist : ∀ i, fl i = if i = classIndex h.ctl.total then [h.ctl.base + 32] else [] := by
    intro i
    have hmem : ∀ b, b ∈ fl i ↔ b = h.ctl.base + 32 ∧ i = classIndex h.ctl.total := by
      intro b
      rw [hL.mem]
      constructor
      · rintro ⟨n, hn, rfl⟩
        obtain ⟨rfl, rfl⟩ := hone hn
        exact ⟨rfl, rfl⟩
      · rintro ⟨rfl, rfl⟩
        exact ⟨_, hfirst, rfl⟩
    split_ifs with hi
    · apply List.perm_singleton.1
      refine (List.perm_ext_iff_of_nodup (hL.nodup i) (List.nodup_singleton _)).2 fun b => ?_
      rw [hmem, List.mem_singleton]
      exact and_iff_left hi
    · exact List.eq_nil_iff_forall_not_mem.2 fun b hb => hi ((hmem b).1 hb).2
  have hsl : ∀ fi si, (h.ctl.slBitmap fi).getLsbD si = true ↔
      si < 16 ∧ idx fi si = classIndex h.ctl.total := by
    intro fi si
    rw [hL.bits.sl, hlist]
    split_ifs with hi <;> simp [hi]
  have hseg := hL.seg (classIndex h.ctl.total)
  rw [hlist, if_pos rfl] at hseg
  refine ⟨?_, hG.phys.lo hfirst, hG.phys.hi hfirst, ?_, hseg.2.1, hseg.1, hsl, fun fi => ?_, hal,
    fun i r hr => ?_⟩
  · have hnext : Tlsf.blocks h = (h.ctl.base + 32) :: walk h.mem.lo h.ctl.endSentinel
        (h.ctl.total - 1) (h.ctl.base + 32 + h.mem.lo (h.ctl.base + 32)) := by
      obtain ⟨hlt, -⟩ := hG.first_block
      rw [Tlsf.blocks]
      obtain ⟨t, ht⟩ : ∃ t, h.ctl.total = t + 1 := ⟨h.ctl.total - 1, by omega⟩
      rw [ht, walk, if_pos hlt, Nat.add_sub_cancel]
    have hend : h.ctl.base + 32 + h.mem.lo (h.ctl.base + 32) = h.ctl.endSentinel := by
      rw [hG.phys.lo hfirst]
      rfl
    rw [hnext, hend]
    cases h.ctl.total - 1 with
    | zero => rfl
    | succ t => rw [walk, if_neg (lt_irrefl _)]
  · funext i
    rw [hL.head, hlist, update_apply]
    split_ifs <;> rfl
  · rw [hL.bits.top, bitvec_ne_zero_iff]
    constructor
    · rintro ⟨si, hbit⟩
      obtain ⟨hsi, hi⟩ := (hsl fi si).1 hbit
      unfold idx at hi
      omega
    · rintro rfl
      refine ⟨classIndex h.ctl.total % 16, (hsl _ _).2 ⟨Nat.mod_lt _ (by norm_num), ?_⟩⟩
      unfold idx
      omega
  · by_contra h0
    obtain ⟨n, f, q, hb, -⟩ := hG.rings.entry hr h0
    rw [hused] at hb
    exact absurd hb (by simp)

end Good
end AbcMalloc.Tlsf
