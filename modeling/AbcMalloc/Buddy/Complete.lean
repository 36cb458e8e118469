import AbcMalloc.Buddy.Refinement
import AbcMalloc.Foundation.Dyadic

/-! Completeness of `__buddy_list`: as long as nothing is cached, a request is served if an aligned
window of its order is vacant, and a pool without blocks in use is a fresh one. -/
namespace AbcMalloc.Buddy
open Function Foundation

/-! ## The search -/

/-- The search finds an order that is no larger than that of any free block. -/
theorem Core.findFreeOrder_le {h : Heap} {A : Blocks} {b n o i : ℕ} (hC : Core h A)
    (hA : A b = some (n, i, .free)) (hle : o ≤ i) : h.ctl.findFreeOrder o ≤ i := by
  obtain ⟨fl, hF⟩ := hC.lists
  have h64 := hC.order_lt hA
  have hbit : h.ctl.freeMask.getLsbD i = true :=
    (hF.mask i h64).2 (List.ne_nil_of_mem ((hF.mem i b).2 ⟨n, hA⟩))
  have hshift : (h.ctl.freeMask >>> o).getLsbD (i - o) = true := by
    rw [BitVec.getLsbD_ushiftRight, Nat.add_sub_cancel' hle]
    exact hbit
  unfold BuddyList.findFreeOrder
  dsimp only
  rw [if_neg (bitvec_ne_zero_iff.2 ⟨_, hshift⟩)]
  by_contra hlt
  rw [BitVec.getLsbD_false_of_lt_ctz (by omega)] at hshift
  exact absurd hshift (by decide)

/-! ## Vacant windows -/

def Window (s : BuddyList) (o x : ℕ) : Prop :=
  s.orderSize o ∣ x ∧ x + s.orderSize o ≤ s.orderSize (s.maxOrder - 1)

def Vacant (s : BuddyList) (A : Blocks) (o x : ℕ) : Prop :=
  ∀ {b n f}, used A b = some (n, f) → b + n ≤ s.base + x ∨ s.base + x + s.orderSize o ≤ b

def Uncached (s : BuddyList) : Prop := ∀ o, s.tcacheCount o = 0

section Search
variable {h : Heap} {A : Blocks}

theorem Core.not_cached (hC : Core h A) (hU : Uncached h.ctl) {a n o : ℕ} :
    A a ≠ some (n, o, .cached) := by
  intro ha
  obtain ⟨tc, hT⟩ := hC.caches
  have hmem := (hT.mem o a).2 ⟨n, ha⟩
  have hlen := hT.count o
  rw [hU o] at hlen
  rw [List.eq_nil_of_length_eq_zero hlen.symm] at hmem
  exact absurd hmem List.not_mem_nil

theorem Core.dyadic (hC : Core h A) : DyadicBlocks h.ctl.base A := by
  intro a n k ha
  refine ⟨h.ctl.minLog + k.1, (hC.size ha).1, ?_⟩
  have := hC.aligned ha
  rwa [(hC.size ha).1] at this

theorem Inv.noFreeBuddies (hI : Inv h A) :
    NoFreeBuddies h.ctl.base (h.ctl.minLog + (h.ctl.maxOrder - 1)) (fun k => k.2 = .free) A := by
  intro a i k k' ha hk hi hb hk'
  obtain ⟨o, kind⟩ := k
  obtain ⟨o', kind'⟩ := k'
  obtain rfl : kind = .free := hk
  obtain rfl : kind' = .free := hk'
  have ho : i = h.ctl.minLog + o := Nat.pow_right_injective le_rfl (hI.size ha).1
  have ho' : i = h.ctl.minLog + o' := Nat.pow_right_injective le_rfl (hI.size hb).1
  obtain rfl : o = o' := by omega
  rw [ho] at hb
  exact hI.coalesced a _ o ha (by omega) _ hb

/-- A vacant window lies in a free block of its order or a larger one. -/
theorem Inv.free_of_vacant (hI : Inv h A) (hU : Uncached h.ctl) {o x : ℕ} (hW : Window h.ctl o x)
    (ho : o < h.ctl.maxOrder) (hV : Vacant h.ctl A o x) :
    ∃ b n i, A b = some (n, i, .free) ∧ o ≤ i := by
  have hfree : ∀ {a n : ℕ} {k : ℕ × Kind}, A a = some (n, k) →
      a < h.ctl.base + x + 2 ^ (h.ctl.minLog + o) → h.ctl.base + x < a + n → k.2 = .free := by
    intro a n k ha h₁ h₂
    obtain ⟨i, kind⟩ := k
    cases kind with
    | free => rfl
    | cached => exact absurd ha (hI.not_cached hU)
    | detached => exact absurd ha hI.closed
    | inUse f =>
      rcases hV (used_eq_some.2 ⟨i, ha⟩) with hleft | hright
      · omega
      · unfold BuddyList.orderSize at hright
        omega
  have hend : h.ctl.base + x + 2 ^ (h.ctl.minLog + o) ≤ h.ctl.limit := by
    have := hW.2
    unfold BuddyList.limit
    unfold BuddyList.orderSize at this ⊢
    omega
  obtain ⟨b, j, k, hb, hk, hle⟩ := hI.tiles.free_window hI.dyadic hI.noFreeBuddies hW.1 hend
    (by omega) hfree
  obtain ⟨i, kind⟩ := k
  obtain rfl : kind = .free := hk
  have hj : j = h.ctl.minLog + i := Nat.pow_right_injective le_rfl (hI.size hb).1
  exact ⟨b, _, i, hb, by omega⟩

theorem Inv.vacant_of_free (hI : Inv h A) {b n i o : ℕ} (hb : A b = some (n, i, .free))
    (hle : o ≤ i) : Window h.ctl o (b - h.ctl.base) ∧ Vacant h.ctl A o (b - h.ctl.base) := by
  have hmono := orderSize_mono h.ctl hle
  have hsz := (hI.size hb).1
  obtain ⟨hlow, hup, -⟩ := hI.within hb
  unfold BuddyList.limit at hup
  refine ⟨⟨?_, by omega⟩, fun {a m f} ha => ?_⟩
  · have hdvd := hI.aligned hb
    rw [hsz] at hdvd
    exact dvd_trans (Nat.pow_dvd_pow 2 (by omega)) hdvd
  · obtain ⟨j, hA⟩ := used_eq_some.1 ha
    have hne : a ≠ b := by
      rintro rfl
      rw [hA] at hb
      simp at hb
    rcases hI.tiles.disjoint hA hb hne with hd | hd
    · left
      omega
    · right
      omega

/-- A request is served exactly if a window of its order is vacant. -/
theorem Inv.allocate_iff (hI : Inv h A) (hU : Uncached h.ctl) (u : ℕ) :
    (∃ c h', Buddy.allocate h u = some (c, h') ∧ c.ptr ≠ 0) ↔
      u + 32 < 2 ^ 64 ∧ h.ctl.orderForSize (u + 32) < h.ctl.maxOrder ∧
        ∃ x, Window h.ctl (h.ctl.orderForSize (u + 32)) x ∧
          Vacant h.ctl A (h.ctl.orderForSize (u + 32)) x := by
  set o := h.ctl.orderForSize (u + 32) with ho
  have hsucc : 2 ^ 64 - 1 - 32 < u ∨ h.ctl.maxOrder ≤ o ∨ h.ctl.maxOrder ≤ h.ctl.findFreeOrder o →
      Buddy.allocate h u = some (.null, h) := by
    intro hfail
    unfold Buddy.allocate
    dsimp only
    rw [← ho]
    split_ifs with h₁ h₂ h₃ h₄
    · rfl
    · rfl
    · rfl
    · rfl
    · omega
  constructor
  · rintro ⟨c, h', hrun, hc⟩
    have hpass : ¬(2 ^ 64 - 1 - 32 < u ∨ h.ctl.maxOrder ≤ o ∨
        h.ctl.maxOrder ≤ h.ctl.findFreeOrder o) := by
      intro hfail
      rw [hsucc hfail] at hrun
      simp only [Option.some.injEq, Prod.mk.injEq] at hrun
      exact hc (by rw [← hrun.1]; rfl)
    obtain ⟨hle, h0⟩ := hI.findFreeOrder (o := o) (by omega)
    obtain ⟨fl, hF⟩ := hI.lists
    obtain ⟨n, hb⟩ := (hF.mem _ _).1 (hF.head_mem h0)
    obtain ⟨hW, hV⟩ := hI.vacant_of_free hb hle
    exact ⟨by omega, by omega, _, hW, hV⟩
  · rintro ⟨hfit, hord, x, hW, hV⟩
    obtain ⟨b, n, i, hb, hle⟩ := hI.free_of_vacant hU hW hord hV
    have hfind : h.ctl.findFreeOrder o < h.ctl.maxOrder :=
      lt_of_le_of_lt (hI.findFreeOrder_le hb hle) (hI.size hb).2
    obtain ⟨hle', h0⟩ := hI.findFreeOrder hfind
    obtain ⟨b', h', A', htake, hI', hT, -⟩ := hI.take h0 hle' (Or.inl rfl)
    have hused : used A' b' = some (h.ctl.orderSize o, blockAlloc) := by rw [hT.used, update_self]
    obtain ⟨o', hA'⟩ := used_eq_some.1 hused
    refine ⟨(handOut h' b' o blockAlloc).1, (handOut h' b' o blockAlloc).2, ?_, hI'.pos hA'⟩
    unfold Buddy.allocate
    dsimp only
    rw [← ho, if_neg (by omega), if_neg hI.base_ne_zero, if_neg (not_le.2 hord),
      if_neg (not_le.2 hfind), htake]
    rfl

/-! ## Recovery -/

/-- Without blocks in use the whole pool is one free block. -/
theorem Inv.blocks_of_unused (hI : Inv h A) (hU : Uncached h.ctl) (hused : ∀ b, used A b = none) :
    A = freshBlocks h.ctl := by
  have hord := hI.geo.order_pos
  obtain ⟨b, n, i, hb, hle⟩ := hI.free_of_vacant hU (o := h.ctl.maxOrder - 1) (x := 0)
    ⟨Nat.dvd_zero _, by omega⟩ (by omega) fun hb => absurd hb (by rw [hused]; simp)
  have hsz := hI.size hb
  obtain rfl : i = h.ctl.maxOrder - 1 := by omega
  obtain ⟨hlow, hup, -⟩ := hI.within hb
  unfold BuddyList.limit at hup
  obtain rfl : b = h.ctl.base := by omega
  funext a
  by_cases ha : a = h.ctl.base
  · subst ha
    rw [hb, freshBlocks, update_self, hsz.1]
  · rw [freshBlocks, update_of_ne ha]
    cases hA : A a with
    | none => rfl
    | some v =>
      have hlow' := hI.tiles.lower hA
      have hup' := hI.tiles.upper hA
      have hpos := hI.tiles.pos hA
      unfold BuddyList.limit at hup'
      exact absurd (hI.tiles.eq_of_within hb hA hlow' (by omega)).symm ha

/-- The state is the one right after initialisation. -/
theorem Inv.fresh_of_unused (hI : Inv h A) (hU : Uncached h.ctl) (hused : ∀ b, used A b = none) :
    Fresh h := by
  have hA := hI.blocks_of_unused hU hused
  subst hA
  have hord := hI.geo.order_pos
  have h64 := hI.geo.order_le
  obtain ⟨fl, hF⟩ := hI.lists
  obtain ⟨tc, hT⟩ := hI.caches
  have hbase : freshBlocks h.ctl h.ctl.base =
      some (h.ctl.orderSize (h.ctl.maxOrder - 1), h.ctl.maxOrder - 1, .free) := update_self _ _ _
  have hmem : ∀ o b, b ∈ fl o ↔ o = h.ctl.maxOrder - 1 ∧ b = h.ctl.base := by
    intro o b
    rw [hF.mem]
    constructor
    · rintro ⟨n, hn⟩
      obtain ⟨rfl, hv⟩ := freshBlocks_eq_some hn
      cases hv
      exact ⟨rfl, rfl⟩
    · rintro ⟨rfl, rfl⟩
      exact ⟨_, hbase⟩
  have hlist : ∀ o, fl o = if o = h.ctl.maxOrder - 1 then [h.ctl.base] else [] := by
    intro o
    split_ifs with ho
    · apply List.perm_singleton.1
      refine (List.perm_ext_iff_of_nodup (hF.nodup o) (List.nodup_singleton _)).2 fun b => ?_
      rw [hmem, List.mem_singleton]
      exact and_iff_right ho
    · exact List.eq_nil_iff_forall_not_mem.2 fun b hb => ho ((hmem o b).1 hb).1
  refine ⟨hI.geo, fun t ht => ?_, ?_, ?_, fun o => ⟨?_, hU o⟩, ?_⟩
  · have htag := hI.tags t ht
    by_cases h0 : t = 0
    · subst h0
      rw [Nat.zero_mul, Nat.add_zero, hbase] at htag
      exact htag
    · have hne : h.ctl.base + t * 2 ^ h.ctl.minLog ≠ h.ctl.base := by
        have := Nat.mul_pos (Nat.pos_of_ne_zero h0) (Nat.two_pow_pos h.ctl.minLog)
        omega
      rw [freshBlocks, update_of_ne hne] at htag
      rw [if_neg h0]
      exact htag
  · funext o
    rw [hF.head, hlist, update_apply]
    split_ifs <;> rfl
  · apply BitVec.eq_of_getLsbD_eq
    intro o ho
    have hset := getLsbD_setBit 0#64 (k := h.ctl.maxOrder - 1) (by omega) o
    rw [BitVec.zero_or, BitVec.getLsbD_zero, Bool.false_or] at hset
    rw [hset, Bool.eq_iff_iff, hF.mask o ho, hlist, decide_eq_true_eq]
    split_ifs with htop <;> simp [htop]
  · rw [hT.head, List.eq_nil_of_length_eq_zero ((hT.count o).symm.trans (hU o))]
    rfl
  · obtain ⟨p, hseg⟩ := hF.seg (h.ctl.maxOrder - 1)
    rw [hlist, if_pos rfl] at hseg
    exact hseg.2.1

end Search
end AbcMalloc.Buddy
