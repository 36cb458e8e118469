import AbcMalloc.Buddy.Model
import AbcMalloc.Foundation.Links
import AbcMalloc.Foundation.Tiling

/-! The blocks of a buddy pool: their tiling, tags, free lists, temporal caches and tail
headers. A label is the order of a block and what it is used for; `detached` marks the block
an operation is working on. -/
namespace AbcMalloc.Buddy
open Function Foundation

inductive Kind
  | free
  | cached
  | inUse (flags : ℕ)
  | detached
  deriving DecidableEq

abbrev Blocks := BlockMap (ℕ × Kind)

/-- The tag that the block at an address must have; a detached block may have any. -/
def TagOf (v : Option (ℕ × ℕ × Kind)) (t : ℕ) : Prop :=
  match v with
  | none => t = 255
  | some (_, _, .cached) => t = 255
  | some (_, o, .free) => t = tagFree o
  | some (_, o, .inUse _) => t = o
  | some (_, _, .detached) => True

structure Geometry (s : BuddyList) : Prop where
  minLog_ge : 5 ≤ s.minLog
  base_pos : 0 < s.base
  order_pos : 0 < s.maxOrder
  order_le : s.maxOrder ≤ 64
  span : 2 ^ (s.minLog + (s.maxOrder - 1)) ≤ s.total
  dvd : 2 ^ s.minLog ∣ s.total
  top : s.base + s.total < 2 ^ 64
  tagCount : s.tagCount = s.total / 2 ^ s.minLog

def BuddyList.limit (s : BuddyList) : ℕ := s.base + s.orderSize (s.maxOrder - 1)

/-- Heads, links and mask represent the lists `fl` of free blocks. The back link of a head
is stale. -/
structure FreeLists (s : BuddyList) (m : Mem) (A : Blocks) (fl : ℕ → List ℕ) : Prop where
  seg : ∀ o, ∃ p, Seg m.next m.w1 p (fl o) 0
  head : ∀ o, s.freeLists o = (fl o).headD 0
  mem : ∀ o b, b ∈ fl o ↔ ∃ n, A b = some (n, o, .free)
  nodup : ∀ o, (fl o).Nodup
  pos : ∀ o, 0 ∉ fl o
  mask : ∀ o, o < 64 → (s.freeMask.getLsbD o = true ↔ fl o ≠ [])

/-- Heads, links and counts represent the lists `tc` of cached temporal blocks. -/
structure Caches (s : BuddyList) (m : Mem) (A : Blocks) (tc : ℕ → List ℕ) : Prop where
  path : ∀ o, Path m.next (tc o) 0
  head : ∀ o, s.tcache o = (tc o).headD 0
  count : ∀ o, s.tcacheCount o = (tc o).length
  mem : ∀ o b, b ∈ tc o ↔ ∃ n, A b = some (n, o, .cached)
  nodup : ∀ o, (tc o).Nodup
  pos : ∀ o, 0 ∉ tc o

/-- The part of the invariant that also holds in the middle of an operation. -/
structure Core (h : Heap) (A : Blocks) : Prop where
  geo : Geometry h.ctl
  tiles : Tiles h.ctl.base h.ctl.limit A
  size : ∀ {a n o k}, A a = some (n, o, k) → n = h.ctl.orderSize o ∧ o < h.ctl.maxOrder
  aligned : ∀ {a n o k}, A a = some (n, o, k) → n ∣ a - h.ctl.base
  tags : ∀ t, t < h.ctl.tagCount → TagOf (A (h.ctl.base + t * 2 ^ h.ctl.minLog)) (h.ctl.blockTags t)
  lists : ∃ fl, FreeLists h.ctl h.mem A fl
  caches : ∃ tc, Caches h.ctl h.mem A tc
  tails : ∀ {a n o f}, A a = some (n, o, .inUse f) →
    h.mem.lo (a + n - 32) = o ∧ h.mem.hi (a + n - 32) = f ∧
      (f = blockAlloc ∨ f = blockTombstone ∨ f = blockAlloc + blockTemporal)

def Coalesced (s : BuddyList) (A : Blocks) : Prop :=
  ∀ a n o, A a = some (n, o, .free) → o < s.maxOrder - 1 → ∀ n',
    A (s.base + buddy (s.minLog + o) (a - s.base)) ≠ some (n', o, .free)

/-- The state of a pool between two operations. -/
structure Inv (h : Heap) (A : Blocks) : Prop extends Core h A where
  coalesced : Coalesced h.ctl A
  closed : ∀ {a n o}, A a ≠ some (n, o, .detached)

/-! ## Arithmetic of orders -/

theorem tagFree_eq {o : ℕ} (h : o < 64) : tagFree o = o + 128 := by
  unfold tagFree
  interval_cases o <;> rfl

theorem orderSize_succ (s : BuddyList) (o : ℕ) : s.orderSize (o + 1) = 2 * s.orderSize o := by
  unfold BuddyList.orderSize
  rw [← Nat.add_assoc, pow_succ, Nat.mul_comm]

theorem orderSize_pos (s : BuddyList) (o : ℕ) : 0 < s.orderSize o := Nat.two_pow_pos _

theorem orderSize_mono (s : BuddyList) {o o' : ℕ} (h : o ≤ o') : s.orderSize o ≤ s.orderSize o' :=
  Nat.pow_le_pow_right (by norm_num) (by omega)

theorem min_dvd_orderSize (s : BuddyList) (o : ℕ) : 2 ^ s.minLog ∣ s.orderSize o :=
  Nat.pow_dvd_pow 2 (by omega)

namespace Core
variable {h : Heap} {A : Blocks} {a n o : ℕ} {k : Kind}

theorem min_ge (hC : Core h A) : 32 ≤ 2 ^ h.ctl.minLog := by
  calc 32 = 2 ^ 5 := rfl
    _ ≤ 2 ^ h.ctl.minLog := Nat.pow_le_pow_right (by norm_num) hC.geo.minLog_ge

theorem limit_le (hC : Core h A) : h.ctl.limit ≤ h.ctl.base + h.ctl.total :=
  Nat.add_le_add_left hC.geo.span _

theorem within (hC : Core h A) (hA : A a = some (n, o, k)) :
    h.ctl.base ≤ a ∧ a + n ≤ h.ctl.limit ∧ 32 ≤ n := by
  refine ⟨hC.tiles.lower hA, hC.tiles.upper hA, ?_⟩
  rw [(hC.size hA).1]
  calc 32 ≤ 2 ^ h.ctl.minLog := hC.min_ge
    _ ≤ h.ctl.orderSize o := Nat.pow_le_pow_right (by norm_num) (by omega)

theorem pos (hC : Core h A) (hA : A a = some (n, o, k)) : a ≠ 0 := by
  have := hC.geo.base_pos
  have := (hC.within hA).1
  omega

theorem order_lt (hC : Core h A) (hA : A a = some (n, o, k)) : o < 64 := by
  have := (hC.size hA).2
  have := hC.geo.order_le
  omega

/-- A block start is a multiple of `Min` away from the base, so it has a tag of its own. -/
theorem min_dvd (hC : Core h A) (hA : A a = some (n, o, k)) :
    2 ^ h.ctl.minLog ∣ a - h.ctl.base := by
  refine dvd_trans ?_ (hC.aligned hA)
  rw [(hC.size hA).1]
  exact min_dvd_orderSize _ _

theorem tagIndex_spec (hC : Core h A) (hA : A a = some (n, o, k)) :
    h.ctl.base + h.ctl.tagIndex a * 2 ^ h.ctl.minLog = a ∧ h.ctl.tagIndex a < h.ctl.tagCount := by
  obtain ⟨hlow, hup, -⟩ := hC.within hA
  have hlim := hC.limit_le
  have hpos := hC.tiles.pos hA
  have hmul : h.ctl.tagIndex a * 2 ^ h.ctl.minLog = a - h.ctl.base :=
    Nat.div_mul_cancel (hC.min_dvd hA)
  refine ⟨by omega, ?_⟩
  rw [hC.geo.tagCount]
  have hdvd : n = n / 2 ^ h.ctl.minLog * 2 ^ h.ctl.minLog := by
    refine (Nat.div_mul_cancel ?_).symm
    rw [(hC.size hA).1]
    exact min_dvd_orderSize _ _
  rw [Nat.lt_iff_add_one_le, Nat.le_div_iff_mul_le (Nat.two_pow_pos _), Nat.add_mul, hmul]
  have hge : 2 ^ h.ctl.minLog ≤ n := by
    rw [(hC.size hA).1]
    exact Nat.pow_le_pow_right (by norm_num) (by omega)
  omega

theorem tag_of (hC : Core h A) (hA : A a = some (n, o, k)) :
    TagOf (some (n, o, k)) (h.ctl.blockTags (h.ctl.tagIndex a)) := by
  obtain ⟨he, hlt⟩ := hC.tagIndex_spec hA
  have := hC.tags _ hlt
  rwa [he, hA] at this

theorem tag_at (hC : Core h A) (h₁ : h.ctl.base ≤ a) (h₂ : 2 ^ h.ctl.minLog ∣ a - h.ctl.base)
    (h₃ : a - h.ctl.base + 2 ^ h.ctl.minLog ≤ h.ctl.total) :
    TagOf (A a) (h.ctl.blockTags (h.ctl.tagIndex a)) := by
  have hmul : h.ctl.tagIndex a * 2 ^ h.ctl.minLog = a - h.ctl.base := Nat.div_mul_cancel h₂
  have hlt : h.ctl.tagIndex a < h.ctl.tagCount := by
    rw [hC.geo.tagCount, Nat.lt_iff_add_one_le, Nat.le_div_iff_mul_le (Nat.two_pow_pos _),
      Nat.add_mul, hmul]
    omega
  have := hC.tags _ hlt
  rwa [hmul, show h.ctl.base + (a - h.ctl.base) = a by omega] at this

theorem linkValid (hC : Core h A) (hA : A a = some (n, o, k)) : h.ctl.linkValid a = true := by
  obtain ⟨hlow, hup, -⟩ := hC.within hA
  have hlim := hC.limit_le
  have hpos := hC.tiles.pos hA
  simp only [BuddyList.linkValid, decide_eq_true_eq]
  exact Or.inr ⟨hlow, by omega, Nat.mod_eq_zero_of_dvd (hC.min_dvd hA)⟩

/-- The cells of two different blocks are different. -/
theorem cell_ne (hC : Core h A) {b n' o' x : ℕ} {k' : Kind} (hA : A a = some (n, o, k))
    (hB : A b = some (n', o', k')) (hab : a ≠ b) (h₁ : a ≤ x) (h₂ : x < a + n) :
    x ≠ b ∧ x ≠ b + n' - 32 := by
  have hd := hC.tiles.disjoint hA hB hab
  have := (hC.within hB).2.2
  omega

end Core

/-! ## Transport -/

/-- The parts of the control block that stay fixed after initialisation. -/
structure SameShape (s s' : BuddyList) : Prop where
  minLog : s'.minLog = s.minLog
  base : s'.base = s.base
  total : s'.total = s.total
  maxOrder : s'.maxOrder = s.maxOrder
  tagCount : s'.tagCount = s.tagCount

namespace SameShape
variable {s s' s'' : BuddyList}

theorem refl (s : BuddyList) : SameShape s s := ⟨rfl, rfl, rfl, rfl, rfl⟩

theorem trans (h : SameShape s s') (h' : SameShape s' s'') : SameShape s s'' :=
  ⟨h'.minLog.trans h.minLog, h'.base.trans h.base, h'.total.trans h.total,
    h'.maxOrder.trans h.maxOrder, h'.tagCount.trans h.tagCount⟩

theorem geometry (h : SameShape s s') (hg : Geometry s) : Geometry s' := by
  obtain ⟨h₁, h₂, h₃, h₄, h₅⟩ := h
  exact ⟨h₁ ▸ hg.minLog_ge, h₂ ▸ hg.base_pos, h₄ ▸ hg.order_pos, h₄ ▸ hg.order_le,
    by rw [h₁, h₃, h₄]; exact hg.span, by rw [h₁, h₃]; exact hg.dvd, by rw [h₂, h₃]; exact hg.top,
    by rw [h₁, h₃, h₅]; exact hg.tagCount⟩

theorem orderSize (h : SameShape s s') (o : ℕ) : s'.orderSize o = s.orderSize o := by
  unfold BuddyList.orderSize
  rw [h.minLog]

theorem limit (h : SameShape s s') : s'.limit = s.limit := by
  unfold BuddyList.limit
  rw [h.base, h.orderSize, h.maxOrder]

theorem tagIndex (h : SameShape s s') (a : ℕ) : s'.tagIndex a = s.tagIndex a := by
  unfold BuddyList.tagIndex
  rw [h.base, h.minLog]

end SameShape

namespace FreeLists
variable {s s' : BuddyList} {m m' : Mem} {A A' : Blocks} {fl : ℕ → List ℕ}

theorem congr (h : FreeLists s m A fl) (hs : s'.freeLists = s.freeLists)
    (hmask : s'.freeMask = s.freeMask)
    (hA : ∀ b o, (∃ n, A' b = some (n, o, Kind.free)) ↔ ∃ n, A b = some (n, o, Kind.free))
    (hm : ∀ b n o, A b = some (n, o, Kind.free) → m'.next b = m.next b ∧ m'.w1 b = m.w1 b) :
    FreeLists s' m' A' fl where
  seg o := by
    obtain ⟨p, hseg⟩ := h.seg o
    have hx : ∀ b ∈ fl o, m'.next b = m.next b ∧ m'.w1 b = m.w1 b := by
      intro b hb
      obtain ⟨n, hn⟩ := (h.mem o b).1 hb
      exact hm b n o hn
    exact ⟨p, hseg.congr (fun b hb => (hx b hb).1) (fun b hb => (hx b hb).2)⟩
  head o := by rw [hs]; exact h.head o
  mem o b := by rw [hA]; exact h.mem o b
  nodup := h.nodup
  pos := h.pos
  mask o ho := by rw [hmask]; exact h.mask o ho

theorem not_mem_of_ne (h : FreeLists s m A fl) {o o' x : ℕ} (ho : o ≠ o') (hx : x ∈ fl o) :
    x ∉ fl o' := by
  intro hx'
  obtain ⟨n, hn⟩ := (h.mem o x).1 hx
  obtain ⟨n', hn'⟩ := (h.mem o' x).1 hx'
  rw [hn] at hn'
  simp only [Option.some.injEq, Prod.mk.injEq, and_true] at hn'
  exact ho hn'.2

end FreeLists

namespace Caches
variable {s s' : BuddyList} {m m' : Mem} {A A' : Blocks} {tc : ℕ → List ℕ}

theorem congr (h : Caches s m A tc) (hs : s'.tcache = s.tcache)
    (hcount : s'.tcacheCount = s.tcacheCount)
    (hA : ∀ b o, (∃ n, A' b = some (n, o, Kind.cached)) ↔ ∃ n, A b = some (n, o, Kind.cached))
    (hm : ∀ b n o, A b = some (n, o, Kind.cached) → m'.next b = m.next b) :
    Caches s' m' A' tc where
  path o := by
    refine (h.path o).congr fun b hb => ?_
    obtain ⟨n, hn⟩ := (h.mem o b).1 hb
    exact hm b n o hn
  head o := by rw [hs]; exact h.head o
  count o := by rw [hcount]; exact h.count o
  mem o b := by rw [hA]; exact h.mem o b
  nodup := h.nodup
  pos := h.pos

end Caches

theorem Coalesced.mono {s s' : BuddyList} {A A' : Blocks} (h : Coalesced s A) (hs : SameShape s s')
    (hA : ∀ {x n o}, A' x = some (n, o, .free) → A x = some (n, o, .free)) : Coalesced s' A' := by
  intro a n o ha ho n' hb
  rw [hs.base, hs.minLog] at hb
  exact h a n o (hA ha) (hs.maxOrder ▸ ho) n' (hA hb)

theorem relabel_iff {A : Blocks} {b n o : ℕ} {k k' : Kind} (hA : A b = some (n, o, k)) (c : Kind)
    (hc : k' ≠ c) (hc' : k ≠ c) (x o' : ℕ) :
    (∃ j, update A b (some (n, o, k')) x = some (j, o', c)) ↔ ∃ j, A x = some (j, o', c) := by
  by_cases hx : x = b
  · subst hx
    simp [hA, hc, hc']
  · rw [update_of_ne hx]

/-- Changing the label of one block: the tiling is untouched, the rest is to be checked. -/
theorem Core.relabel {h h' : Heap} {A : Blocks} {b n o : ℕ} {k : Kind} (k' : Kind) (hC : Core h A)
    (hA : A b = some (n, o, k)) (hs : SameShape h.ctl h'.ctl)
    (htags : ∀ t, t ≠ h.ctl.tagIndex b → h'.ctl.blockTags t = h.ctl.blockTags t)
    (htag : TagOf (some (n, o, k')) (h'.ctl.blockTags (h.ctl.tagIndex b)))
    (hfl : ∃ fl, FreeLists h'.ctl h'.mem (update A b (some (n, o, k'))) fl)
    (htc : ∃ tc, Caches h'.ctl h'.mem (update A b (some (n, o, k'))) tc)
    (htails : ∀ {a n' o' f}, a ≠ b → A a = some (n', o', .inUse f) →
      h'.mem.lo (a + n' - 32) = h.mem.lo (a + n' - 32) ∧
        h'.mem.hi (a + n' - 32) = h.mem.hi (a + n' - 32))
    (htail : ∀ f, k' = .inUse f → h'.mem.lo (b + n - 32) = o ∧ h'.mem.hi (b + n - 32) = f ∧
      (f = blockAlloc ∨ f = blockTombstone ∨ f = blockAlloc + blockTemporal)) :
    Core h' (update A b (some (n, o, k'))) := by
  have hold : ∀ {x j o' l}, update A b (some (n, o, k')) x = some (j, o', l) →
      ∃ l', A x = some (j, o', l') := by
    intro x j o' l hx
    grind [update_apply]
  refine ⟨hs.geometry hC.geo, ?_, fun hx => ?_, fun hx => ?_, fun t ht => ?_, hfl, htc,
    fun {a j o' f} hx => ?_⟩
  · rw [hs.base, hs.limit]
    exact hC.tiles.relabel hA _
  · obtain ⟨l', hl'⟩ := hold hx
    rw [hs.orderSize, hs.maxOrder]
    exact hC.size hl'
  · obtain ⟨l', hl'⟩ := hold hx
    rw [hs.base]
    exact hC.aligned hl'
  · rw [hs.base, hs.minLog]
    rw [hs.tagCount] at ht
    obtain ⟨hb, hbt⟩ := hC.tagIndex_spec hA
    by_cases htb : t = h.ctl.tagIndex b
    · rw [htb, hb, update_self]
      exact htag
    · have hne : h.ctl.base + t * 2 ^ h.ctl.minLog ≠ b := by
        intro he
        have := Nat.eq_of_mul_eq_mul_right (Nat.two_pow_pos h.ctl.minLog)
          (show t * 2 ^ h.ctl.minLog = h.ctl.tagIndex b * 2 ^ h.ctl.minLog by omega)
        exact htb this
      rw [htags t htb, update_of_ne hne]
      exact hC.tags t ht
  · by_cases hab : a = b
    · subst hab
      simp only [update_self, Option.some.injEq, Prod.mk.injEq] at hx
      obtain ⟨rfl, rfl, hk⟩ := hx
      exact htail f hk
    · rw [update_of_ne hab] at hx
      obtain ⟨h₁, h₂⟩ := htails hab hx
      rw [h₁, h₂]
      exact hC.tails hx

end AbcMalloc.Buddy
