import AbcMalloc.Arena.Model
import AbcMalloc.Arena.Sheets
import AbcMalloc.Buddy.Refinement
import AbcMalloc.Tlsf.Refinement

/-! The lists behind the five tiers refine ledgers, on chunks of any size: a chunk that a list
refuses gets a list that serves nothing. -/
namespace AbcMalloc.Arena
open Function Foundation

structure Refused {σ : Type*} (B : Book σ) (s : σ) : Prop where
  used : B.used s = 0
  tombstoned : B.tombstoned s = 0
  allocate : ∀ u, B.allocate s u = some (.null, s)
  temporalAllocate : ∀ u, B.temporalAllocate s u = some (.null, s)

/-- A list that refused its chunk has an empty ledger. -/
def OrRefused {σ : Type*} (refused : σ → Prop) (Rep : σ → Ledger → Prop) (s : σ) (L : Ledger) :
    Prop :=
  Rep s L ∨ (refused s ∧ L.Valid ∧ L.Vacant)

theorem refines_orRefused {σ : Type*} {B : Book σ} {fits : ℕ → Bool} {Rep : σ → Ledger → Prop}
    {refused : σ → Prop} (hB : Refines B fits Rep) (href : ∀ s, refused s → Refused B s) :
    Refines B fits (OrRefused refused Rep) := by
  have hno : ∀ {L : Ledger} {b n f}, L.Vacant → L.used b ≠ some (n, f) := by
    intro L b n f hV hb
    rw [hV.used] at hb
    exact absurd hb (by simp)
  constructor
  case header_le => exact hB.header_le
  case valid =>
    rintro s L (h | ⟨-, h, -⟩)
    · exact hB.valid h
    · exact h
  case used =>
    rintro s L (h | ⟨hr, -, hV⟩)
    · exact hB.used h
    · rw [(href s hr).used, hV.allocated]
  case tombstoned =>
    rintro s L (h | ⟨hr, -, hV⟩)
    · exact hB.tombstoned h
    · rw [(href s hr).tombstoned, hV.tombstoned]
  case isAllocated =>
    rintro s L b n f (h | ⟨-, -, hV⟩) hb
    · exact hB.isAllocated h hb
    · exact absurd hb (hno hV)
  case isTombstoned =>
    rintro s L b n f (h | ⟨-, -, hV⟩) hb
    · exact hB.isTombstoned h hb
    · exact absurd hb (hno hV)
  case isTemporal =>
    rintro s L b n f (h | ⟨-, -, hV⟩) hb
    · exact hB.isTemporal h hb
    · exact absurd hb (hno hV)
  case blockSize =>
    rintro s L b n f (h | ⟨-, -, hV⟩) hb
    · exact hB.blockSize h hb
    · exact absurd hb (hno hV)
  case allocate =>
    rintro s L u (h | ⟨hr, -, -⟩) hu
    · rcases hB.allocate h hu with hn | ⟨b, sz, s', L', h₁, h₂, h₃⟩
      · exact Or.inl hn
      · exact Or.inr ⟨b, sz, s', L', h₁, Or.inl h₂, h₃⟩
    · exact Or.inl ((href s hr).allocate u)
  case temporalAllocate =>
    rintro s L u (h | ⟨hr, -, -⟩) hu
    · rcases hB.temporalAllocate h hu with hn | ⟨b, sz, f, s', L', h₁, h₂, h₃⟩ |
        ⟨b, sz, s', L', h₁, h₂, h₃⟩
      · exact Or.inl hn
      · exact Or.inr (Or.inl ⟨b, sz, f, s', L', h₁, Or.inl h₂, h₃⟩)
      · exact Or.inr (Or.inr ⟨b, sz, s', L', h₁, Or.inl h₂, h₃⟩)
    · exact Or.inl ((href s hr).temporalAllocate u)
  case tombstone =>
    rintro s L b n f (h | ⟨-, -, hV⟩) hb hf
    · obtain ⟨s', L', h₁, h₂, h₃⟩ := hB.tombstone h hb hf
      exact ⟨s', L', h₁, Or.inl h₂, h₃⟩
    · exact absurd hb (hno hV)
  case tombstone_again =>
    rintro s L b n (h | ⟨-, -, hV⟩) hb
    · exact hB.tombstone_again h hb
    · exact absurd hb (hno hV)
  case deallocate =>
    rintro s L b n f (h | ⟨-, -, hV⟩) hb hf
    · obtain ⟨s', L', h₁, h₂, h₃⟩ := hB.deallocate h hb hf
      exact ⟨s', L', h₁, Or.inl h₂, h₃⟩
    · exact absurd hb (hno hV)
  case store =>
    rintro s L x c (h | ⟨-, -, hV⟩) ⟨b, n, f, i, hb, hx⟩
    · exact Or.inl (hB.store c h ⟨b, n, f, i, hb, hx⟩)
    · exact absurd hb (hno hV)

def vacantLedger (lo : ℕ) : Ledger := ⟨lo, 0, fun _ => none, fun _ => False, 0, 0⟩

theorem vacantLedger_valid {lo : ℕ} (h : 0 < lo) : (vacantLedger lo).Valid ∧
    (vacantLedger lo).Vacant := by
  constructor
  · refine ⟨h, by show (0 : ℕ) < 2 ^ 64; norm_num, ?_, ?_, ?_, ?_, ?_⟩ <;>
      intros <;> simp_all [vacantLedger]
  · exact ⟨fun _ => rfl, fun _ h => h, rfl, rfl⟩

def tlsfRefused (h : Tlsf.Heap) : Prop :=
  h.ctl.base = 0 ∧ h.ctl.allocatedBytes = 0 ∧ h.ctl.tombstonedBytes = 0

def buddyRefused (h : Buddy.Heap) : Prop :=
  h.ctl.base = 0 ∧ h.ctl.allocatedBytes = 0 ∧ h.ctl.tombstonedBytes = 0

theorem refused_of_tlsfRefused (h : Tlsf.Heap) (hr : tlsfRefused h) : Refused Tlsf.tlsfBook h where
  used := hr.2.1
  tombstoned := hr.2.2
  allocate _ := if_pos hr.1
  temporalAllocate _ := if_pos hr.1

theorem refused_of_buddyRefused (h : Buddy.Heap) (hr : buddyRefused h) :
    Refused Buddy.buddyBook h where
  used := hr.2.1
  tombstoned := hr.2.2
  allocate u := by
    show Buddy.allocate h u = _
    unfold Buddy.allocate
    rw [if_pos hr.1, ite_self]
  temporalAllocate u := by
    show Buddy.temporalAllocate h u = _
    unfold Buddy.temporalAllocate
    rw [if_pos hr.1, ite_self]

namespace TierId

/-- Requests that a tier can serve without overflow. -/
def fits : TierId → ℕ → Bool
  | precise => Tlsf.fitsRequest
  | small => Tlsf.fitsRequest
  | _ => fun _ => true

def Rep : (t : TierId) → t.Heap → Ledger → Prop
  | precise => OrRefused tlsfRefused Tlsf.TlsfRep
  | small => OrRefused tlsfRefused Tlsf.TlsfRep
  | medium => OrRefused buddyRefused Buddy.BuddyRep
  | large => OrRefused buddyRefused Buddy.BuddyRep
  | huge => OrRefused buddyRefused Buddy.BuddyRep

theorem refines (t : TierId) : Refines t.params.book t.fits t.Rep := by
  cases t
  · exact refines_orRefused Tlsf.tlsf_refines refused_of_tlsfRefused
  · exact refines_orRefused Tlsf.tlsf_refines refused_of_tlsfRefused
  · exact refines_orRefused Buddy.buddy_refines refused_of_buddyRefused
  · exact refines_orRefused Buddy.buddy_refines refused_of_buddyRefused
  · exact refines_orRefused Buddy.buddy_refines refused_of_buddyRefused

/-- No list takes the null pointer for a block. -/
theorem isAllocated_zero (t : TierId) (s : t.Heap) : t.params.book.isAllocated s 0 = false := by
  cases t
  · show Tlsf.isAllocated s 0 = false
    simp [Tlsf.isAllocated]
  · show Tlsf.isAllocated s 0 = false
    simp [Tlsf.isAllocated]
  all_goals
    show Buddy.isAllocated s 0 = false
    simp [Buddy.isAllocated]

theorem fitsRequest_of_lt {sz : ℕ} (h : sz < 2 ^ 12) : Tlsf.fitsRequest sz = true := by
  unfold Tlsf.fitsRequest
  apply decide_eq_true
  simp only [Tlsf.adjustedBlockSize, Tlsf.alignDown]
  split_ifs <;> omega

theorem fits_ofSize (sz : ℕ) : (ofSize sz).fits sz = true := by
  unfold ofSize
  split_ifs with h₁ h₂
  · exact fitsRequest_of_lt (by omega)
  · exact fitsRequest_of_lt h₂
  · rfl
  · rfl
  · rfl

theorem fits_ofLaunder (sz : ℕ) : (ofLaunder sz).fits sz = true := by
  unfold ofLaunder
  split_ifs with h₁
  · exact fitsRequest_of_lt h₁
  · rfl
  · rfl
  · rfl

/-! ## Fresh lists -/

/-- A list on a fresh chunk is empty and stays inside the chunk. -/
def Formats {σ : Type*} (T : Params σ) (Rep : σ → Ledger → Prop) : Prop :=
  ∀ (m : Mem) (tags : ℕ → ℕ) (c : Chunk), 0 < c.ptr → c.ptr + c.len < 2 ^ 64 →
    T.book.header ≤ c.len → ∃ L, Rep (T.format m tags c) L ∧ L.Vacant ∧
      c.ptr + T.book.header ≤ L.lo ∧ L.hi + T.book.header ≤ c.ptr + c.len

theorem tlsfTier_formats (slots : ℕ) :
    Formats (tlsfTier slots) (OrRefused tlsfRefused Tlsf.TlsfRep) := by
  intro m tags c hpos hlen hle
  have hle : 32 ≤ c.len := hle
  by_cases hacc : (Tlsf.initMemory m c.ptr c.len).ctl.base = 0
  · have hpos' : 0 < c.ptr + 32 := by omega
    refine ⟨vacantLedger (c.ptr + 32), Or.inr ⟨?_, vacantLedger_valid hpos'⟩,
      (vacantLedger_valid hpos').2, le_rfl, ?_⟩
    · refine ⟨hacc, ?_⟩
      show (Tlsf.initMemory m c.ptr c.len).ctl.allocatedBytes = 0 ∧
        (Tlsf.initMemory m c.ptr c.len).ctl.tombstonedBytes = 0
      simp only [Tlsf.initMemory]
      split_ifs <;> exact ⟨rfl, rfl⟩
    · show 0 + 32 ≤ c.ptr + c.len
      omega
  · obtain ⟨L, hrep, hV, hlo, hhi⟩ := Tlsf.initMemory_vacant (m := m) hlen.le hacc
    obtain ⟨h₁, h₂⟩ := Tlsf.initMemory_bounds (m := m) hlen.le hacc
    refine ⟨L, Or.inl hrep, hV, ?_, ?_⟩
    · rw [hlo]
      exact Nat.add_le_add_right h₁ 32
    · rw [hhi]
      exact h₂

theorem buddyTier_formats {minLog : ℕ} (hmin : 5 ≤ minLog) (maxSheets slots : ℕ) (tomb : Bool) :
    Formats (buddyTier minLog maxSheets slots tomb) (OrRefused buddyRefused Buddy.BuddyRep) := by
  intro m tags c hpos hlen _
  by_cases hacc : (Buddy.initMemory minLog m c.ptr c.len false tags).ctl.base = 0
  · refine ⟨vacantLedger c.ptr, Or.inr ⟨?_, vacantLedger_valid hpos⟩, (vacantLedger_valid hpos).2,
      le_rfl, Nat.zero_le _⟩
    refine ⟨hacc, ?_⟩
    show (Buddy.initMemory minLog m c.ptr c.len false tags).ctl.allocatedBytes = 0 ∧
      (Buddy.initMemory minLog m c.ptr c.len false tags).ctl.tombstonedBytes = 0
    simp only [Buddy.initMemory, Buddy.formatPool, Buddy.BuddyList.setTag]
    split_ifs <;> exact ⟨rfl, rfl⟩
  · obtain ⟨L, hrep, hV, hlo, hhi⟩ := Buddy.initMemory_vacant hmin hlen hacc
    exact ⟨L, Or.inl hrep, hV, hlo, hhi⟩

theorem formats (t : TierId) : Formats t.params t.Rep := by
  cases t
  · exact tlsfTier_formats 32
  · exact tlsfTier_formats 16
  · exact buddyTier_formats (by decide) 512 8 false
  · exact buddyTier_formats (by decide) 128 4 true
  · exact buddyTier_formats (by decide) 128 0 true

/-! ## Metadata -/

/-- The data of a list lies inside its chunk and outside the payloads of its blocks. -/
def Keeps {σ : Type*} (T : Params σ) (Rep : σ → Ledger → Prop) : Prop :=
  ∀ (c : Chunk) (s : σ) (L : Ledger), Rep s L → c.ptr + T.book.header ≤ L.lo →
    ∀ r ∈ T.metadata c s, c.ptr ≤ r.1 ∧ r.1 + r.2 ≤ L.hi + T.book.header ∧
      ∀ {b n f}, L.used b = some (n, f) →
        r.1 + r.2 ≤ b + T.book.header ∨ b + T.book.header + (n - 32) ≤ r.1

theorem tlsfTier_keeps (slots : ℕ) :
    Keeps (tlsfTier slots) (OrRefused tlsfRefused Tlsf.TlsfRep) := by
  rintro c s L (⟨A, hG, rfl⟩ | ⟨⟨h₀, -⟩, -, -⟩) hlo r hr
  · have hlo : c.ptr + 32 ≤ s.ctl.base + 32 := hlo
    have hspan := hG.first_block.1
    have hin : ∀ {b n f}, Tlsf.used A b = some (n, f) →
        s.ctl.base + 32 ≤ b ∧ b + n ≤ s.ctl.endSentinel ∧ 64 ≤ n := fun hb =>
      ⟨(hG.phys.base_lt (Tlsf.used_eq_some.1 hb).1).1,
        (hG.phys.base_lt (Tlsf.used_eq_some.1 hb).1).2,
        hG.phys.size_ge (Tlsf.used_eq_some.1 hb).1⟩
    have hr : r ∈ (s.ctl.base, 32) :: (s.ctl.endSentinel, 32) ::
        (Tlsf.blocks s).map fun b => (b, 32) := by
      have hr : r ∈ if s.ctl.base = 0 then [] else _ := hr
      rwa [if_neg hG.base_ne_zero] at hr
    show c.ptr ≤ r.1 ∧ r.1 + r.2 ≤ s.ctl.endSentinel + 32 ∧
      ∀ {b n f}, Tlsf.used A b = some (n, f) → r.1 + r.2 ≤ b + 32 ∨ b + 32 + (n - 32) ≤ r.1
    rcases List.mem_cons.1 hr with rfl | hr
    · refine ⟨by omega, by omega, fun hb => ?_⟩
      have := hin hb
      omega
    rcases List.mem_cons.1 hr with rfl | hr
    · refine ⟨by omega, by omega, fun hb => ?_⟩
      have := hin hb
      omega
    · obtain ⟨x, hx, rfl⟩ := List.mem_map.1 hr
      obtain ⟨m, k, hA⟩ := (hG.mem_blocks x).1 hx
      have h₁ := hG.phys.base_lt hA
      have h₂ := hG.phys.size_ge hA
      refine ⟨by omega, by omega, fun {b n f} hb => ?_⟩
      have h₃ := hin hb
      by_cases hxb : x = b
      · subst hxb
        omega
      · have := hG.phys.tiles.disjoint hA (Tlsf.used_eq_some.1 hb).1 hxb
        omega
  · have hr : r ∈ if s.ctl.base = 0 then [] else _ := hr
    rw [if_pos h₀] at hr
    exact absurd hr List.not_mem_nil

/-- A tag below the number of orders is that of a block in use. -/
theorem exists_used_of_tag {h : Buddy.Heap} {A : Buddy.Blocks} (hG : Buddy.Good h A) {i : ℕ}
    (hi : i < h.ctl.tagCount) (htag : h.ctl.blockTags i < h.ctl.maxOrder) :
    ∃ f, A (h.ctl.base + i * 2 ^ h.ctl.minLog) =
      some (h.ctl.orderSize (h.ctl.blockTags i), h.ctl.blockTags i, .inUse f) := by
  have h64 := hG.geo.order_le
  have hT := hG.tags i hi
  cases hA : A (h.ctl.base + i * 2 ^ h.ctl.minLog) with
  | none =>
    rw [hA] at hT
    have hT : h.ctl.blockTags i = 255 := hT
    omega
  | some v =>
    obtain ⟨n, o, k⟩ := v
    rw [hA] at hT
    have hsize := hG.size hA
    cases k with
    | free =>
      have hT : h.ctl.blockTags i = Buddy.tagFree o := hT
      have hge : 128 ≤ Buddy.tagFree o := by
        unfold Buddy.tagFree
        have hmod : o ||| 128 < 256 := Nat.or_lt_two_pow (n := 8) (by omega) (by norm_num)
        rw [Nat.mod_eq_of_lt hmod]
        exact Nat.right_le_or
      omega
    | cached =>
      have hT : h.ctl.blockTags i = 255 := hT
      omega
    | inUse f =>
      have hT : h.ctl.blockTags i = o := hT
      exact ⟨f, by rw [hT, hsize.1]⟩
    | detached => exact absurd hA hG.closed

theorem buddyTier_keeps (minLog maxSheets slots : ℕ) (tomb : Bool) :
    Keeps (buddyTier minLog maxSheets slots tomb) (OrRefused buddyRefused Buddy.BuddyRep) := by
  rintro c s L (⟨A, hG, rfl⟩ | ⟨⟨h₀, -⟩, -, -⟩) hlo r hr
  · have hlo : c.ptr + 0 ≤ s.ctl.base := hlo
    have hin : ∀ {b n f}, Buddy.used A b = some (n, f) →
        ∃ o, A b = some (n, o, .inUse f) ∧ s.ctl.base ≤ b ∧ b + n ≤ s.ctl.limit ∧ 32 ≤ n := by
      intro b n f hb
      obtain ⟨o, hA⟩ := Buddy.used_eq_some.1 hb
      exact ⟨o, hA, hG.within hA⟩
    have hspan : s.ctl.base ≤ s.ctl.limit := Nat.le_add_right _ _
    have hr : r ∈ (c.ptr, s.ctl.base - c.ptr) :: tailHeaders s := by
      have hr : r ∈ if s.ctl.base = 0 then [] else _ := hr
      rwa [if_neg hG.geo.base_pos.ne'] at hr
    show c.ptr ≤ r.1 ∧ r.1 + r.2 ≤ s.ctl.limit + 0 ∧
      ∀ {b n f}, Buddy.used A b = some (n, f) → r.1 + r.2 ≤ b + 0 ∨ b + 0 + (n - 32) ≤ r.1
    rcases List.mem_cons.1 hr with rfl | hr
    · refine ⟨le_rfl, by omega, fun hb => ?_⟩
      obtain ⟨o, -, h₁, -⟩ := hin hb
      omega
    · obtain ⟨i, hi, rfl⟩ := List.mem_map.1 hr
      obtain ⟨hi, htag⟩ := List.mem_filter.1 hi
      obtain ⟨f, hA⟩ := exists_used_of_tag hG (List.mem_range.1 hi) (of_decide_eq_true htag)
      generalize s.ctl.base + i * 2 ^ s.ctl.minLog = x at hA ⊢
      have h₁ := hG.within hA
      have hhdr : s.ctl.hdrOf x (s.ctl.blockTags i) = x +
        s.ctl.orderSize (s.ctl.blockTags i) - 32 :=
        rfl
      rw [hhdr]
      refine ⟨by omega, by omega, fun {b n g} hb => ?_⟩
      obtain ⟨o, hB, h₂⟩ := hin hb
      by_cases hxb : x = b
      · subst hxb
        rw [hA] at hB
        simp only [Option.some.injEq, Prod.mk.injEq] at hB
        omega
      · have := hG.tiles.disjoint hA hB hxb
        omega
  · have hr : r ∈ if s.ctl.base = 0 then [] else _ := hr
    rw [if_pos h₀] at hr
    exact absurd hr List.not_mem_nil

theorem keeps (t : TierId) : Keeps t.params t.Rep := by
  cases t
  · exact tlsfTier_keeps 32
  · exact tlsfTier_keeps 16
  · exact buddyTier_keeps 12 512 8 false
  · exact buddyTier_keeps 15 128 4 true
  · exact buddyTier_keeps 18 128 0 true

end TierId
end AbcMalloc.Arena
