import AbcMalloc.Arena.Clients
import AbcMalloc.Tlsf.DoubleFree

/-! Frees of pointers that are not live. A list answers for every block that still has a header
or a tag of its own: a free or tombstoned one is refused and nothing changes. -/
namespace AbcMalloc.Arena
open Function Foundation

/-! ## What the lists refuse -/

def Ignored {σ : Type*} (r : RetFlag × σ) (s : σ) : Prop := r.2 = s ∧ r.1 ≠ .ok ∧ r.1 ≠ .tombstoned

theorem ignored_invalid {σ : Type*} (s : σ) : Ignored (.invalid, s) s :=
  ⟨rfl, by simp, by simp⟩

/-- The list does not take the block at `b` back, and does not change. -/
structure Refuses {σ : Type*} (B : Book σ) (s : σ) (b : ℕ) : Prop where
  allocated : B.isAllocated s b = false
  deallocate : Ignored (B.deallocate s b) s
  tombstone : Ignored (B.tombstone s b) s

/-- The block at `b` was not coalesced away: its header is one of those of the list. -/
def tlsfStarts (h : Tlsf.Heap) (b : ℕ) : Prop := h.ctl.base ≠ 0 ∧ 32 ≤ b ∧ b - 32 ∈ Tlsf.blocks h

instance (h : Tlsf.Heap) (b : ℕ) : Decidable (tlsfStarts h b) := inferInstanceAs (Decidable (_ ∧ _))

theorem tlsf_refuses {h : Tlsf.Heap} {L : Ledger} {b : ℕ}
    (hrep : OrRefused tlsfRefused Tlsf.TlsfRep h L) (hst : tlsfStarts h b)
    (hnone : L.used (b - 32) = none) : Refuses Tlsf.tlsfBook h b := by
  obtain ⟨hbase, hb, hmem⟩ := hst
  rcases hrep with ⟨A, hG, rfl⟩ | ⟨⟨h₀, -⟩, -, -⟩
  · obtain ⟨n, k, hA⟩ := (hG.mem_blocks (b - 32)).1 hmem
    have hfree : h.mem.hi (b - 32) = blockFree := by
      cases k with
      | none => exact absurd hA hG.closed
      | some f =>
        by_contra hne
        have hf : f ≠ blockFree := fun hf => hne (by rw [hG.phys.hi hA, hf])
        have hu : Tlsf.used A (b - 32) = some (n, f) := Tlsf.used_eq_some.2 ⟨hA, hf⟩
        have hnone : Tlsf.used A (b - 32) = none := hnone
        rw [hu] at hnone
        exact absurd hnone (by simp)
    obtain ⟨h₁, h₂⟩ := Tlsf.rejects_of_free (by omega) hbase hfree
    have h₃ : Tlsf.tombstone h b = (.invalid, h) := by
      unfold Tlsf.tombstone
      simp [hfree]
    constructor
    · exact h₁
    · show Ignored (Tlsf.deallocate h b) h
      rw [h₂]
      exact ignored_invalid h
    · show Ignored (Tlsf.tombstone h b) h
      rw [h₃]
      exact ignored_invalid h
  · exact absurd h₀ hbase

/-- A buddy list keeps a tag for every block that it may return, so nothing is coalesced away. -/
theorem buddy_refuses {h : Buddy.Heap} {L : Ledger} {b : ℕ}
    (hrep : OrRefused buddyRefused Buddy.BuddyRep h L) (hnone : L.used b = none) :
    Refuses Buddy.buddyBook h b := by
  have hal : Buddy.isAllocated h b = false := by
    by_contra hne
    have hal : Buddy.isAllocated h b = true := by simpa using hne
    unfold Buddy.isAllocated at hal
    simp only [Bool.and_eq_true, decide_eq_true_eq] at hal
    obtain ⟨⟨⟨⟨⟨⟨-, hbase⟩, hlo⟩, hhi⟩, hmod⟩, -⟩, htag⟩ := hal
    rcases hrep with ⟨A, hG, rfl⟩ | ⟨⟨h₀, -⟩, -, -⟩
    · have hdvd : 2 ^ h.ctl.minLog ∣ b - h.ctl.base := Nat.dvd_of_mod_eq_zero hmod
      have hmul : h.ctl.tagIndex b * 2 ^ h.ctl.minLog = b - h.ctl.base := Nat.div_mul_cancel hdvd
      have hlt : h.ctl.tagIndex b < h.ctl.tagCount := by
        rw [hG.geo.tagCount]
        exact Nat.div_lt_div_of_lt_of_dvd hG.geo.dvd (by omega)
      obtain ⟨f, hA⟩ := TierId.exists_used_of_tag hG hlt htag
      rw [hmul, show h.ctl.base + (b - h.ctl.base) = b by omega] at hA
      have hu : Buddy.used A b = some (_, f) := Buddy.used_eq_some.2 ⟨_, hA⟩
      have hnone : Buddy.used A b = none := hnone
      rw [hu] at hnone
      exact absurd hnone (by simp)
    · exact hbase h₀
  have h₁ : Buddy.deallocate h b = (.invalid, h) := by
    unfold Buddy.deallocate
    rw [if_pos hal]
  have h₂ : Buddy.tombstone h b = (.invalid, h) := by
    unfold Buddy.tombstone
    rw [if_pos hal]
  constructor
  · exact hal
  · show Ignored (Buddy.deallocate h b) h
    rw [h₁]
    exact ignored_invalid h
  · show Ignored (Buddy.tombstone h b) h
    rw [h₂]
    exact ignored_invalid h

namespace TierId

def starts : (t : TierId) → t.Heap → ℕ → Prop
  | precise, h, b => tlsfStarts h b
  | small, h, b => tlsfStarts h b
  | _, _, _ => True

instance (t : TierId) (h : t.Heap) (b : ℕ) : Decidable (t.starts h b) := by
  cases t
  · exact inferInstanceAs (Decidable (tlsfStarts h b))
  · exact inferInstanceAs (Decidable (tlsfStarts h b))
  all_goals exact inferInstanceAs (Decidable True)

theorem refuses (t : TierId) {h : t.Heap} {L : Ledger} {b : ℕ} (hrep : t.Rep h L)
    (hst : t.starts h b) (hnone : L.used (b - t.params.book.header) = none) :
    Refuses t.params.book h b := by
  cases t
  · exact tlsf_refuses hrep hst hnone
  · exact tlsf_refuses hrep hst hnone
  · exact buddy_refuses hrep hnone
  · exact buddy_refuses hrep hnone
  · exact buddy_refuses hrep hnone

/-- Blocks in use have a header or a tag. -/
theorem starts_of_used (t : TierId) {h : t.Heap} {L : Ledger} {b n f : ℕ} (hrep : t.Rep h L)
    (hu : L.used b = some (n, f)) : t.starts h (b + t.params.book.header) := by
  have htlsf : ∀ {h : Tlsf.Heap}, OrRefused tlsfRefused Tlsf.TlsfRep h L →
    tlsfStarts h (b + 32) := by
    rintro h (⟨A, hG, rfl⟩ | ⟨-, -, hV⟩)
    · have hu : Tlsf.used A b = some (n, f) := hu
      refine ⟨hG.base_ne_zero, by omega, ?_⟩
      rw [Nat.add_sub_cancel, hG.mem_blocks]
      exact ⟨_, _, (Tlsf.used_eq_some.1 hu).1⟩
    · rw [hV.used] at hu
      exact absurd hu (by simp)
  cases t
  · exact htlsf hrep
  · exact htlsf hrep
  all_goals trivial

end TierId

theorem Inv.covers_blockPtr {cfg : Config} {a : Tiers} {U : Active} {t : TierId} {e : Entry t.Heap}
    {i p : ℕ} (hI : Inv a U) (hi : (a t).idx[i]? = some e) (hcov : e.frame.Covers p)
    (hst : t.starts e.sheet.book (blockPtr cfg t p)) :
    e.frame.Covers (blockPtr cfg t p) ∧ userPtr cfg t (blockPtr cfg t p) = p := by
  obtain ⟨L, hL⟩ := (hI.tiers t).entry_holds hi
  -- the headers of a TLSF list lie inside its sheet
  have htlsf : ∀ {h : Tlsf.Heap} {lo hi b : ℕ}, OrRefused tlsfRefused Tlsf.TlsfRep h L →
      lo + 32 ≤ L.lo → L.hi + 32 ≤ hi → tlsfStarts h b → lo ≤ b ∧ b < hi ∧ 32 ≤ b := by
    rintro h lo hi b (⟨A, hG, rfl⟩ | ⟨⟨h₀, -⟩, -, -⟩) hlo hhi ⟨hbase, hb, hmem⟩
    · obtain ⟨n, k, hA⟩ := (hG.mem_blocks (b - 32)).1 hmem
      have h₁ := hG.phys.base_lt hA
      have h₂ := hG.phys.size_ge hA
      have h₃ : lo + 32 ≤ h.ctl.base + 32 := hlo
      have h₄ : h.ctl.endSentinel + 32 ≤ hi := hhi
      omega
    · exact absurd h₀ hbase
  have huser : ∀ {b : ℕ}, 32 ≤ blockPtr cfg t b → userPtr cfg t (blockPtr cfg t b) = b := by
    intro b hb
    unfold blockPtr userPtr at *
    split_ifs at * <;> omega
  have hplain : t.params.redzoned = false → blockPtr cfg t p = p := by
    intro hr
    simp [blockPtr, canaries, hr]
  have hsame : t.params.redzoned = false → e.frame.Covers (blockPtr cfg t p) ∧
      userPtr cfg t (blockPtr cfg t p) = p := by
    intro hr
    rw [hplain hr]
    exact ⟨hcov, by simp [userPtr, canaries, hr]⟩
  cases t
  · obtain ⟨h₁, h₂, h₃⟩ := htlsf hL.rep hL.lo_le hL.le_hi hst
    exact ⟨⟨h₁, h₂⟩, huser h₃⟩
  · obtain ⟨h₁, h₂, h₃⟩ := htlsf hL.rep hL.lo_le hL.le_hi hst
    exact ⟨⟨h₁, h₂⟩, huser h₃⟩
  all_goals exact hsame rfl

/-! ## Frees of inactive blocks -/

section Inactive
variable {cfg : Config} {a : Tiers} {U : Active} {t : TierId} {e : Entry t.Heap} {i b : ℕ}
  {L : Ledger}

/-- A removal that the list ignores; the size-less ones report it as done. -/
theorem tryRemove_of_ignored {σ : Type*} {T : Params σ} {s : Sheet σ} (hs : s.empty = false)
    (hb : b ≠ 0) {tomb : Bool} (h : Ignored
      (if tomb then T.book.tombstone s.book b else T.book.deallocate s.book b) s.book)
    (sized : Bool) : s.tryRemove T tomb sized b = .ok (!sized, s) := by
  obtain ⟨h₁, h₂, h₃⟩ := h
  unfold Sheet.tryRemove
  rw [hs]
  simp only [hb, Bool.false_eq_true, or_self, if_false]
  rw [h₁, decide_eq_false h₂, decide_eq_false h₃]
  simp

/-- The list of a sheet about a block that is not active: it is free, or tombstoned. -/
theorem Inv.inactive (hI : Inv a U) (hi : (a t).idx[i]? = some e) (hcov : e.frame.Covers b)
    (hst : t.starts e.sheet.book b) (hU : U b = none) :
    Refuses t.params.book e.sheet.book b ∨
      (t.params.book.isAllocated e.sheet.book b = true ∧
        t.params.book.isTombstoned e.sheet.book b = true ∧
        Ignored (t.params.book.tombstone e.sheet.book b) e.sheet.book) := by
  obtain ⟨L, hL⟩ := (hI.tiers t).entry_holds hi
  rw [hL.active b hcov] at hU
  cases hu : L.used (b - t.params.book.header) with
  | none => exact Or.inl (t.refuses hL.rep hst hu)
  | some v =>
    obtain ⟨n, f⟩ := v
    have hf : f = blockTombstone := by
      by_contra hf
      simp [activeOf, hu, activeEntry, hf] at hU
    subst hf
    have hV := t.refines.valid hL.rep
    have hle : t.params.book.header ≤ b := by
      have h₁ := (hV.within hu).1
      have h₂ := hV.pos
      omega
    have hb : b - t.params.book.header + t.params.book.header = b := Nat.sub_add_cancel hle
    have hal := t.refines.isAllocated hL.rep hu
    have hts := t.refines.isTombstoned hL.rep hu
    have hagain := t.refines.tombstone_again hL.rep hu
    rw [hb] at hal hts hagain
    right
    refine ⟨hal, by simpa using hts, ?_⟩
    rw [hagain]
    exact ignored_invalid _

theorem Tier.setSheet_self {σ : Type*} {t : Tier σ} {e : Entry σ} (hi : t.idx[i]? = some e) :
    t.setSheet i e.sheet = t := by
  have hidx : (t.setSheet i e.sheet).idx = t.idx := by
    apply List.ext_getElem?
    intro j
    rw [Tier.setSheet_getElem? hi]
    split_ifs with hj
    · rw [hj, hi]
    · rfl
  show { t with idx := (t.setSheet i e.sheet).idx } = t
  rw [hidx]

/-- A removal that the list ignores leaves the active blocks alone; drained sheets may go. -/
theorem Inv.removeImpl_ignored (hI : Inv a U) (hdf : cfg.doubleFreeAborts = false)
    (hi : (a t).idx[i]? = some e) (hcov : e.frame.Covers b) (force sized : Bool)
    (h : Ignored (if force || t.params.tomb then t.params.book.tombstone e.sheet.book b
      else t.params.book.deallocate e.sheet.book b) e.sheet.book) :
    ∃ r x, (a t).removeImpl t.params cfg force sized i b = .ok (r, x) ∧
      x.Inv t.params t.Rep U ∧ Tier.Shrinks U (a t) x := by
  have hT := hI.tiers t
  have hb : b ≠ 0 := by
    have h₁ := (hT.entry_good hi).pos
    have h₂ := hcov.1
    omega
  have hrem := tryRemove_of_ignored (hT.not_empty hi) hb h sized
  have hset := Tier.setSheet_self hi
  have havail : ((a t).markAvailable i).Inv t.params t.Rep U := hT.congr rfl rfl
  have hmark : Tier.Shrinks U (a t) ((a t).markAvailable i) :=
    ⟨List.Sublist.refl _, rfl, rfl, fun _ hf _ _ _ => hf⟩
  unfold Tier.removeImpl
  rw [hi]
  simp only [hrem, bind, Except.bind, hset]
  split_ifs
  · obtain ⟨h₁, h₂⟩ := Tier.tombstoneAccounting_spec t.refines havail i
    exact ⟨_, _, rfl, h₁, hmark.trans h₂⟩
  · obtain ⟨h₁, h₂⟩ := Tier.tryReclaimEmpty_spec t.refines havail i
    exact ⟨_, _, rfl, h₁, hmark.trans h₂⟩
  · unfold Tier.handleDoubleFree
    rw [hdf]
    exact ⟨_, _, rfl, hT, .refl U (a t)⟩

end Inactive

/-! ## Frees of any pointer -/

section Repeats
variable {cfg : Config} {a : Tiers} {U : Active} {t : TierId} {e : Entry t.Heap} {i p : ℕ}

def Untemporal (U : Active) : Prop := ∀ b n, U b ≠ some (n, true)

/-- A free was refused, or it freed the block, or there was nothing to free. -/
def Settled (a : Tiers) (U : Active) (b : ℕ) (r : Bool × Tiers) : Prop :=
  (r.1 = false ∧ r.2 = a) ∨ (r.1 = true ∧ ∃ U', Freed a U b r.2 U') ∨
    (U b = none ∧ Freed a U b r.2 U)

theorem Inv.contains_of_parked {b : ℕ} (hI : Inv a U) (hi : (a t).idx[i]? = some e)
    (hcov : e.frame.Covers b) (hp : Parked a b) : (a t).cache.contains b = true := by
  obtain ⟨s, x, hx, rfl⟩ := hp
  obtain ⟨⟨f, hf, hfx⟩, -⟩ := (hI.tiers s).cached x hx
  obtain rfl := hI.tier_unique hf (Tier.mem_frames (List.mem_of_getElem? hi)) hfx hcov
  exact List.any_eq_true.2 ⟨x, hx, decide_eq_true rfl⟩

theorem Inv.slots_of_contains {b : ℕ} (hI : Inv a U) (hc : (a t).cache.contains b = true) :
    t.params.cacheSlots ≠ 0 := by
  intro h₀
  have hroom := (hI.tiers t).room
  rw [h₀] at hroom
  rw [List.eq_nil_of_length_eq_zero (Nat.le_zero.1 hroom)] at hc
  exact absurd hc (by simp [Cache.contains])

theorem onTier_rejected (hdf : cfg.doubleFreeAborts = false)
    {f : Tier t.Heap → Except Halt (Bool × Tier t.Heap)}
    (hf : f (a t) = (a t).handleDoubleFree cfg) : onTier a t f = .ok (false, a) := by
  have hrun : f (a t) = .ok (false, a t) := by
    rw [hf]
    unfold Tier.handleDoubleFree
    rw [hdf]
    rfl
  rw [onTier_ok hrun, update_eq_self]

theorem Inv.freed_ignored {b : ℕ} (hI : Inv a U) (hi : (a t).idx[i]? = some e)
    (hcov : e.frame.Covers b) (hU : U b = none) {x : Tier t.Heap}
    (hx : x.Inv t.params t.Rep U) (hS : Tier.Shrinks U (a t) x) :
    Freed a U b (update a t x) U := by
  have hupd : update U b none = U := by rw [← hU, update_eq_self]
  apply hI.frees hi hcov
  right
  rw [hupd]
  exact ⟨rfl, hx, hS⟩

theorem Inv.not_allocated {b : ℕ} (hI : Inv a U) (hi : (a t).idx[i]? = some e)
    (hcov : e.frame.Covers b) (hst : t.starts e.sheet.book b) (hU : U b = none) :
    e.sheet.isBlockAllocated t.params b = false := by
  unfold Sheet.isBlockAllocated
  rcases hI.inactive hi hcov hst hU with href | ⟨-, hto, -⟩
  · rw [href.allocated, Bool.false_and]
  · rw [hto, Bool.not_true, Bool.and_false]

/-- The sized free of any block that still has a header or a tag. -/
theorem Inv.cachePushOrRemove_any {b : ℕ} (hI : Inv a U) (hplain : Untemporal U)
    (hdf : cfg.doubleFreeAborts = false) (hi : (a t).idx[i]? = some e) (hcov : e.frame.Covers b)
    (hst : t.starts e.sheet.book b) (len : ℕ) :
    ∃ r, onTier a t (fun x => x.cachePushOrRemove t.params cfg i ⟨b, len⟩) = .ok r ∧
      Settled a U b r := by
  cases hU : U b with
  | some v =>
    obtain ⟨n, k⟩ := v
    cases k with
    | true => exact absurd hU (hplain b n)
    | false =>
      by_cases hpark : Parked a b
      · have hc := hI.contains_of_parked hi hcov hpark
        obtain ⟨hal, -, -⟩ := (hI.tiers t).reports t.refines hi hcov hU
        have hslots : t.params.cacheSlots ≠ 0 := hI.slots_of_contains hc
        refine ⟨_, onTier_rejected hdf ?_, Or.inl ⟨rfl, rfl⟩⟩
        unfold Tier.cachePushOrRemove
        rw [hi]
        simp only [hslots, hal, hc, if_false, Bool.not_true, Bool.false_or, if_true]
      · obtain ⟨x, U', hrun, hF⟩ := Tier.cachePushOrRemove_spec t.refines (hI.tiers t) cfg hi hcov
          hU (by simp) (contains_eq_false hpark) len
        exact ⟨_, onTier_ok hrun, Or.inr (Or.inl ⟨rfl, U', hI.frees hi hcov hF⟩)⟩
  | none =>
    have hins := hI.inactive hi hcov hst hU
    have hts : Ignored (t.params.book.tombstone e.sheet.book b) e.sheet.book := by
      rcases hins with href | ⟨-, -, hts⟩
      · exact href.tombstone
      · exact hts
    have hal := hI.not_allocated hi hcov hst hU
    by_cases hslots : t.params.cacheSlots = 0
    · -- the only tier without a cache tombstones
      have htomb : t.params.tomb = true := by
        revert hslots
        cases t <;> decide
      obtain ⟨r, x, hrun, hx, hS⟩ := hI.removeImpl_ignored hdf hi hcov false true
        (by rw [htomb]; exact hts)
      refine ⟨_, onTier_ok (r := r) (x := x) ?_,
        Or.inr (Or.inr ⟨hU, hI.freed_ignored hi hcov hU hx hS⟩)⟩
      unfold Tier.cachePushOrRemove
      rw [hi]
      simp only [hslots, if_true]
      exact hrun
    · refine ⟨_, onTier_rejected hdf ?_, Or.inl ⟨rfl, rfl⟩⟩
      unfold Tier.cachePushOrRemove
      rw [hi]
      simp only [hslots, hal, if_false, Bool.not_false, Bool.true_or, if_true]

/-- With redzones the size-less free goes to the list at once: a parked block must not be freed
so, nor a tombstoned one that the tier would deallocate. -/
def SizelessOk (cfg : Config) (a : Tiers) (t : TierId) (s : t.Heap) (b : ℕ) : Prop :=
  cfg.redzone = true → (a t).cache.contains b = false ∧
    (t.params.book.isAllocated s b = true → t.params.book.isTombstoned s b = true →
      t.params.tomb = true)

instance (cfg : Config) (a : Tiers) (t : TierId) (s : t.Heap) (b : ℕ) :
    Decidable (SizelessOk cfg a t s b) := inferInstanceAs (Decidable (_ → _))

theorem Inv.removeAt_any {b : ℕ} (hI : Inv a U) (hplain : Untemporal U)
    (hdf : cfg.doubleFreeAborts = false) (hi : (a t).idx[i]? = some e) (hcov : e.frame.Covers b)
    (hst : t.starts e.sheet.book b) (hok : SizelessOk cfg a t e.sheet.book b) :
    ∃ r, onTier a t (fun x => x.removeAt t.params cfg i b) = .ok r ∧ Settled a U b r := by
  cases hU : U b with
  | some v =>
    obtain ⟨n, k⟩ := v
    cases k with
    | true => exact absurd hU (hplain b n)
    | false =>
      by_cases hpark : Parked a b
      · have hc := hI.contains_of_parked hi hcov hpark
        obtain ⟨hal, -, -⟩ := (hI.tiers t).reports t.refines hi hcov hU
        have hslots : t.params.cacheSlots ≠ 0 := hI.slots_of_contains hc
        have hrz : ¬cfg.redzone = true := by
          intro hrz
          rw [(hok hrz).1] at hc
          exact absurd hc (by decide)
        refine ⟨_, onTier_rejected hdf ?_, Or.inl ⟨rfl, rfl⟩⟩
        unfold Tier.removeAt
        rw [hi]
        simp only [hrz, hslots, hal, hc, if_false, Bool.not_true, Bool.false_eq_true, if_true]
      · obtain ⟨x, U', hrun, hF⟩ := Tier.removeAt_spec t.refines (hI.tiers t) cfg hi hcov
          hU (by simp) (contains_eq_false hpark)
        exact ⟨_, onTier_ok hrun, Or.inr (Or.inl ⟨rfl, U', hI.frees hi hcov hF⟩)⟩
  | none =>
    by_cases hrz : cfg.redzone = true
    · have hign : Ignored (if false || t.params.tomb then t.params.book.tombstone e.sheet.book b
          else t.params.book.deallocate e.sheet.book b) e.sheet.book := by
        rw [Bool.false_or]
        rcases hI.inactive hi hcov hst hU with href | ⟨hal, hto, hts⟩
        · split_ifs
          · exact href.tombstone
          · exact href.deallocate
        · rw [(hok hrz).2 hal hto]
          exact hts
      obtain ⟨r, x, hrun, hx, hS⟩ := hI.removeImpl_ignored hdf hi hcov false false hign
      refine ⟨_, onTier_ok (r := r) (x := x) ?_,
        Or.inr (Or.inr ⟨hU, hI.freed_ignored hi hcov hU hx hS⟩)⟩
      unfold Tier.removeAt
      rw [hi]
      simp only [hrz, if_true]
      exact hrun
    · refine ⟨_, onTier_rejected hdf ?_, Or.inl ⟨rfl, rfl⟩⟩
      unfold Tier.removeAt
      rw [hi]
      simp only [hrz, hI.not_allocated hi hcov hst hU, if_false, Bool.not_false, Bool.false_eq_true,
        if_true]

/-- `ts_pop` of any block that still has a header or a tag and is not parked. -/
theorem Inv.tombstone_any {b : ℕ} (hI : Inv a U) (hplain : Untemporal U)
    (hdf : cfg.doubleFreeAborts = false) (hi : (a t).idx[i]? = some e) (hcov : e.frame.Covers b)
    (hst : t.starts e.sheet.book b) (hc : (a t).cache.contains b = false) (sized : Bool) :
    ∃ r, onTier a t (fun x => x.removeImpl t.params cfg true sized i b) = .ok r ∧
      Settled a U b r := by
  cases hU : U b with
  | some v =>
    obtain ⟨n, k⟩ := v
    cases k with
    | true => exact absurd hU (hplain b n)
    | false =>
      obtain ⟨x, hrun, hx, hS⟩ := Tier.removeImpl_spec t.refines (hI.tiers t) cfg true sized hi hcov
        hU (by simp) hc
      exact ⟨_, onTier_ok hrun,
        Or.inr (Or.inl ⟨rfl, _, hI.frees hi hcov (Or.inr ⟨rfl, hx, hS⟩)⟩)⟩
  | none =>
    have hign : Ignored (t.params.book.tombstone e.sheet.book b) e.sheet.book := by
      rcases hI.inactive hi hcov hst hU with href | ⟨-, -, hts⟩
      · exact href.tombstone
      · exact hts
    obtain ⟨r, x, hrun, hx, hS⟩ := hI.removeImpl_ignored hdf hi hcov true sized hign
    exact ⟨_, onTier_ok hrun, Or.inr (Or.inr ⟨hU, hI.freed_ignored hi hcov hU hx hS⟩)⟩

/-- The pointer, if a sheet covers it, names a block that was not coalesced away. -/
def Uncoalesced (cfg : Config) (a : Tiers) (p : ℕ) : Prop :=
  ∀ r ∈ dispatch a p, ∀ e ∈ (a r.1).idx[r.2]?, r.1.starts e.sheet.book (blockPtr cfg r.1 p)

instance (cfg : Config) (a : Tiers) (p : ℕ) : Decidable (Uncoalesced cfg a p) :=
  inferInstanceAs (Decidable (∀ r ∈ dispatch a p, _))

def Unrepeated (cfg : Config) (a : Tiers) : Op → Prop
  | .pop p none _ => ∀ r ∈ dispatch a p, ∀ e ∈ (a r.1).idx[r.2]?,
      SizelessOk cfg a r.1 e.sheet.book (blockPtr cfg r.1 p)
  | .tsPop p _ _ => ∀ r ∈ dispatch a p, (a r.1).cache.contains (blockPtr cfg r.1 p) = false
  | _ => True

instance (cfg : Config) (a : Tiers) (op : Op) : Decidable (Unrepeated cfg a op) :=
  match op with
  | .pop p none _ => inferInstanceAs (Decidable (∀ r ∈ dispatch a p, ∀ e ∈ (a r.1).idx[r.2]?, _))
  | .pop _ (some _) _ => inferInstanceAs (Decidable True)
  | .tsPop p _ _ => inferInstanceAs (Decidable (∀ r ∈ dispatch a p, _ = false))
  | .push .. => inferInstanceAs (Decidable True)
  | .launder .. => inferInstanceAs (Decidable True)
  | .resize .. => inferInstanceAs (Decidable True)
  | .freeze _ => inferInstanceAs (Decidable True)
  | .resetPage _ => inferInstanceAs (Decidable True)
  | .write .. => inferInstanceAs (Decidable True)

def SettledAt (cfg : Config) (a : Tiers) (U : Active) (p : ℕ) (r : Bool × Tiers) : Prop :=
  (r.1 = false ∧ r.2 = a) ∨ ∃ t i e, dispatch a p = some (t, i) ∧ (a t).idx[i]? = some e ∧
    e.frame.Covers (blockPtr cfg t p) ∧ userPtr cfg t (blockPtr cfg t p) = p ∧
    Settled a U (blockPtr cfg t p) r

theorem pop_any (hI : Inv a U) (hplain : Untemporal U) (hdf : cfg.doubleFreeAborts = false)
    {len : Option ℕ} {intact : Bool} (hco : Uncoalesced cfg a p)
    (hok : Unrepeated cfg a (.pop p len intact)) :
    Ends (pop cfg a p len intact) fun r => r.1 = true ∧ p = 0 ∧ r.2 = a ∨
    SettledAt cfg a U p r := by
  have hfail := (failState_ends cfg a).mono fun r hr => Or.inr (a := r.1 = true ∧ p = 0 ∧ r.2 = a)
    (Or.inl hr : SettledAt cfg a U p r)
  unfold pop popWith vmapRemove
  by_cases h₁ : p = 0
  · rw [if_pos h₁]
    cases len with
    | none => exact Ends.of_ok ⟨_, rfl, Or.inl ⟨rfl, h₁, rfl⟩⟩
    | some n => exact Ends.of_ok ⟨_, rfl, Or.inr (Or.inl ⟨rfl, rfl⟩)⟩
  rw [if_neg h₁]
  by_cases h₂ : (!freeAdmit p len) = true
  · rw [if_pos h₂]
    exact hfail
  rw [if_neg h₂]
  cases hd : dispatch a p with
  | none => exact Ends.of_ok ⟨_, rfl, Or.inr (Or.inl ⟨rfl, rfl⟩)⟩
  | some d =>
    obtain ⟨t, i⟩ := d
    simp only
    by_cases h₃ : (canaries cfg t && !intact) = true
    · rw [if_pos h₃]
      exact hfail
    rw [if_neg h₃]
    obtain ⟨e, he, hcov⟩ := hI.dispatch_eq_some.1 hd
    have hst := hco _ hd e he
    obtain ⟨hcovb, huser⟩ := hI.covers_blockPtr he hcov hst
    cases len with
    | none =>
      obtain ⟨r, hrun, hset⟩ := hI.removeAt_any hplain hdf he hcovb hst (hok _ hd e he)
      exact Ends.of_ok ⟨r, hrun, Or.inr (Or.inr ⟨t, i, e, hd, he, hcovb, huser, hset⟩)⟩
    | some n =>
      obtain ⟨r, hrun, hset⟩ := hI.cachePushOrRemove_any hplain hdf he hcovb hst
        (if canaries cfg t then (n + 32) % 2 ^ 64 else n)
      exact Ends.of_ok ⟨r, hrun, Or.inr (Or.inr ⟨t, i, e, hd, he, hcovb, huser, hset⟩)⟩

theorem tsPop_any (hI : Inv a U) (hplain : Untemporal U) (hdf : cfg.doubleFreeAborts = false)
    {len : Option ℕ} {intact : Bool} (hco : Uncoalesced cfg a p)
    (hok : Unrepeated cfg a (.tsPop p len intact)) :
    Ends (tsPop cfg a p len intact) (SettledAt cfg a U p) := by
  have hfail := (failState_ends cfg a).mono fun r hr => (Or.inl hr : SettledAt cfg a U p r)
  unfold tsPop tsPopWith vmapTombstone
  by_cases h₁ : p = 0
  · rw [if_pos h₁]
    exact Ends.of_ok ⟨_, rfl, Or.inl ⟨rfl, rfl⟩⟩
  rw [if_neg h₁]
  by_cases h₂ : (!freeAdmit p len) = true
  · rw [if_pos h₂]
    exact hfail
  rw [if_neg h₂]
  cases hd : dispatch a p with
  | none => exact Ends.of_ok ⟨_, rfl, Or.inl ⟨rfl, rfl⟩⟩
  | some d =>
    obtain ⟨t, i⟩ := d
    simp only
    by_cases h₃ : (canaries cfg t && !intact) = true
    · rw [if_pos h₃]
      exact hfail
    rw [if_neg h₃]
    obtain ⟨e, he, hcov⟩ := hI.dispatch_eq_some.1 hd
    have hst := hco _ hd e he
    obtain ⟨hcovb, huser⟩ := hI.covers_blockPtr he hcov hst
    obtain ⟨r, hrun, hset⟩ := hI.tombstone_any hplain hdf he hcovb hst (hok _ hd) len.isSome
    exact Ends.of_ok ⟨r, hrun, Or.inr ⟨t, i, e, hd, he, hcovb, huser, hset⟩⟩

end Repeats

/-! ## Runs with repeated frees -/

section Runs
variable {cfg : Config} {w : World} {a : Tiers} {U : Active} {p : ℕ}

/-- After a free of any pointer. -/
theorem Sound.settled (hS : Sound cfg w U) (hplain : Untemporal U) {r : Bool × Tiers}
    (hr : SettledAt cfg w.arena U p r) : ∃ U', Sound cfg (w.release p r) U' ∧ Untemporal U' := by
  obtain ⟨ok, a⟩ := r
  rcases hr with ⟨rfl, rfl⟩ | ⟨t, i, e, hd, he, hcov, huser, hset⟩
  · exact ⟨U, ⟨hS.inv, hS.held⟩, hplain⟩
  rcases hset with ⟨rfl, rfl⟩ | ⟨rfl, U', hF⟩ | ⟨hU, hF⟩
  · exact ⟨U, ⟨hS.inv, hS.held⟩, hplain⟩
  · refine ⟨U', ⟨hF.inv, fun {q h} hq => ?_⟩, fun b n hb => hplain b n (hF.active_of hb)⟩
    simp only [World.release, if_true] at hq
    by_cases hqp : q = p
    · subst hqp
      rw [update_self] at hq
      exact absurd hq (by simp)
    · rw [update_of_ne hqp] at hq
      obtain ⟨s, b, m, hh⟩ := hS.held hq
      refine ⟨s, b, m, hF.keeps hS.inv hh ?_⟩
      rintro rfl
      obtain ⟨f, hf, hfb⟩ := hh.covered
      obtain ⟨rfl, -⟩ := hS.inv.frame_unique hf (Tier.mem_frames (List.mem_of_getElem? he)) hfb hcov
      exact hqp (hh.ptr.trans huser)
  · refine ⟨U, ⟨hF.inv, fun {q h} hq => ?_⟩, hplain⟩
    have hq' : w.live q = some h := by
      simp only [World.release] at hq
      split_ifs at hq
      · by_cases hqp : q = p
        · subst hqp
          rw [update_self] at hq
          exact absurd hq (by simp)
        · rwa [update_of_ne hqp] at hq
      · exact hq
    obtain ⟨s, b, m, hh⟩ := hS.held hq'
    refine ⟨s, b, m, hF.keeps hS.inv hh ?_⟩
    rintro rfl
    rw [hh.active] at hU
    exact absurd hU (by simp)

/-- Frees name pointers that `push` returned before, live or not; writes name live ones. -/
def World.Repeating (w : World) : Op → Prop
  | .push _ gs => Mapped w.arena gs
  | .pop p _ _ => (w.home p).isSome = true
  | .tsPop p _ _ => (w.home p).isSome = true
  | .write p i _ => ((w.live p).any fun h => 32 * i + 32 ≤ h.len) = true
  | _ => False

instance (w : World) (op : Op) : Decidable (w.Repeating op) :=
  match op with
  | .push _ gs => inferInstanceAs (Decidable (Mapped w.arena gs))
  | .pop .. => inferInstanceAs (Decidable (_ = true))
  | .tsPop .. => inferInstanceAs (Decidable (_ = true))
  | .write .. => inferInstanceAs (Decidable (_ = true))
  | .launder .. => inferInstanceAs (Decidable False)
  | .resize .. => inferInstanceAs (Decidable False)
  | .freeze _ => inferInstanceAs (Decidable False)
  | .resetPage _ => inferInstanceAs (Decidable False)

def Op.Uncoalesced (cfg : Config) (a : Tiers) : Op → Prop
  | .pop p _ _ => Arena.Uncoalesced cfg a p
  | .tsPop p _ _ => Arena.Uncoalesced cfg a p
  | _ => True

instance (cfg : Config) (a : Tiers) (op : Op) : Decidable (op.Uncoalesced cfg a) :=
  match op with
  | .pop p _ _ => inferInstanceAs (Decidable (Arena.Uncoalesced cfg a p))
  | .tsPop p _ _ => inferInstanceAs (Decidable (Arena.Uncoalesced cfg a p))
  | .push .. => inferInstanceAs (Decidable True)
  | .launder .. => inferInstanceAs (Decidable True)
  | .resize .. => inferInstanceAs (Decidable True)
  | .freeze _ => inferInstanceAs (Decidable True)
  | .resetPage _ => inferInstanceAs (Decidable True)
  | .write .. => inferInstanceAs (Decidable True)

theorem Sound.step_repeating (hS : Sound cfg w U) (hplain : Untemporal U)
    (hdf : cfg.doubleFreeAborts = false) {op : Op} (hlegal : w.Repeating op)
    (hco : op.Uncoalesced cfg w.arena) (hok : Unrepeated cfg w.arena op) :
    Ends (w.step cfg op) fun w' => ∃ U', Sound cfg w' U' ∧ Untemporal U' := by
  cases op with
  | push sz gs =>
    apply (push_spec hS.inv cfg hlegal).bind
    rintro ⟨o, a⟩ hr
    cases o with
    | none =>
      obtain ⟨hI, hsame, hgrows⟩ := hr
      exact Ends.of_ok ⟨_, rfl, U, hS.idle hI (fun _ => hsame.parked.1) hgrows, hplain⟩
    | some u =>
      obtain ⟨c, U', rfl, hg⟩ := hr
      refine Ends.of_ok ⟨_, rfl, U', hS.receive hg (canaries_ofSize cfg sz) (by simp),
        fun b n hb => ?_⟩
      by_cases hbc : b = c.ptr
      · subst hbc
        obtain ⟨m, hm, -⟩ := hg.active
        rw [hb] at hm
        simp at hm
      · rw [hg.others b hbc] at hb
        exact hplain b n hb
  | pop p len intact =>
    apply (pop_any hS.inv hplain hdf hco hok).bind
    intro r hr
    refine Ends.of_ok ⟨_, rfl, ?_⟩
    rcases hr with ⟨h₁, rfl, h₂⟩ | hr
    · refine ⟨U, ⟨?_, fun {q h} hq => ?_⟩, hplain⟩
      · show Inv r.2 U
        rw [h₂]
        exact hS.inv
      · simp only [World.release, h₁, if_true] at hq ⊢
        rw [h₂]
        by_cases hq₀ : q = 0
        · subst hq₀
          rw [update_self] at hq
          exact absurd hq (by simp)
        · rw [update_of_ne hq₀] at hq
          exact hS.held hq
    · exact hS.settled hplain hr
  | tsPop p len intact =>
    apply (tsPop_any hS.inv hplain hdf hco hok).bind
    intro r hr
    exact Ends.of_ok ⟨_, rfl, hS.settled hplain hr⟩
  | write p i v =>
    obtain ⟨h, hlive, hi⟩ := Option.any_eq_true _ _ |>.1 hlegal
    obtain ⟨hI, hparked, hgrows⟩ := hS.stores v hlive (of_decide_eq_true hi)
    exact Ends.of_ok ⟨_, rfl, U, hS.idle hI hparked hgrows, hplain⟩
  | launder sz gs => exact hlegal.elim
  | resize p newSz data gs => exact hlegal.elim
  | freeze p => exact hlegal.elim
  | resetPage p => exact hlegal.elim

/-- What a free cache parks: blocks that their list has in use, each once, under a size that
they can hold. -/
def CacheIntegrity (a : Tiers) : Prop :=
  ∀ t, ((a t).cache.map Prod.fst).Nodup ∧ ∀ x ∈ (a t).cache, ∃ e ∈ (a t).idx,
    e.lo ≤ x.1 ∧ x.1 < e.hi ∧ t.starts e.sheet.book x.1 ∧
    t.params.book.isAllocated e.sheet.book x.1 = true ∧
    t.params.book.isTombstoned e.sheet.book x.1 = false ∧
    x.2 + 32 ≤ t.params.book.blockSize e.sheet.book x.1

theorem Inv.cacheIntegrity (hI : Inv a U) : CacheIntegrity a := by
  intro t
  refine ⟨(hI.tiers t).nodup, fun x hx => ?_⟩
  obtain ⟨⟨f, hf, hfx⟩, n, hU, hn⟩ := (hI.tiers t).cached x hx
  obtain ⟨i, e, hi, rfl⟩ := Tier.exists_entry hf
  obtain ⟨hal, -, hsize⟩ := (hI.tiers t).reports t.refines hi hfx hU
  simp only [Sheet.isBlockAllocated, Bool.and_eq_true, Bool.not_eq_true'] at hal
  obtain ⟨L, hL⟩ := (hI.tiers t).entry_holds hi
  obtain ⟨b, g, hb, hu, -, -⟩ := hL.used t.refines hfx hU
  refine ⟨e, List.mem_of_getElem? hi, hfx.1, hfx.2, ?_, hal.1, hal.2, by rw [hsize]; exact hn⟩
  rw [hb]
  exact t.starts_of_used hL.rep hu

/-- A client that frees pointers again. No such free finds a block that was coalesced away, and
none takes a parked block from under the cache. -/
def World.Rejects (cfg : Config) (w : World) (op : Op) : Prop :=
  w.Repeating op ∧ op.Uncoalesced cfg w.arena ∧ Unrepeated cfg w.arena op

instance (cfg : Config) (w : World) (op : Op) : Decidable (w.Rejects cfg op) :=
  inferInstanceAs (Decidable (_ ∧ _))

/-- The caches stay sound under repeated frees. -/
theorem cache_integrity {g₁ g₂ g₃ : Grant} (hg : Distinct g₁ g₂ g₃) (ha : start g₁ g₂ g₃ = some a)
    (hdf : cfg.doubleFreeAborts = false) {ops : List Op}
    (hrun : Run (World.Rejects cfg) (World.next cfg) (World.init a) ops w) :
    CacheIntegrity w.arena := by
  have hinv : ∃ U, Sound cfg w U ∧ Untemporal U := by
    apply hrun.invariant fun w => ∃ U, Sound cfg w U ∧ Untemporal U
    · rintro w op w' ⟨U, hS, hplain⟩ ⟨hlegal, hco, hok⟩ hstep
      exact (hS.step_repeating hplain hdf hlegal hco hok).ok (next_eq_some.1 hstep)
    · exact ⟨_, sound_init cfg hg ha, fun b n hb => absurd hb (by simp)⟩
  obtain ⟨U, hS, -⟩ := hinv
  exact hS.inv.cacheIntegrity

theorem cache_integrity_twice : ∃ a w,
    start (clearGrant 65536 8192) (clearGrant 131072 8192) (clearGrant 262144 65536) = some a ∧
    Run (World.Rejects ⟨false, false, true⟩) (World.next ⟨false, false, true⟩) (World.init a)
      [.push 100 [], .pop 65600 (some 100) true, .pop 65600 (some 100) true,
        .pop 65600 none true, .push 600 [], .tsPop 131136 none true, .tsPop 131136 none true,
        .pop 131136 (some 600) true] w ∧
    CacheIntegrity w.arena ∧ ((w.arena .precise).cache.map Prod.fst) = [65600] := by
  obtain ⟨a, w, ha, hrun, hend⟩ := exists_run ⟨false, false, true⟩
    (World.Rejects ⟨false, false, true⟩)
    (clearGrant 65536 8192) (clearGrant 131072 8192) (clearGrant 262144 65536)
    [.push 100 [], .pop 65600 (some 100) true, .pop 65600 (some 100) true,
      .pop 65600 none true, .push 600 [], .tsPop 131136 none true, .tsPop 131136 none true,
      .pop 131136 (some 600) true]
    (fun w => ((w.arena .precise).cache.map Prod.fst) = [65600]) (by decide +kernel)
  exact ⟨a, w, ha, hrun, cache_integrity (by decide) ha rfl hrun, of_decide_eq_true hend⟩

/-- `ts_pop` does not look into the cache: a parked block becomes a tombstone there. -/
theorem cache_tombstoned : ¬∀ (g₁ g₂ g₃ : Grant) (a : Tiers) (ops : List Op) (w : World),
    Distinct g₁ g₂ g₃ → start g₁ g₂ g₃ = some a →
    Run (fun w op => w.Repeating op ∧ op.Uncoalesced ⟨false, false, true⟩ w.arena)
      (World.next ⟨false, false, true⟩) (World.init a) ops w → CacheIntegrity w.arena := by
  intro hall
  obtain ⟨a, w, ha, hrun, hend⟩ := exists_run ⟨false, false, true⟩
    (fun w op => w.Repeating op ∧ op.Uncoalesced ⟨false, false, true⟩ w.arena)
    (clearGrant 65536 8192) (clearGrant 131072 8192) (clearGrant 262144 65536)
    [.push 100 [], .pop 65600 (some 100) true, .tsPop 65600 none true]
    (fun w => (w.arena .precise).cache.any (fun x => x.1 = 65600) &&
      (w.arena .precise).idx.all fun e =>
        TierId.precise.params.book.isTombstoned e.sheet.book 65600) (by decide +kernel)
  simp only [Bool.and_eq_true] at hend
  obtain ⟨x, hx, hx₁⟩ := List.any_eq_true.1 hend.1
  obtain ⟨-, hparked⟩ := hall _ _ _ a _ w (by decide) ha hrun .precise
  obtain ⟨e, he, -, -, -, -, hts, -⟩ := hparked x hx
  rw [of_decide_eq_true hx₁] at hts
  have htomb := List.all_eq_true.1 hend.2 e he
  rw [hts] at htomb
  exact absurd htomb (by decide)

end Runs
end AbcMalloc.Arena
