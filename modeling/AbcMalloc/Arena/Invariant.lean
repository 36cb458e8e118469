import AbcMalloc.Arena.Frees
import AbcMalloc.Arena.Lists
import AbcMalloc.Arena.Requests
import Mathlib.Data.List.TakeWhile

/-! The invariant of an arena: every tier holds its part of one map of active blocks, the
sheets of different tiers do not overlap, and every active block lies in a sheet. -/
namespace AbcMalloc.Arena
open Function Foundation

/-! ## Adding a sheet -/

section AddSheet
variable {σ : Type*} {T : Params σ} {Rep : σ → Ledger → Prop} {U : Active} {t t' : Tier σ}

theorem insertIdx_length {α : Type*} (l₁ l₂ : List α) (x : α) :
    (l₁ ++ l₂).insertIdx l₁.length x = l₁ ++ x :: l₂ := by
  induction l₁ with
  | nil => simp
  | cons y l₁ ih => simp [ih]

theorem Tier.registerSheet_split {e : Entry σ} (h : t.registerSheet T e = some t') :
    ∃ l₁ l₂, t.idx = l₁ ++ l₂ ∧ t'.idx = l₁ ++ e :: l₂ ∧ t'.cache = t.cache ∧ t'.built = t.built ∧
      (∀ x ∈ l₁, x.lo < e.lo) ∧ ∀ x, l₂.head? = some x → e.lo ≤ x.lo := by
  unfold registerSheet at h
  split_ifs at h
  obtain rfl := Option.some.inj h
  refine ⟨t.idx.takeWhile fun x => x.lo < e.lo, t.idx.dropWhile fun x => x.lo < e.lo,
    List.takeWhile_append_dropWhile.symm, ?_, rfl, rfl, fun x hx => ?_, fun x hx => ?_⟩
  · have := insertIdx_length (t.idx.takeWhile fun x => decide (x.lo < e.lo))
      (t.idx.dropWhile fun x => decide (x.lo < e.lo)) e
    rw [List.takeWhile_append_dropWhile] at this
    exact this
  · have hx := List.mem_takeWhile_imp hx
    simpa using hx
  · have := List.head?_dropWhile_not (fun x : Entry σ => decide (x.lo < e.lo)) t.idx
    rw [hx] at this
    simpa using this

def newFrame (c : Chunk) (head : Bool) (guard : ℕ) : Frame :=
  ⟨c.ptr, c.ptr + c.len - guard, head, c, guard⟩

theorem newFrame_good {c : Chunk} {guard : ℕ} (head : Bool) (hpos : 0 < c.ptr)
    (htop : c.ptr + c.len < 2 ^ 64) (hguard : guard < c.len) : (newFrame c head guard).Good := by
  refine ⟨hpos, ?_, rfl, ?_, htop⟩
  · show c.ptr < c.ptr + c.len - guard
    omega
  · show c.ptr + c.len - guard + guard = c.ptr + c.len
    omega

/-- A new frame at its position in a sorted row that it does not meet. -/
theorem Frame.pairwise_insert {f : Frame} {l₁ l₂ : List Frame} (hf : f.Good)
    (hgood : ∀ g ∈ l₁ ++ l₂, g.Good)
    (hsorted : (l₁ ++ l₂).Pairwise fun f g => f.stop ≤ g.lo) (hlow : ∀ g ∈ l₁, g.lo < f.lo)
    (hhigh : ∀ g, l₂.head? = some g → f.lo ≤ g.lo)
    (hdisj : ∀ g ∈ l₁ ++ l₂, g.stop ≤ f.lo ∨ f.stop ≤ g.lo) :
    (l₁ ++ f :: l₂).Pairwise fun f g => f.stop ≤ g.lo := by
  obtain ⟨hs₁, hs₂, hs₁₂⟩ := List.pairwise_append.1 hsorted
  rw [List.pairwise_append, List.pairwise_cons]
  refine ⟨hs₁, ⟨fun g hg => ?_, hs₂⟩, fun g hg g' hg' => ?_⟩
  · -- frames above the new one start where the first of them starts, or later
    have hgmem : g ∈ l₁ ++ l₂ := List.mem_append_right _ hg
    have hge : f.lo ≤ g.lo := by
      cases l₂ with
      | nil => exact absurd hg List.not_mem_nil
      | cons x l₂ =>
        have hx : f.lo ≤ x.lo := hhigh x rfl
        rcases List.mem_cons.1 hg with rfl | hg
        · exact hx
        · have h₁ := (List.pairwise_cons.1 hs₂).1 g hg
          have hxg := hgood x (by simp)
          have h₂ := hxg.hi_le
          have h₃ := hxg.lt
          omega
    have h₁ := (hgood g hgmem).lt
    have h₂ := (hgood g hgmem).hi_le
    rcases hdisj g hgmem with h₃ | h₃ <;> omega
  · rcases List.mem_cons.1 hg' with rfl | hg'
    · have hlt := hlow g hg
      have h₁ := hf.lt
      have h₂ := hf.hi_le
      rcases hdisj g (List.mem_append_left _ hg) with h₃ | h₃ <;> omega
    · exact hs₁₂ g hg g' hg'

theorem Tier.frames_addSheet {c : Chunk} {guard : ℕ} {head : Bool} {m : Mem} {tags : ℕ → ℕ}
    (hadd : t.addSheet T head guard m tags c = some t') :
    ∃ l₁ l₂, t.frames = l₁ ++ l₂ ∧ t'.frames = l₁ ++ newFrame c head guard :: l₂ ∧
      (∀ f ∈ l₁, f.lo < c.ptr) ∧ ∀ f, l₂.head? = some f → c.ptr ≤ f.lo := by
  obtain ⟨l₁, l₂, hsplit, hidx, -, -, hlow, hhigh⟩ := registerSheet_split hadd
  refine ⟨l₁.map Entry.frame, l₂.map Entry.frame, ?_, ?_, ?_, ?_⟩
  · rw [← List.map_append, ← hsplit]
    rfl
  · unfold Tier.frames
    rw [hidx, List.map_append, List.map_cons]
    rfl
  · intro f hf
    obtain ⟨e, he, rfl⟩ := List.mem_map.1 hf
    exact hlow e he
  · intro f hf
    rw [List.head?_map, Option.map_eq_some_iff] at hf
    obtain ⟨e, he, rfl⟩ := hf
    exact hhigh e he

theorem Tier.newEntry_holds (hF : TierId.Formats T Rep) {c : Chunk} {guard : ℕ} {head : Bool}
    {m : Mem} {tags : ℕ → ℕ} (hpos : 0 < c.ptr) (htop : c.ptr + c.len < 2 ^ 64)
    (hguard : guard < c.len)
    (hheader : T.book.header ≤ c.len - guard)
    (hU : ∀ p, (newFrame c head guard).Covers p → U p = none) :
    ∃ L, (newEntry T head guard m tags c).Holds T Rep U L := by
  obtain ⟨L, hrep, hV, hlo, hhi⟩ := hF m tags ⟨c.ptr, c.len - guard⟩ hpos
    (by show c.ptr + (c.len - guard) < 2 ^ 64; omega) hheader
  refine ⟨L, hrep, hV.balanced, hlo, ?_, fun p hp => ?_, fun b hb => absurd hb (hV.ring b)⟩
  · show L.hi + T.book.header ≤ c.ptr + c.len - guard
    have hhi : L.hi + T.book.header ≤ c.ptr + (c.len - guard) := hhi
    omega
  · rw [hU p hp]
    unfold activeOf
    rw [hV.used]
    rfl

theorem Tier.Inv.addSheet (hF : TierId.Formats T Rep) (h : t.Inv T Rep U) {c : Chunk} {guard : ℕ}
    {head : Bool} {m : Mem} {tags : ℕ → ℕ}
    (hpos : 0 < c.ptr) (htop : c.ptr + c.len < 2 ^ 64) (hguard : guard < c.len)
    (hheader : T.book.header ≤ c.len - guard)
    (hdisj : ∀ f ∈ t.frames, f.stop ≤ c.ptr ∨ c.ptr + c.len ≤ f.lo)
    (hU : ∀ p, (newFrame c head guard).Covers p → U p = none)
    (hadd : t.addSheet T head guard m tags c = some t') :
    t'.Inv T Rep U ∧ t'.cache = t.cache ∧
      ∀ f, f ∈ t'.frames ↔ f = newFrame c head guard ∨ f ∈ t.frames := by
  obtain ⟨l₁, l₂, hsplit, hidx, hcache, -, -, -⟩ := registerSheet_split hadd
  have hsplit : t.idx = l₁ ++ l₂ := hsplit
  have hcache : t'.cache = t.cache := hcache
  obtain ⟨k₁, k₂, hold, hnew, hlow, hhigh⟩ := frames_addSheet hadd
  have hmem : ∀ f, f ∈ t'.frames ↔ f = newFrame c head guard ∨ f ∈ t.frames := by
    intro f
    rw [hnew, hold]
    simp only [List.mem_append, List.mem_cons]
    tauto
  refine ⟨⟨?_, ?_, ?_, ?_, ?_, ?_⟩, hcache, hmem⟩
  · intro f hf
    rcases (hmem f).1 hf with rfl | hf
    · exact newFrame_good head hpos htop hguard
    · exact h.good f hf
  · rw [hnew]
    exact Frame.pairwise_insert (newFrame_good head hpos htop hguard) (hold ▸ h.good)
      (hold ▸ h.sorted) hlow hhigh (hold ▸ hdisj)
  · intro x hx
    rw [hidx] at hx
    rcases List.mem_append.1 hx with hx | hx
    · exact h.sheets x (by rw [hsplit]; exact List.mem_append_left _ hx)
    rcases List.mem_cons.1 hx with rfl | hx
    · exact Tier.newEntry_holds hF hpos htop hguard hheader hU
    · exact h.sheets x (by rw [hsplit]; exact List.mem_append_right _ hx)
  · rw [hcache]
    intro x hx
    obtain ⟨⟨f, hf, hp⟩, hrest⟩ := h.cached x hx
    exact ⟨⟨f, (hmem f).2 (Or.inr hf), hp⟩, hrest⟩
  · rw [hcache]
    exact h.nodup
  · rw [hcache]
    exact h.room

end AddSheet

/-! ## Arenas -/

structure Inv (a : Tiers) (U : Active) : Prop where
  tiers : ∀ t, (a t).Inv t.params t.Rep U
  apart : ∀ {t s}, t ≠ s → ∀ f ∈ (a t).frames, ∀ g ∈ (a s).frames, f.stop ≤ g.lo ∨ g.stop ≤ f.lo
  covered : ∀ {p v}, U p = some v → ∃ t, ∃ f ∈ (a t).frames, f.Covers p

def Parked (a : Tiers) (p : ℕ) : Prop := ∃ t, ∃ x ∈ (a t).cache, x.1 = p

section Arenas
variable {a a' : Tiers} {U U' : Active} {t s : TierId} {p q i : ℕ}

theorem Inv.tier_unique (h : Inv a U) {f g : Frame} (hf : f ∈ (a t).frames) (hg : g ∈ (a s).frames)
    (hp : f.Covers p) (hq : g.Covers p) : t = s := by
  by_contra hts
  have h₁ := (h.tiers t).good f hf
  have h₂ := (h.tiers s).good g hg
  have h₃ := h₁.hi_le
  have h₄ := h₂.hi_le
  have h₅ : f.lo ≤ p ∧ p < f.hi := hp
  have h₆ : g.lo ≤ p ∧ p < g.hi := hq
  rcases h.apart hts f hf g hg with h₇ | h₇ <;> omega

/-- The dispatch finds the one sheet that covers an address. -/
theorem Inv.dispatch_eq_some (h : Inv a U) :
    dispatch a p = some (t, i) ↔ ∃ e, (a t).idx[i]? = some e ∧ e.frame.Covers p := by
  have hsound : ∀ {r : TierId × ℕ}, dispatch a p = some r →
      ∃ e, (a r.1).idx[r.2]? = some e ∧ e.frame.Covers p := by
    intro r hr
    obtain ⟨s, -, hs⟩ := List.exists_of_findSome?_eq_some hr
    obtain ⟨j, hj, rfl⟩ := Option.map_eq_some_iff.1 hs
    exact ((h.tiers s).findRange_eq_some).1 hj
  constructor
  · exact hsound
  · rintro ⟨e, he, hp⟩
    have hsome : (dispatch a p).isSome := by
      unfold dispatch
      rw [List.findSome?_isSome_iff]
      refine ⟨t, t.mem_all, ?_⟩
      rw [Option.isSome_map, (h.tiers t).findRange_isSome]
      exact ⟨_, Tier.mem_frames (List.mem_of_getElem? he), hp⟩
    obtain ⟨⟨s, j⟩, hr⟩ := Option.isSome_iff_exists.1 hsome
    obtain ⟨e', he', hp'⟩ := hsound hr
    obtain rfl : s = t := h.tier_unique (Tier.mem_frames (List.mem_of_getElem? he'))
      (Tier.mem_frames (List.mem_of_getElem? he)) hp' hp
    obtain rfl : j = i := (h.tiers s).unique he' he hp' hp
    exact hr

theorem Inv.locate (h : Inv a U) {v : ℕ × Bool} (hp : U p = some v) :
    ∃ t i e, dispatch a p = some (t, i) ∧ (a t).idx[i]? = some e ∧ e.frame.Covers p := by
  obtain ⟨t, f, hf, hcov⟩ := h.covered hp
  obtain ⟨i, e, he, rfl⟩ := Tier.exists_entry hf
  exact ⟨t, i, e, h.dispatch_eq_some.2 ⟨e, he, hcov⟩, he, hcov⟩

/-- One tier changes, without new sheets. -/
theorem Inv.set (h : Inv a U) {x : Tier t.Heap} (hx : x.Inv t.params t.Rep U')
    (hf : ∀ f ∈ x.frames, f ∈ (a t).frames)
    (hU : ∀ p, U' p ≠ U p → ∃ f ∈ (a t).frames, f.Covers p)
    (hcov : ∀ f ∈ (a t).frames, ∀ p, f.Covers p → U' p ≠ none → f ∈ x.frames) :
    Inv (update a t x) U' := by
  have hsub : ∀ s, ∀ f ∈ (update a t x s).frames, f ∈ (a s).frames := by
    intro s f hfs
    by_cases hs : s = t
    · subst hs
      rw [update_self] at hfs
      exact hf f hfs
    · rwa [update_of_ne hs] at hfs
  constructor
  · intro s
    by_cases hs : s = t
    · subst hs
      rw [update_self]
      exact hx
    · rw [update_of_ne hs]
      apply (h.tiers s).agree s.refines
      intro f hfs p hp
      by_contra hne
      obtain ⟨g, hg, hgp⟩ := hU p hne
      exact hs (h.tier_unique hfs hg hp hgp)
  · intro s s' hss f hfs g hgs
    exact h.apart hss f (hsub s f hfs) g (hsub s' g hgs)
  · intro p v hp
    have hold : ∃ s, ∃ f ∈ (a s).frames, f.Covers p := by
      by_cases he : U' p = U p
      · exact h.covered (he ▸ hp)
      · exact ⟨t, hU p he⟩
    obtain ⟨s, f, hfs, hfp⟩ := hold
    by_cases hs : s = t
    · subst hs
      refine ⟨s, f, ?_, hfp⟩
      rw [update_self]
      exact hcov f hfs p hfp (by simp [hp])
    · exact ⟨s, f, by rw [update_of_ne hs]; exact hfs, hfp⟩

/-- Two active blocks do not overlap, whatever their tiers. -/
theorem Inv.blocks_disjoint (h : Inv a U) {n m : ℕ} {k k' : Bool} (hp : U p = some (n, k))
    (hq : U q = some (m, k')) (hne : p ≠ q) : p + n ≤ q ∨ q + m ≤ p := by
  obtain ⟨t, i, e, -, he, hcov⟩ := h.locate hp
  obtain ⟨s, j, e', -, he', hcov'⟩ := h.locate hq
  obtain ⟨L, hL⟩ := (h.tiers t).entry_holds he
  obtain ⟨L', hL'⟩ := (h.tiers s).entry_holds he'
  have h₁ := hL.whole t.refines hcov hp
  have h₂ := hL'.whole s.refines hcov' hq
  have h₃ : e.lo ≤ p := hcov.1
  have h₄ : e'.lo ≤ q := hcov'.1
  have h₅ : e.hi ≤ e.frame.stop := ((h.tiers t).entry_good he).hi_le
  have h₆ : e'.hi ≤ e'.frame.stop := ((h.tiers s).entry_good he').hi_le
  by_cases hts : t = s
  · subst hts
    rcases lt_trichotomy i j with hij | rfl | hij
    · have := (h.tiers t).order he he' hij
      omega
    · rw [he] at he'
      obtain rfl := Option.some.inj he'
      exact hL.apart t.refines hcov hp hcov' hq hne
    · have := (h.tiers t).order he' he hij
      omega
  · have h₇ : e.frame.stop ≤ e'.lo ∨ e'.frame.stop ≤ e.lo := h.apart hts _
      (Tier.mem_frames (List.mem_of_getElem? he)) _ (Tier.mem_frames (List.mem_of_getElem? he'))
    omega

theorem Inv.blocks_apart (h : Inv a U) {n m : ℕ} {k k' : Bool} (hp : U p = some (n, k))
    (hq : U q = some (m, k')) (hne : p ≠ q) : p + (n - 32) ≤ q ∨ q + (m - 32) ≤ p := by
  rcases h.blocks_disjoint hp hq hne with h₁ | h₁ <;> omega

/-- The data of every list stays clear of every active block. -/
theorem Inv.metadata_apart (h : Inv a U) {n : ℕ} {k : Bool} (hp : U p = some (n, k)) {j : ℕ}
    {e : Entry s.Heap} (he : (a s).idx[j]? = some e) :
    ∀ r ∈ s.params.metadata e.sheet.mem e.sheet.book, r.1 + r.2 ≤ p ∨ p + (n - 32) ≤ r.1 := by
  intro r hr
  obtain ⟨L, hL⟩ := (h.tiers s).entry_holds he
  have hptr : e.sheet.mem.ptr = e.lo := ((h.tiers s).entry_good he).ptr
  have hhi : e.hi ≤ e.frame.stop := ((h.tiers s).entry_good he).hi_le
  obtain ⟨h₁, h₂, h₃⟩ := s.keeps e.sheet.mem e.sheet.book L hL.rep
    (by rw [hptr]; exact hL.lo_le) r hr
  have h₄ := hL.le_hi
  obtain ⟨t, i, e', -, he', hcov⟩ := h.locate hp
  obtain ⟨L', hL'⟩ := (h.tiers t).entry_holds he'
  have h₅ := hL'.extent t.refines hcov hp
  have h₆ : e'.lo ≤ p := hcov.1
  have h₇ : e'.hi ≤ e'.frame.stop := ((h.tiers t).entry_good he').hi_le
  by_cases hts : t = s
  · subst hts
    rcases lt_trichotomy i j with hij | rfl | hij
    · have := (h.tiers t).order he' he hij
      omega
    · rw [he] at he'
      obtain rfl := Option.some.inj he'
      obtain ⟨b, f, rfl, hb, -, -⟩ := hL.used t.refines hcov hp
      exact h₃ hb
    · have := (h.tiers t).order he he' hij
      omega
  · have h₈ : e'.frame.stop ≤ e.lo ∨ e.frame.stop ≤ e'.lo := h.apart hts _
      (Tier.mem_frames (List.mem_of_getElem? he')) _ (Tier.mem_frames (List.mem_of_getElem? he))
    omega

end Arenas
end AbcMalloc.Arena
