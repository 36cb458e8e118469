import AbcMalloc.Arena.Invariant

/-! What the functions of an arena do to its invariant. -/
namespace AbcMalloc.Arena
open Function Foundation

/-! ## Kernel mappings -/

def Apart (c d : Chunk) : Prop := c.ptr + c.len ≤ d.ptr ∨ d.ptr + d.len ≤ c.ptr

instance (c d : Chunk) : Decidable (Apart c d) := inferInstanceAs (Decidable (_ ∨ _))

/-- A mapping is larger than a guard page and lies inside the address space. -/
def Grant.Valid (g : Grant) : Prop :=
  0 < g.chunk.ptr ∧ 4096 < g.chunk.len ∧ g.chunk.ptr + g.chunk.len < 2 ^ 64

instance (g : Grant) : Decidable g.Valid := inferInstanceAs (Decidable (_ ∧ _))

/-- The kernel hands out memory that no sheet holds. -/
def Grant.Fresh (a : Tiers) (g : Grant) : Prop :=
  ∀ t ∈ TierId.all, ∀ e ∈ (a t).idx, Apart g.chunk e.sheet.mem

instance (a : Tiers) (g : Grant) : Decidable (g.Fresh a) :=
  inferInstanceAs (Decidable (∀ t ∈ TierId.all, ∀ e ∈ (a t).idx, Apart g.chunk e.sheet.mem))

/-- The mappings made while one request is served. -/
def Mapped (a : Tiers) (gs : List Grant) : Prop :=
  (∀ g ∈ gs, g.Valid ∧ g.Fresh a) ∧ gs.Pairwise fun g g' => Apart g.chunk g'.chunk

instance (a : Tiers) (gs : List Grant) : Decidable (Mapped a gs) :=
  inferInstanceAs (Decidable (_ ∧ _))

/-! ## Calls that may abort -/

/-- A call aborts or returns a result with the property `P`; it is never undefined. -/
def Ends {α : Type} (x : Except Halt α) (P : α → Prop) : Prop :=
  x = .error .abort ∨ ∃ r, x = .ok r ∧ P r

theorem Ends.bind {α β : Type} {x : Except Halt α} {f : α → Except Halt β} {P : α → Prop}
    {Q : β → Prop} (h : Ends x P) (hf : ∀ r, P r → Ends (f r) Q) : Ends (x >>= f) Q := by
  rcases h with rfl | ⟨r, rfl, hr⟩
  · exact Or.inl rfl
  · exact hf r hr

theorem Ends.of_ok {α : Type} {x : Except Halt α} {P : α → Prop} (h : ∃ r, x = .ok r ∧ P r) :
    Ends x P := Or.inr h

theorem Ends.ok {α : Type} {x : Except Halt α} {P : α → Prop} {r : α} (h : Ends x P)
    (hr : x = .ok r) : P r := by
  subst hr
  rcases h with h | ⟨r', h, hP⟩
  · exact absurd h (by simp)
  · obtain rfl := Except.ok.inj h
    exact hP

theorem Ends.mono {α : Type} {x : Except Halt α} {P Q : α → Prop} (h : Ends x P)
    (hPQ : ∀ r, P r → Q r) : Ends x Q := by
  rcases h with h | ⟨r, h, hr⟩
  · exact Or.inl h
  · exact Or.inr ⟨r, h, hPQ r hr⟩

section Requests
variable {cfg : Config} {a a' a'' : Tiers} {U U' : Active} {t : TierId} {sz p q : ℕ}
  {temporal : Bool} {c : Chunk}

def SameCaches (a a' : Tiers) : Prop := ∀ t, (a' t).cache = (a t).cache

theorem SameCaches.parked (h : SameCaches a a') : Parked a' q ↔ Parked a q := by
  unfold Parked
  simp only [h _]

def Grows (a a' : Tiers) : Prop := ∀ t, ∀ f ∈ (a t).frames, f ∈ (a' t).frames

theorem Grows.refl (a : Tiers) : Grows a a := fun _ _ hf => hf

theorem Grows.trans (h : Grows a a') (h' : Grows a' a'') : Grows a a'' := fun t f hf =>
  h' t f (h t f hf)

theorem Grows.of_frames (h : ∀ t, (a' t).frames = (a t).frames) : Grows a a' := fun t f hf => by
  rw [h]
  exact hf

/-- A chunk `c` handed out for a request of `sz` bytes that the tier `t` serves. -/
structure Given (a : Tiers) (U : Active) (temporal : Bool) (t : TierId) (sz : ℕ) (c : Chunk)
    (a' : Tiers) (U' : Active) : Prop where
  ptr : c.ptr ≠ 0
  inv : Inv a' U'
  active : ∃ n, U' c.ptr = some (n, temporal) ∧ c.len + 32 ≤ n
  others : ∀ q, q ≠ c.ptr → U' q = U q
  before : U c.ptr = none ∨ (temporal = true ∧ U' = U) ∨
    (temporal = false ∧ U' = U ∧ Parked a c.ptr)
  parked : ∀ q, Parked a' q ↔ Parked a q ∧ q ≠ c.ptr
  enough : temporal = false → sz ≤ c.len
  grows : Grows a a'
  home : (∃ x ∈ (a t).cache, x.1 = c.ptr) ∨
    ∃ e, (a' t).idx[(a' t).lastHit]? = some e ∧ e.frame.Covers c.ptr

theorem Given.mono (h : Given a U temporal t sz c a' U') {v : ℕ × Bool} (hq : U q = some v) :
    U' q = some v := by
  by_cases hqc : q = c.ptr
  · subst hqc
    rcases h.before with hb | ⟨-, hb⟩ | ⟨-, hb, -⟩
    · rw [hb] at hq
      exact absurd hq (by simp)
    · rw [hb, hq]
    · rw [hb, hq]
  · rw [h.others q hqc, hq]

/-- The outcome of one attempt: a chunk, or nothing and only bookkeeping has changed. -/
def Attempted (a : Tiers) (U : Active) (temporal : Bool) (t : TierId) (sz : ℕ) (c : Chunk)
    (a' : Tiers) : Prop :=
  (c.ptr = 0 ∧ Inv a' U ∧ SameCaches a a' ∧ ∀ t, (a' t).frames = (a t).frames) ∨
    ∃ U', Given a U temporal t sz c a' U'

theorem frames_update {t : TierId} {x : Tier t.Heap} (h : x.frames = (a t).frames) (s : TierId) :
    (update a t x s).frames = (a s).frames := by
  by_cases hs : s = t
  · subst hs
    rw [update_self, h]
  · rw [update_of_ne hs]

theorem sameCaches_update {t : TierId} {x : Tier t.Heap} (h : x.cache = (a t).cache) :
    SameCaches a (update a t x) := by
  intro s
  by_cases hs : s = t
  · subst hs
    rw [update_self, h]
  · rw [update_of_ne hs]

/-- An allocation from the sheets of one tier, seen from the arena. -/
theorem Inv.allocs (h : Inv a U) {x : Tier t.Heap}
    (hA : Tier.Allocs t.params t.Rep U (a t) temporal sz c x) :
    Attempted a U temporal t sz c (update a t x) := by
  have hkeep : ∀ f ∈ (a t).frames, f ∈ x.frames := fun f hf => by rw [hA.frames]; exact hf
  have hsub : ∀ f ∈ x.frames, f ∈ (a t).frames := fun f hf => by rw [← hA.frames]; exact hf
  rcases hA.outcome with ⟨rfl, hI⟩ | ⟨n, U', hS⟩
  · refine Or.inl ⟨rfl, h.set hI hsub (fun p hp => absurd rfl hp) fun f hf _ _ _ => hkeep f hf,
      sameCaches_update hA.cache, frames_update hA.frames⟩
  · obtain ⟨e, he, hcov⟩ := hS.home
    have hmem : e.frame ∈ (a t).frames := hsub _ (Tier.mem_frames (List.mem_of_getElem? he))
    have hI : Inv (update a t x) U' := by
      apply h.set hS.inv hsub
      · intro p hp
        by_cases hpc : p = c.ptr
        · subst hpc
          exact ⟨e.frame, hmem, hcov⟩
        · exact absurd (hS.serves.of_ne hpc) hp
      · exact fun f hf _ _ _ => hkeep f hf
    have hn : 32 ≤ n := by
      obtain ⟨L, hL⟩ := hS.inv.entry_holds he
      exact (hL.extent t.refines hcov hS.serves.at).1
    have hnot : ¬Parked a c.ptr := by
      rintro ⟨s, y, hy, hyp⟩
      obtain ⟨-, m, hm, -⟩ := (h.tiers s).cached y hy
      rw [hyp] at hm
      rcases hS.serves with ⟨h₁, -⟩ | ⟨-, h₁, -⟩ <;> rw [h₁] at hm <;> exact absurd hm (by simp)
    refine Or.inr ⟨U', hS.ptr, hI, ⟨n, hS.serves.at, ?_⟩, fun q hq => hS.serves.of_ne hq, ?_,
      fun q => ?_, fun htf => ?_, .of_frames (frames_update hA.frames), Or.inr ?_⟩
    · rw [hS.len]
      omega
    · rcases hS.serves with ⟨h₁, -⟩ | ⟨h₁, -, h₂⟩
      · exact Or.inl h₁
      · exact Or.inr (Or.inl ⟨h₁, h₂⟩)
    · rw [(sameCaches_update hA.cache).parked]
      constructor
      · intro hq
        refine ⟨hq, ?_⟩
        rintro rfl
        exact hnot hq
      · exact fun hq => hq.1
    · have := hS.enough htf
      rw [hS.len]
      omega
    · rw [update_self]
      exact ⟨e, he, hcov⟩

/-- A tier whose cache is in use serves requests below four gigabytes. -/
theorem ofSize_lt {x : ℕ × ℕ} (h : Inv a U) (hx : x ∈ (a (.ofSize sz)).cache) : sz < 2 ^ 32 := by
  by_contra hge
  have hhuge : TierId.ofSize sz = .huge := by
    unfold TierId.ofSize
    rw [if_neg (by omega), if_neg (by omega), if_neg (by omega), if_neg (by omega)]
  rw [hhuge] at hx
  have hroom : (a .huge).cache.length ≤ 0 := (h.tiers .huge).room
  rw [List.eq_nil_of_length_eq_zero (Nat.le_zero.1 hroom)] at hx
  exact absurd hx List.not_mem_nil

theorem Inv.unparks (h : Inv a U) {x : Tier (TierId.ofSize sz).Heap} (hc : c.ptr ≠ 0)
    (hu : Tier.Unparks U (a (.ofSize sz)) (Tier.cacheFit cfg sz) c x)
    (hI : x.Inv (TierId.params _) (TierId.Rep _) U) :
    Given a U false (.ofSize sz) sz c (update a (.ofSize sz) x) U := by
  obtain ⟨n, hn, hlen⟩ := hu.active
  have hmem : (c.ptr, c.len) ∈ (a (.ofSize sz)).cache := hu.rest.subset List.mem_cons_self
  have hpark : Parked a c.ptr := ⟨_, _, hmem, rfl⟩
  have hidx : x.idx = (a (.ofSize sz)).idx := by rw [hu.same]
  have hframes : x.frames = (a (.ofSize sz)).frames := by rw [Tier.frames, hidx, Tier.frames]
  have hnd : (((c.ptr, c.len) :: x.cache).map Prod.fst).Nodup :=
    (hu.rest.map _).nodup_iff.2 (h.tiers _).nodup
  rw [List.map_cons, List.nodup_cons] at hnd
  refine ⟨hc, ?_, ⟨n, hn, hlen⟩, fun _ _ => rfl, Or.inr (Or.inr ⟨rfl, rfl, hpark⟩), fun q => ?_,
    fun _ => ?_,
    .of_frames (frames_update hframes), Or.inl ⟨_, hmem, rfl⟩⟩
  · apply h.set hI
    · intro f hf
      rwa [hframes] at hf
    · exact fun p hp => absurd rfl hp
    · intro f hf _ _ _
      rwa [hframes]
  · constructor
    · rintro ⟨s, y, hy, rfl⟩
      by_cases hs : s = .ofSize sz
      · subst hs
        rw [update_self] at hy
        refine ⟨⟨_, y, hu.rest.subset (List.mem_cons_of_mem _ hy), rfl⟩, fun he => hnd.1 ?_⟩
        have : c.ptr ∈ x.cache.map Prod.fst := by
          rw [← he]
          exact List.mem_map_of_mem hy
        exact this
      · rw [update_of_ne hs] at hy
        refine ⟨⟨s, y, hy, rfl⟩, fun he => hs ?_⟩
        obtain ⟨⟨f, hf, hfp⟩, -⟩ := (h.tiers s).cached y hy
        obtain ⟨⟨g, hg, hgp⟩, -⟩ := (h.tiers _).cached _ hmem
        rw [he] at hfp
        exact h.tier_unique hf hg hfp hgp
    · rintro ⟨⟨s, y, hy, rfl⟩, hne⟩
      by_cases hs : s = .ofSize sz
      · subst hs
        refine ⟨.ofSize sz, y, ?_, rfl⟩
        rw [update_self]
        rcases List.mem_cons.1 (hu.rest.symm.subset hy) with rfl | hy
        · exact absurd rfl hne
        · exact hy
      · exact ⟨s, y, by rw [update_of_ne hs]; exact hy, rfl⟩
  · have hlt := ofSize_lt h hmem
    have hfit := hu.fits
    unfold Tier.cacheFit at hfit
    rw [Nat.mod_eq_of_lt hlt] at hfit
    split_ifs at hfit
    · exact (of_decide_eq_true hfit).ge
    · exact of_decide_eq_true hfit

theorem vmapAlloc_spec (h : Inv a U) (cfg : Config) (sz : ℕ) :
    ∃ c a', vmapAlloc cfg a sz = .ok (c, a') ∧ Attempted a U false (.ofSize sz) sz c a' := by
  obtain ⟨c, x, hrun, hA | ⟨hc, hu, hI⟩⟩ := Tier.cachePopOrInsert_spec (TierId.refines (.ofSize sz))
    (TierId.fits_ofSize sz) (h.tiers (.ofSize sz)) cfg
  · refine ⟨c, update a _ x, ?_, h.allocs hA⟩
    simp [vmapAlloc, onTier, hrun, bind, Except.bind]
  · refine ⟨c, update a _ x, ?_, Or.inr ⟨U, h.unparks hc hu hI⟩⟩
    simp [vmapAlloc, onTier, hrun, bind, Except.bind]

theorem vmapLaunder_spec (h : Inv a U) (sz : ℕ) :
    ∃ c a', vmapLaunder a sz = .ok (c, a') ∧ Attempted a U true (.ofLaunder sz) sz c a' := by
  obtain ⟨c, x, hrun, hA⟩ := Tier.bucketInsert_spec true (TierId.refines (.ofLaunder sz))
    (TierId.fits_ofLaunder sz) (h.tiers (.ofLaunder sz))
  refine ⟨c, update a _ x, ?_, h.allocs hA⟩
  simp [vmapLaunder, onTier, hrun, bind, Except.bind]

/-! ### Expansion -/

theorem Grant.fresh_iff {g : Grant} :
    g.Fresh a ↔ ∀ t, ∀ f ∈ (a t).frames, Apart g.chunk f.mem := by
  constructor
  · intro h t f hf
    obtain ⟨e, he, rfl⟩ := List.mem_map.1 hf
    exact h t t.mem_all e he
  · intro h t _ e he
    exact h t _ (Tier.mem_frames he)

theorem Mapped.congr {gs : List Grant} (h : Mapped a gs) (hf : ∀ t, (a' t).frames = (a t).frames) :
    Mapped a' gs := by
  refine ⟨fun g hg => ⟨(h.1 g hg).1, ?_⟩, h.2⟩
  have := Grant.fresh_iff.1 (h.1 g hg).2
  rw [Grant.fresh_iff]
  intro t f hft
  rw [hf] at hft
  exact this t f hft

theorem Mapped.tail {gs : List Grant} (h : Mapped a gs) : Mapped a gs.tail :=
  ⟨fun g hg => h.1 g (List.mem_of_mem_tail hg), h.2.sublist (List.tail_sublist gs)⟩

/-- The guard page of a list with headers in front is empty. -/
theorem header_le_guard (t : TierId) {len guard : ℕ} (hlen : 4096 < len)
    (hguard : guard = 0 ∨ guard = t.params.guard) :
    guard < len ∧ t.params.book.header ≤ len - guard := by
  have htable : t.params.book.header = 32 ∧ t.params.guard = 0 ∨
      t.params.book.header = 0 ∧ t.params.guard = 4096 := by
    cases t
    · exact Or.inl ⟨rfl, rfl⟩
    · exact Or.inl ⟨rfl, rfl⟩
    · exact Or.inr ⟨rfl, rfl⟩
    · exact Or.inr ⟨rfl, rfl⟩
    · exact Or.inr ⟨rfl, rfl⟩
  rcases htable with ⟨h₁, h₂⟩ | ⟨h₁, h₂⟩ <;> omega

theorem Inv.addSheet (h : Inv a U) {g : Grant} (hg : g.Valid) (hf : g.Fresh a) {head : Bool}
    {guard : ℕ} (hguard : guard = 0 ∨ guard = t.params.guard) {x : Tier t.Heap}
    (hadd : (a t).addSheet t.params head guard g.mem g.tags g.chunk = some x) :
    Inv (update a t x) U ∧ SameCaches a (update a t x) ∧ Grows a (update a t x) ∧
      ∀ g' : Grant, g'.Fresh a → Apart g.chunk g'.chunk → g'.Fresh (update a t x) := by
  obtain ⟨hpos, hlen, htop⟩ := hg
  have hfresh := Grant.fresh_iff.1 hf
  obtain ⟨hlt, hheader⟩ := header_le_guard t hlen hguard
  have hdisj : ∀ s, ∀ f ∈ (a s).frames, f.stop ≤ g.chunk.ptr ∨
    g.chunk.ptr + g.chunk.len ≤ f.lo := by
    intro s f hfs
    have h₁ : _ ∨ _ := hfresh s f hfs
    have h₂ := ((h.tiers s).good f hfs).ptr
    unfold Frame.stop
    omega
  have hnone : ∀ p, (newFrame g.chunk head guard).Covers p → U p = none := by
    intro p hp
    by_contra hne
    obtain ⟨v, hv⟩ := Option.ne_none_iff_exists'.1 hne
    obtain ⟨s, f, hfs, hfp⟩ := h.covered hv
    have h₁ : g.chunk.ptr ≤ p ∧ p < g.chunk.ptr + g.chunk.len - guard := hp
    have h₂ : f.lo ≤ p ∧ p < f.hi := hfp
    have h₃ := ((h.tiers s).good f hfs).hi_le
    rcases hdisj s f hfs with h₄ | h₄ <;> omega
  obtain ⟨hI, hcache, hmem⟩ :=
    (h.tiers t).addSheet t.formats hpos htop hlt hheader (hdisj t) hnone hadd
  have hframes : ∀ s f, f ∈ (update a t x s).frames →
      f ∈ (a s).frames ∨ s = t ∧ f = newFrame g.chunk head guard := by
    intro s f hfs
    by_cases hs : s = t
    · subst hs
      rw [update_self] at hfs
      rcases (hmem f).1 hfs with hf | hf
      · exact Or.inr ⟨rfl, hf⟩
      · exact Or.inl hf
    · rw [update_of_ne hs] at hfs
      exact Or.inl hfs
  have hstop : (newFrame g.chunk head guard).stop = g.chunk.ptr + g.chunk.len := rfl
  have hlo : (newFrame g.chunk head guard).lo = g.chunk.ptr := rfl
  have hgrows : Grows a (update a t x) := by
    intro s f hfs
    by_cases hs : s = t
    · subst hs
      rw [update_self]
      exact (hmem f).2 (Or.inr hfs)
    · rwa [update_of_ne hs]
  refine ⟨⟨fun s => ?_, ?_, ?_⟩, sameCaches_update hcache, hgrows, fun g' hg' hapart => ?_⟩
  · by_cases hs : s = t
    · subst hs
      rw [update_self]
      exact hI
    · rw [update_of_ne hs]
      exact h.tiers s
  · intro s s' hss f hfs f' hfs'
    rcases hframes s f hfs with hf | ⟨rfl, rfl⟩
    · rcases hframes s' f' hfs' with hf' | ⟨rfl, rfl⟩
      · exact h.apart hss f hf f' hf'
      · rw [hstop, hlo]
        exact hdisj s f hf
    · rcases hframes s' f' hfs' with hf' | ⟨rfl, -⟩
      · rw [hstop, hlo]
        exact (hdisj s' f' hf').symm
      · exact absurd rfl hss
  · intro p v hp
    obtain ⟨s, f, hfs, hfp⟩ := h.covered hp
    exact ⟨s, f, hgrows s f hfs, hfp⟩
  · rw [Grant.fresh_iff] at hg' ⊢
    intro s f hfs
    rcases hframes s f hfs with hf | ⟨-, rfl⟩
    · exact hg' s f hf
    · exact hapart.symm

theorem bufExpand_spec (h : Inv a U) (sz : ℕ) {gs : List Grant} (hgs : Mapped a gs) :
    Ends (bufExpand a sz gs.head?) fun r =>
      Inv r.2 U ∧ SameCaches a r.2 ∧ Grows a r.2 ∧ Mapped r.2 gs.tail := by
  unfold bufExpand
  cases gs with
  | nil =>
    simp only [List.head?_nil]
    split_ifs
    · exact Or.inl rfl
    · exact Ends.of_ok ⟨_, rfl, h, fun _ => rfl, .refl a, hgs.tail⟩
  | cons g gs =>
    simp only [List.head?_cons]
    obtain ⟨hval, hfresh⟩ := hgs.1 g List.mem_cons_self
    split
    · exact Ends.of_ok ⟨_, rfl, h, fun _ => rfl, .refl a, hgs.tail⟩
    · next x hadd =>
      obtain ⟨hI, hsame, hgrows, hrest⟩ := h.addSheet hval hfresh (by split_ifs <;> simp) hadd
      refine Ends.of_ok ⟨_, rfl, hI, hsame, hgrows, fun g' hg' => ?_,
        (List.pairwise_cons.1 hgs.2).2⟩
      obtain ⟨hval', hfresh'⟩ := hgs.1 g' (List.mem_cons_of_mem _ hg')
      exact ⟨hval', hrest g' hfresh' ((List.pairwise_cons.1 hgs.2).1 g' hg')⟩

def Handed (a : Tiers) (U : Active) (temporal : Bool) (t : TierId) (sz : ℕ)
    (r : Option Chunk × Tiers) : Prop :=
  match r.1 with
  | none => Inv r.2 U ∧ SameCaches a r.2 ∧ Grows a r.2
  | some c => ∃ U', Given a U temporal t sz c r.2 U'

theorem Given.of_sameCaches (h : SameCaches a a') (hgrows : Grows a a')
    (hg : Given a' U temporal t sz c a'' U') :
    Given a U temporal t sz c a'' U' where
  ptr := hg.ptr
  inv := hg.inv
  active := hg.active
  others := hg.others
  before := by
    rw [← h.parked]
    exact hg.before
  parked q := by
    rw [← h.parked]
    exact hg.parked q
  enough := hg.enough
  grows := hgrows.trans hg.grows
  home := by
    rw [← h t]
    exact hg.home

theorem Handed.of_sameCaches (h : SameCaches a a') (hgrows : Grows a a') {r : Option Chunk × Tiers}
    (hr : Handed a' U temporal t sz r) : Handed a U temporal t sz r := by
  obtain ⟨o, a''⟩ := r
  cases o with
  | none => exact ⟨hr.1, fun s => (hr.2.1 s).trans (h s), hgrows.trans hr.2.2⟩
  | some c =>
    obtain ⟨U', hg⟩ := hr
    exact ⟨U', hg.of_sameCaches h hgrows⟩

/-- The retry loop. -/
theorem attempt_spec {alloc : Tiers → Except Halt (Chunk × Tiers)}
    (hal : ∀ {a U}, Inv a U → ∃ c a', alloc a = .ok (c, a') ∧ Attempted a U temporal t sz c a') :
    ∀ (n : ℕ) {a : Tiers} {gs : List Grant}, Inv a U → Mapped a gs →
      Ends (attempt alloc sz n gs a) (Handed a U temporal t sz) := by
  intro n
  induction n with
  | zero =>
    intro a gs h hgs
    obtain ⟨c, a₁, hrun, hA⟩ := hal h
    rw [attempt, hrun]
    rcases hA with ⟨hc, hI, hsame, hframes⟩ | ⟨U', hG⟩
    · exact Ends.of_ok ⟨(none, a₁), by simp [bind, Except.bind, hc], hI, hsame, .of_frames hframes⟩
    · exact Ends.of_ok ⟨(some c, a₁), by simp [bind, Except.bind, hG.ptr], U', hG⟩
  | succ n ih =>
    intro a gs h hgs
    obtain ⟨c, a₁, hrun, hA⟩ := hal h
    rw [attempt, hrun]
    rcases hA with ⟨hc, hI, hsame, hframes⟩ | ⟨U', hG⟩
    · have hexp := bufExpand_spec hI sz (hgs.congr hframes)
      have hloop : Ends (bufExpand a₁ sz gs.head? >>= fun r =>
          if r.1 then attempt alloc sz n gs.tail r.2 else .ok (none, r.2))
          (Handed a U temporal t sz) := by
        apply hexp.bind
        rintro ⟨b, a₂⟩ ⟨hI₂, hsame₂, hgrows₂, hgs₂⟩
        have hsame' : SameCaches a a₂ := fun s => (hsame₂ s).trans (hsame s)
        have hgrows' : Grows a a₂ := (Grows.of_frames hframes).trans hgrows₂
        cases b with
        | false => exact Ends.of_ok ⟨_, rfl, hI₂, hsame', hgrows'⟩
        | true => exact (ih hI₂ hgs₂).mono fun r hr => hr.of_sameCaches hsame' hgrows'
      simpa [bind, Except.bind, hc] using hloop
    · exact Ends.of_ok ⟨(some c, a₁), by simp [bind, Except.bind, hG.ptr], U', hG⟩

end Requests
end AbcMalloc.Arena
