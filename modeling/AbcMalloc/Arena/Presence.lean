import AbcMalloc.Arena.Entries
import AbcMalloc.Arena.Repeats
import AbcMalloc.Tlsf.Headers

/-! `is_present`. The answer for a pointer that was returned once is read from the cell in front
of it, or from a tag, and from the free cache. It is the right one as long as that cell was not
overwritten, no free left it behind inside a larger free block, and the block is not parked
behind a canary. -/
namespace AbcMalloc.Arena
open Function Foundation

/-- The cell `x` reads as free, or a block in use starts there. -/
def tlsfTruthful (h : Tlsf.Heap) (x : ℕ) : Prop := h.ctl.base = 0 ∨ Tlsf.Truthful h x

namespace TierId

def Truthful : (t : TierId) → t.Heap → ℕ → Prop
  | precise, h, x => tlsfTruthful h x
  | small, h, x => tlsfTruthful h x
  | _, _, _ => True

/-- `deallocate` of the block at `b` merges it into a free predecessor, whose header then stands
for both. Buddy blocks keep no header in front. -/
def mergesBackward : (t : TierId) → t.Heap → ℕ → Bool
  | precise, h, b => Tlsf.mergesBackward h b
  | small, h, b => Tlsf.mergesBackward h b
  | _, _, _ => false

end TierId

section Truth
variable {cfg : Config} {t : TierId} {e : Entry t.Heap} {s : Sheet t.Heap} {c : Chunk}
  {L : Ledger} {x b n f sz : ℕ}

theorem truthful_mark (hfit : t.fits sz = true)
    (hrun : e.sheet.mark t.params false sz = .ok (c, s)) (h : t.Truthful e.sheet.book x) :
    t.Truthful s.book x := by
  have htlsf : ∀ {h h' : Tlsf.Heap} {c : Chunk}, Tlsf.fitsRequest sz = true → tlsfTruthful h x →
      Tlsf.allocate h sz = some (c, h') → tlsfTruthful h' x := by
    rintro h h' c hfit (h₀ | ht) hrun
    · rw [Tlsf.allocate, if_pos h₀] at hrun
      simp only [Option.some.injEq, Prod.mk.injEq] at hrun
      exact Or.inl (hrun.2 ▸ h₀)
    · exact Or.inr (ht.allocate hfit hrun)
  unfold Sheet.mark at hrun
  simp only [Bool.false_eq_true, if_false] at hrun
  split_ifs at hrun
  · simp only [Except.ok.injEq, Prod.mk.injEq] at hrun
    rwa [← hrun.2]
  · split at hrun
    · exact absurd hrun (by simp)
    · next c' h' hal =>
      simp only [Except.ok.injEq, Prod.mk.injEq] at hrun
      rw [← hrun.2]
      cases t
      · exact htlsf hfit h hal
      · exact htlsf hfit h hal
      all_goals trivial

theorem truthful_new (t : TierId) {m : Mem} (hm : ∀ x, m.hi x = blockFree) (tags : ℕ → ℕ)
    (hlen : c.ptr + c.len ≤ 2 ^ 64) (x : ℕ) : t.Truthful (t.params.format m tags c) x := by
  have htlsf : tlsfTruthful (Tlsf.initMemory m c.ptr c.len) x := by
    by_cases hacc : (Tlsf.initMemory m c.ptr c.len).ctl.base = 0
    · exact Or.inl hacc
    · exact Or.inr (Tlsf.initMemory_truthful hlen hacc hm x)
  cases t
  · exact htlsf
  · exact htlsf
  all_goals trivial

theorem truthful_of_used (hrep : t.Rep e.sheet.book L) (hu : L.used x = some (n, f)) :
    t.Truthful e.sheet.book x := by
  have htlsf : ∀ {h : Tlsf.Heap}, OrRefused tlsfRefused Tlsf.TlsfRep h L → tlsfTruthful h x := by
    rintro h (⟨A, hG, rfl⟩ | ⟨-, -, hV⟩)
    · exact Or.inr (.of_used hG hu)
    · rw [hV.used] at hu
      exact absurd hu (by simp)
  cases t
  · exact htlsf hrep
  · exact htlsf hrep
  all_goals trivial

theorem truthful_tombstone (hrep : t.Rep e.sheet.book L) (hu : L.used b = some (n, f))
    (hf : f ≠ blockTombstone) (h : t.Truthful e.sheet.book x) :
    t.Truthful (t.params.book.tombstone e.sheet.book (b + t.params.book.header)).2 x := by
  have htlsf : ∀ {h : Tlsf.Heap}, OrRefused tlsfRefused Tlsf.TlsfRep h L → tlsfTruthful h x →
      tlsfTruthful (Tlsf.tombstone h (b + 32)).2 x := by
    rintro h (⟨A, hG, rfl⟩ | ⟨-, -, hV⟩) ht
    · rcases ht with h₀ | ht
      · exact absurd h₀ hG.base_ne_zero
      · exact Or.inr (ht.tombstone hG hu hf)
    · rw [hV.used] at hu
      exact absurd hu (by simp)
  cases t
  · exact htlsf hrep h
  · exact htlsf hrep h
  all_goals trivial

theorem truthful_deallocate (hrep : t.Rep e.sheet.book L) (hu : L.used b = some (n, f))
    (hf : f ≠ blockTombstone)
    (hfwd : t.mergesBackward e.sheet.book (b + t.params.book.header) = false)
    (h : t.Truthful e.sheet.book x) :
    t.Truthful (t.params.book.deallocate e.sheet.book (b + t.params.book.header)).2 x := by
  have htlsf : ∀ {h : Tlsf.Heap}, OrRefused tlsfRefused Tlsf.TlsfRep h L →
      Tlsf.mergesBackward h (b + 32) = false → tlsfTruthful h x →
      tlsfTruthful (Tlsf.deallocate h (b + 32)).2 x := by
    rintro h (⟨A, hG, rfl⟩ | ⟨-, -, hV⟩) hfwd ht
    · rcases ht with h₀ | ht
      · exact absurd h₀ hG.base_ne_zero
      · exact Or.inr (ht.deallocate hG hu (fun hft => absurd hft hf) hfwd)
    · rw [hV.used] at hu
      exact absurd hu (by simp)
  cases t
  · exact htlsf hrep hfwd h
  · exact htlsf hrep hfwd h
  all_goals trivial

theorem truthful_store (hrep : t.Rep e.sheet.book L) {y : ℕ}
    (hy : L.Payload t.params.book.header y) (v : Cell)
    (hxy : t.params.book.header = 32 → x ≠ y) (h : t.Truthful e.sheet.book x) :
    t.Truthful (t.params.book.store e.sheet.book y v) x := by
  have htlsf : ∀ {h : Tlsf.Heap}, OrRefused tlsfRefused Tlsf.TlsfRep h L → L.Payload 32 y → x ≠ y →
      tlsfTruthful h x → tlsfTruthful { h with mem := h.mem.store y v } x := by
    rintro h (⟨A, hG, rfl⟩ | ⟨-, -, hV⟩) ⟨b, n, f, i, hu, rfl, hi⟩ hxy ht
    · rcases ht with h₀ | ht
      · exact absurd h₀ hG.base_ne_zero
      · have hpay : Tlsf.Payload A (b + 32 + 32 * i) := ⟨b, n, f, hu, by omega, by omega⟩
        exact Or.inr (ht.store hG hpay v hxy)
    · rw [hV.used] at hu
      exact absurd hu (by simp)
  cases t
  · exact htlsf hrep hy (hxy rfl) h
  · exact htlsf hrep hy (hxy rfl) h
  all_goals trivial

/-- A truthful cell that reads as allocated belongs to a block in use. -/
theorem starts_of_truthful (h : t.Truthful e.sheet.book (b - t.params.book.header))
    (hal : e.sheet.isBlockAllocated t.params b = true) : t.starts e.sheet.book b := by
  have htlsf : ∀ {h : Tlsf.Heap}, tlsfTruthful h (b - 32) →
      Tlsf.isAllocated h b = true → tlsfStarts h b := by
    rintro h ht hal
    have hbase : h.ctl.base ≠ 0 := by
      simp only [Tlsf.isAllocated, Bool.and_eq_true, decide_eq_true_eq] at hal
      exact hal.1.1.2
    have hb : 32 ≤ b := by
      simp only [Tlsf.isAllocated, Tlsf.inData, Bool.and_eq_true, decide_eq_true_eq] at hal
      omega
    obtain ⟨A, n, f, hG, hu⟩ := (ht.resolve_left hbase).isAllocated
      (by rwa [Nat.sub_add_cancel hb])
    exact ⟨hbase, hb, (hG.mem_blocks _).2 ⟨n, f, (Tlsf.used_eq_some.1 hu).1⟩⟩
  unfold Sheet.isBlockAllocated at hal
  rw [Bool.and_eq_true] at hal
  cases t
  · exact htlsf h hal.1
  · exact htlsf h hal.1
  all_goals trivial

end Truth

/-! ## What a client can tell -/

/-- The cell in front of a pointer, for the lists that keep headers there. -/
def headerOf (cfg : Config) (t : TierId) (q : ℕ) : ℕ := blockPtr cfg t q - t.params.book.header

/-- A client, with what it saw of the pointers it was given. -/
structure Trail where
  world : World
  /-- Returned, and the address was not covered by a chunk returned since. -/
  seen : ℕ → Bool
  /-- The cell in front lies in the bytes or the canaries of a chunk returned since. -/
  spoilt : ℕ → Bool

namespace Trail

def init (a : Tiers) : Trail := ⟨World.init a, fun _ => false, fun _ => false⟩

def spans (cfg : Config) (t : TierId) (c : Chunk) (x : ℕ) : Bool :=
  blockPtr cfg t c.ptr ≤ x && x < c.ptr + c.len + (if canaries cfg t then 16 else 0)

def receive (cfg : Config) (w : Trail) (t : TierId) (c : Chunk) (w' : World) : Trail where
  world := w'
  seen q := q = c.ptr || w.seen q && !(c.ptr ≤ q && q < c.ptr + c.len)
  spoilt q := q ≠ c.ptr && (w.spoilt q || spans cfg t c (headerOf cfg t q))

def step (cfg : Config) (w : Trail) (op : Op) : Except Halt Trail := do
  let w' ← w.world.step cfg op
  match op with
  | .push sz gs =>
    match Arena.push cfg w.world.arena sz gs with
    | .ok (some c, _) => .ok (w.receive cfg (.ofSize (rzInflate cfg sz)) c w')
    | _ => .ok { w with world := w' }
  | _ => .ok { w with world := w' }

def next (cfg : Config) (w : Trail) (op : Op) : Option Trail := (w.step cfg op).toOption

def Legal (w : Trail) (op : Op) : Prop :=
  w.world.Legal op ∧
    match op with
    | .push _ _ => True
    | .pop _ _ _ => True
    | .tsPop _ _ _ => True
    | .write _ _ _ => True
    | _ => False

instance (w : Trail) (op : Op) : Decidable (w.Legal op) :=
  match op with
  | .push .. => inferInstanceAs (Decidable (_ ∧ True))
  | .pop .. => inferInstanceAs (Decidable (_ ∧ True))
  | .tsPop .. => inferInstanceAs (Decidable (_ ∧ True))
  | .write .. => inferInstanceAs (Decidable (_ ∧ True))
  | .launder .. => inferInstanceAs (Decidable (_ ∧ False))
  | .resize .. => inferInstanceAs (Decidable (_ ∧ False))
  | .freeze _ => inferInstanceAs (Decidable (_ ∧ False))
  | .resetPage _ => inferInstanceAs (Decidable (_ ∧ False))

end Trail

/-- The free of a block that goes to its list does not merge it into a free predecessor. A block
goes to its list when the cache is full or, with redzones, when the free is size-less. -/
def Forward (cfg : Config) (a : Tiers) : Op → Prop
  | .pop p len intact => freeAdmit p len = true → ∀ r ∈ dispatch a p,
      (canaries cfg r.1 && !intact) = false →
      (cfg.redzone = true ∧ len = none ∨ r.1.params.cacheSlots ≤ (a r.1).cache.length) →
      ∀ e ∈ (a r.1).idx[r.2]?, r.1.mergesBackward e.sheet.book (blockPtr cfg r.1 p) = false
  | _ => True

instance (cfg : Config) (a : Tiers) (op : Op) : Decidable (Forward cfg a op) :=
  match op with
  | .pop p _ _ => inferInstanceAs (Decidable (_ = true → ∀ r ∈ dispatch a p, _))
  | .push .. => inferInstanceAs (Decidable True)
  | .launder .. => inferInstanceAs (Decidable True)
  | .tsPop .. => inferInstanceAs (Decidable True)
  | .resize .. => inferInstanceAs (Decidable True)
  | .freeze _ => inferInstanceAs (Decidable True)
  | .resetPage _ => inferInstanceAs (Decidable True)
  | .write .. => inferInstanceAs (Decidable True)

/-- The kernel clears the pages that it maps. -/
def Grant.Cleared (g : Grant) : Prop := ∀ x, g.mem.hi x = blockFree

def Op.grants : Op → List Grant
  | .push _ gs => gs
  | .launder _ gs => gs
  | .resize _ _ _ gs => gs
  | _ => []

/-- The sheet shows the state of the pointers in `S` that it covers. -/
def Shows (cfg : Config) (S : ℕ → Prop) (t : TierId) (e : Entry t.Heap) : Prop :=
  ∀ q, S q → e.frame.Covers q → t.Truthful e.sheet.book (headerOf cfg t q)

/-- The cells in front of other pointers do not lie in a live chunk. -/
def OutOf (cfg : Config) (spoilt : ℕ → Bool) (p : ℕ) (h : Held) (t : TierId) (b : ℕ) : Prop :=
  ∀ q, q ≠ p → spoilt q = false → headerOf cfg t q < b ∨ p + h.len ≤ headerOf cfg t q

/-- Every active block is parked or live, and every sheet shows what was not spoilt. -/
structure Known (cfg : Config) (w : Trail) (U : Active) : Prop where
  inv : Inv w.world.arena U
  plain : Untemporal U
  held : ∀ {p h}, w.world.live p = some h →
    ∃ t b n, Handle cfg w.world.arena U p h t b n ∧ OutOf cfg w.spoilt p h t b
  owned : ∀ {b v}, U b = some v → Parked w.world.arena b ∨
    ∃ p h t n, w.world.live p = some h ∧ Handle cfg w.world.arena U p h t b n
  shows : AllEntries (Shows cfg fun q => w.spoilt q = false) w.world.arena

section Steps
variable {cfg : Config} {w : Trail} {a a' : Tiers} {U U' : Active} {t : TierId} {p b n sz : ℕ}
  {h : Held} {c : Chunk} {S : ℕ → Prop}

theorem shows_push {gs : List Grant} {o : Option Chunk}
    (hs : AllEntries (Shows cfg S) a) (hgs : Mapped a gs) (hclear : ∀ g ∈ gs, g.Cleared)
    (hrun : push cfg a sz gs = .ok (o, a')) : AllEntries (Shows cfg S) a' := by
  apply push_all hs _ _ hrun
  · intro t hfit e c s he hmark q hq hcov
    exact truthful_mark hfit hmark (he q hq hcov)
  · intro g hg t head guard _ q _ _
    obtain ⟨⟨-, -, htop⟩, -⟩ := hgs.1 g hg
    apply truthful_new t (hclear g hg)
    show g.chunk.ptr + (g.chunk.len - guard) ≤ 2 ^ 64
    omega

/-- The header of a new block lies outside every other live chunk, and that of every pointer
whose header is not spoilt lies outside the new chunk. -/
theorem Handle.outOf_new {spoilt : ℕ → Bool} {q b' n' : ℕ} {h' : Held} {s : TierId}
    (hI : Inv a U) (hh : Handle cfg a U p h t b n) (hnew : Handle cfg a U q h' s b' n')
    (hne : q ≠ p)
    (hout : OutOf cfg spoilt p h t b) {spoilt' : ℕ → Bool}
    (hsp : ∀ x, x ≠ q → spoilt' x = false → spoilt x = false) : OutOf cfg spoilt' p h t b := by
  intro x hxp hx
  by_cases hxq : x = q
  · subst hxq
    have hbb : b ≠ b' := by
      rintro rfl
      exact hne (hnew.ptr_unique hI hh)
    have hsub := userPtr_sub cfg s b'
    have hle := le_userPtr cfg s b'
    have hw := hh.within
    have hw' := hnew.within
    rw [← hnew.ptr] at hsub hle
    have hhead : t.params.book.header ≤ 32 := t.refines.header_le
    have hcan : blockPtr cfg t x = x ∧ p = b ∨ blockPtr cfg t x = x - 16 ∧ p = b + 16 := by
      rw [hh.ptr]
      unfold blockPtr userPtr
      split_ifs
      · exact Or.inr ⟨rfl, rfl⟩
      · exact Or.inl ⟨rfl, rfl⟩
    unfold headerOf
    rcases hI.blocks_disjoint hh.active hnew.active hbb with hd | hd
    · right
      rcases hcan with ⟨h₁, h₂⟩ | ⟨h₁, h₂⟩ <;> rw [h₁] <;> omega
    · left
      rcases hcan with ⟨h₁, h₂⟩ | ⟨h₁, h₂⟩ <;> rw [h₁] <;> omega
  · exact hout x hxp (hsp x hxq hx)

theorem Handle.block_unique {b' n' : ℕ} {h' : Held} {s : TierId} (hI : Inv a U)
    (hh : Handle cfg a U p h t b n) (hh' : Handle cfg a U p h' s b' n') : t = s ∧ b = b' := by
  obtain ⟨f, hf, -, hfp, -⟩ := hh.frame hI
  obtain ⟨g, hg, -, hgp, -⟩ := hh'.frame hI
  obtain ⟨rfl, -⟩ := hI.frame_unique hf hg hfp hgp
  exact ⟨rfl, by rw [← hh.blockPtr_eq, ← hh'.blockPtr_eq]⟩

/-! ### Frees -/

section Frees
variable {e : Entry t.Heap} {s : Sheet t.Heap} {i : ℕ} {k ok r sized intact : Bool} {len : Option ℕ}

/-- The removal of an active block. -/
theorem shows_remove (hI : Inv a U) (hi : (a t).idx[i]? = some e) (hcov : e.frame.Covers b)
    (hU : U b = some (n, k)) {tomb : Bool}
    (hfwd : tomb = false → t.mergesBackward e.sheet.book b = false)
    (hrun : e.sheet.tryRemove t.params tomb sized b = .ok (r, s)) (hs : Shows cfg S t e) :
    Shows cfg S t { e with sheet := s } := by
  obtain ⟨L, hL⟩ := (hI.tiers t).entry_holds hi
  obtain ⟨b', f, rfl, hu, hf, -⟩ := hL.used t.refines hcov hU
  unfold Sheet.tryRemove at hrun
  split_ifs at hrun with h₁ h₂
  · simp only [Except.ok.injEq, Prod.mk.injEq] at hrun
    rw [← hrun.2]
    exact fun q hq hqc => truthful_tombstone hL.rep hu hf (hs q hq hqc)
  · simp only [Except.ok.injEq, Prod.mk.injEq] at hrun
    rw [← hrun.2]
    exact fun q hq hqc => truthful_deallocate hL.rep hu hf (hfwd (by simpa using h₂)) (hs q hq hqc)

/-- Blocks with a header in front are larger than it. -/
theorem merges_or_large (hI : Inv a U) (hi : (a t).idx[i]? = some e) (hcov : e.frame.Covers b)
    (hU : U b = some (n, k)) : t.mergesBackward e.sheet.book b = false ∨ 32 < n := by
  obtain ⟨L, hL⟩ := (hI.tiers t).entry_holds hi
  obtain ⟨b', f, rfl, hu, hf, -⟩ := hL.used t.refines hcov hU
  have htlsf : ∀ {h : Tlsf.Heap}, OrRefused tlsfRefused Tlsf.TlsfRep h L → 32 < n := by
    rintro h (⟨A, hG, rfl⟩ | ⟨-, -, hV⟩)
    · have := hG.phys.size_ge (Tlsf.used_eq_some.1 hu).1
      omega
    · rw [hV.used] at hu
      exact absurd hu (by simp)
  cases t
  · exact Or.inr (htlsf hL.rep)
  · exact Or.inr (htlsf hL.rep)
  all_goals exact Or.inl rfl

theorem shows_pop (hI : Inv a U) (hh : Handle cfg a U p h t b n) (hplain : h.temporal = false)
    (hfwd : Forward cfg a (.pop p len intact)) (hs : AllEntries (Shows cfg S) a)
    (hrun : pop cfg a p len intact = .ok (ok, a')) : AllEntries (Shows cfg S) a' := by
  obtain ⟨i, e, hd, he, hcov⟩ := hh.dispatch hI
  have hb := hh.blockPtr_eq
  have hU := hh.active
  rw [hplain] at hU
  obtain ⟨-, htemp, hsize⟩ := (hI.tiers t).reports t.refines he hcov hU
  have hlarge := merges_or_large hI he hcov hU
  have hfail : ∀ {a' : Tiers} {ok : Bool}, failState cfg a = .ok (ok, a') →
      AllEntries (Shows cfg S) a' := by
    intro a' ok hrun
    have h' := (failState_ends cfg a).ok hrun
    have h' : a' = a := h'.2
    rwa [h']
  unfold pop popWith vmapRemove at hrun
  rw [if_neg (ptr_ne_zero hI hd)] at hrun
  by_cases hadm : freeAdmit p len = true
  · rw [hadm, hd] at hrun
    simp only [Bool.not_true, Bool.false_eq_true, if_false] at hrun
    by_cases hcan : (canaries cfg t && !intact) = true
    · rw [if_pos hcan] at hrun
      exact hfail hrun
    · rw [if_neg hcan] at hrun
      apply onTier_all hs _ hrun
      intro r x hx
      have hfwd := hfwd hadm (t, i) hd (Bool.not_eq_true _ ▸ hcan)
      have hrem : ∀ {sized : Bool}, (cfg.redzone = true ∧ len = none ∨
          t.params.cacheSlots ≤ (a t).cache.length ∨ n ≤ 32) →
          (a t).removeImpl t.params cfg false sized i b = .ok (r, x) → x.All (Shows cfg S t) := by
        intro sized hgo hrun
        apply Tier.removeImpl_all (hs t) _ hrun
        intro e' r s he' hse hr
        rw [he] at he'
        obtain rfl := Option.some.inj he'
        apply shows_remove hI he hcov hU _ hr hse
        intro _
        rcases hlarge with hback | hlarge
        · exact hback
        · rw [← hb]
          apply hfwd _ e he
          rcases hgo with hgo | hgo | hgo
          · exact Or.inl hgo
          · exact Or.inr hgo
          · omega
      rw [hb] at hx
      cases len with
      | none =>
        rcases Tier.removeAt_outcome hx with rfl | ⟨e, m, d, -, -, -, rfl⟩ | ⟨hgo, hrun⟩
        · exact hs t
        · exact (hs t).congr rfl
        · apply hrem _ hrun
          rcases hgo with hgo | hgo | ⟨e', he', hgo | hgo⟩
          · exact Or.inl ⟨hgo, rfl⟩
          · exact Or.inr (Or.inl hgo)
          · rw [he] at he'
            obtain rfl := Option.some.inj he'
            rw [htemp] at hgo
            exact absurd hgo (by decide)
          · rw [he] at he'
            obtain rfl := Option.some.inj he'
            exact Or.inr (Or.inr (hsize ▸ hgo))
      | some m =>
        rcases Tier.cachePushOrRemove_outcome hx with rfl | ⟨e, m, d, -, -, -, rfl⟩ | ⟨hgo, hrun⟩
        · exact hs t
        · exact (hs t).congr rfl
        · apply hrem _ hrun
          rcases hgo with hgo | ⟨e', he', hgo⟩
          · exact Or.inr (Or.inl hgo)
          · rw [he] at he'
            obtain rfl := Option.some.inj he'
            exact Or.inr (Or.inr (hsize ▸ hgo))
  · rw [if_pos (by simpa using hadm)] at hrun
    exact hfail hrun

theorem shows_tsPop (hI : Inv a U) (hh : Handle cfg a U p h t b n)
    (hs : AllEntries (Shows cfg S) a) (hrun : tsPop cfg a p len intact = .ok (ok, a')) :
    AllEntries (Shows cfg S) a' := by
  obtain ⟨i, e, hd, he, hcov⟩ := hh.dispatch hI
  have hfail : ∀ {a' : Tiers} {ok : Bool}, failState cfg a = .ok (ok, a') →
      AllEntries (Shows cfg S) a' := by
    intro a' ok hrun
    have h' := (failState_ends cfg a).ok hrun
    have h' : a' = a := h'.2
    rwa [h']
  unfold tsPop tsPopWith vmapTombstone at hrun
  rw [if_neg (ptr_ne_zero hI hd), hd] at hrun
  split_ifs at hrun
  · exact hfail hrun
  · simp only at hrun
    split_ifs at hrun
    · exact hfail hrun
    · apply onTier_all hs _ hrun
      intro r x hx
      rw [hh.blockPtr_eq] at hx
      apply Tier.removeImpl_all (hs t) _ hx
      intro e' r s he' hse hr
      rw [he] at he'
      obtain rfl := Option.some.inj he'
      exact shows_remove hI he hcov hh.active (by simp) hr hse

theorem shows_store {spoilt : ℕ → Bool} (hI : Inv a U) (hh : Handle cfg a U p h t b n)
    (hout : OutOf cfg spoilt p h t b) (hi : 32 * i + 32 ≤ h.len) (v : Cell)
    (hs : AllEntries (Shows cfg fun q => spoilt q = false) a) :
    AllEntries (Shows cfg fun q => spoilt q = false) (store cfg a p i v) := by
  obtain ⟨j, e, hd, he, hcov⟩ := hh.dispatch hI
  obtain ⟨L, hL⟩ := (hI.tiers t).entry_holds he
  obtain ⟨b', f, hb', hu, -, -⟩ := hL.used t.refines hcov hh.active
  have hpos := ((hI.tiers t).entry_good he).pos
  have hlo := hcov.1
  have hle := le_userPtr cfg t b
  rw [← hh.ptr] at hle
  have hw := hh.within
  unfold store
  rw [hd]
  simp only
  rw [modify_eq_setSheet he fun s => { s with
    book := t.params.book.store s.book (blockPtr cfg t p + 32 * i) v }]
  apply hs.update
  apply (hs t).setSheet
  intro e' he' q hq hqc
  rw [he] at he'
  obtain rfl := Option.some.inj he'
  rw [hh.blockPtr_eq]
  refine truthful_store hL.rep ⟨b', n, f, i, hu, by rw [hb'], by omega⟩ v (fun hhead => ?_)
    (hs t e (List.mem_of_getElem? he) q hq hqc)
  by_cases hqp : q = p
  · subst hqp
    unfold headerOf
    rw [hh.blockPtr_eq]
    omega
  · rcases hout q hqp hq with h₁ | h₁ <;> omega

end Frees

/-! ### Steps of the trail -/

theorem Known.idle (hK : Known cfg w U) (hI : Inv a U) (hsame : SameCaches w.world.arena a)
    (hgrows : Grows w.world.arena a) (hs : AllEntries (Shows cfg fun q => w.spoilt q = false) a) :
    Known cfg { w with world := { w.world with arena := a } } U where
  inv := hI
  plain := hK.plain
  held hp := by
    obtain ⟨t, b, n, hh, hout⟩ := hK.held hp
    obtain ⟨f, hf, hfb⟩ := hh.covered
    exact ⟨t, b, n, hh.congr rfl ⟨f, hgrows t f hf, hfb⟩ (hsame.parked).1, hout⟩
  owned hb := by
    rcases hK.owned hb with hp | ⟨p, h, t, n, hp, hh⟩
    · exact Or.inl (hsame.parked.2 hp)
    · obtain ⟨f, hf, hfb⟩ := hh.covered
      exact Or.inr ⟨p, h, t, n, hp, hh.congr rfl ⟨f, hgrows t f hf, hfb⟩ (hsame.parked).1⟩
  shows := hs

theorem Known.receive (hK : Known cfg w U)
    (hg : Given w.world.arena U false t (rzInflate cfg sz) c a U')
    (hcan : canaries cfg t = rzActive cfg sz)
    (hs : AllEntries (Shows cfg fun q => w.spoilt q = false) a) :
    Known cfg (w.receive cfg t (rzApply cfg sz c)
      (w.world.receive cfg false t (rzApply cfg sz c) a)) U' := by
  obtain ⟨n, hnew⟩ := hg.handle hK.inv hcan (by simp)
  have hkeep : ∀ {q h' s b m}, Handle cfg w.world.arena U q h' s b m →
      q ≠ (rzApply cfg sz c).ptr ∧ Handle cfg a U' q h' s b m := by
    intro q h' s b m hh
    have hne := hg.not_held hnew hK.inv hh
    exact ⟨hne, hg.keeps hK.inv hh (by rwa [← rzApply_ptr hcan])⟩
  generalize hu : rzApply cfg sz c = u at *
  constructor
  · exact hg.inv
  · intro b m hb
    by_cases hbc : b = c.ptr
    · subst hbc
      rw [hnew.active] at hb
      simp at hb
    · rw [hg.others b hbc] at hb
      exact hK.plain b m hb
  · intro q h' hq
    by_cases hqu : q = u.ptr
    · subst hqu
      simp only [Trail.receive, World.receive, update_self, Option.some.injEq] at hq
      subst hq
      refine ⟨t, c.ptr, n, hnew, fun x hx hsp => ?_⟩
      simp only [Trail.receive, Trail.spans, hnew.blockPtr_eq, hx, ne_eq, not_false_eq_true,
        decide_true, Bool.true_and, Bool.or_eq_false_iff, Bool.and_eq_false_iff,
        decide_eq_false_iff_not] at hsp
      show headerOf cfg t x < c.ptr ∨ u.ptr + u.len ≤ headerOf cfg t x
      omega
    · simp only [Trail.receive, World.receive, update_of_ne hqu] at hq
      obtain ⟨s, b, m, hh, hout⟩ := hK.held hq
      obtain ⟨-, hh'⟩ := hkeep hh
      refine ⟨s, b, m, hh', hh'.outOf_new hg.inv hnew (Ne.symm hqu) hout fun x hx hsp => ?_⟩
      simp only [Trail.receive, hx, ne_eq, not_false_eq_true, decide_true, Bool.true_and,
        Bool.or_eq_false_iff] at hsp
      exact hsp.1
  · intro b v hb
    by_cases hbc : b = c.ptr
    · subst hbc
      exact Or.inr ⟨u.ptr, _, t, n, update_self _ _ _, hnew⟩
    · rw [hg.others b hbc] at hb
      rcases hK.owned hb with hp | ⟨p, h', s, m, hp, hh⟩
      · exact Or.inl ((hg.parked b).2 ⟨hp, hbc⟩)
      · obtain ⟨hne, hh'⟩ := hkeep hh
        refine Or.inr ⟨p, h', s, m, ?_, hh'⟩
        simp only [Trail.receive, World.receive, update_of_ne hne]
        exact hp
  · intro s e he q hq hqc
    by_cases hqu : q = u.ptr
    · subst hqu
      obtain ⟨f, hf, hfb, hfu, -⟩ := hnew.frame hg.inv
      obtain ⟨i, e', he', rfl⟩ := Tier.exists_entry hf
      obtain ⟨j, hj⟩ := List.mem_iff_getElem?.1 he
      obtain ⟨rfl, hee⟩ :=
        hg.inv.frame_unique (Tier.mem_frames (List.mem_of_getElem? hj)) hf hqc hfu
      obtain ⟨L, hL⟩ := (hg.inv.tiers s).entry_holds hj
      obtain ⟨b', f, hb', huse, -, -⟩ := hL.used s.refines (by rw [hee]; exact hfb) hnew.active
      have hhead : headerOf cfg s u.ptr = b' := by
        unfold headerOf
        rw [hnew.blockPtr_eq, hb', Nat.add_sub_cancel]
      rw [hhead]
      exact truthful_of_used hL.rep huse
    · simp only [Trail.receive, hqu, ne_eq, not_false_eq_true, decide_true, Bool.true_and,
        Bool.or_eq_false_iff] at hq
      exact hs s e he q hq.1 hqc

theorem Known.release (hK : Known cfg w U) (hlive : w.world.live p = some h)
    (hh : Handle cfg w.world.arena U p h t b n) (hF : Freed w.world.arena U b a U')
    (hs : AllEntries (Shows cfg fun q => w.spoilt q = false) a) :
    Known cfg { w with world := w.world.release p (true, a) } U' where
  inv := hF.inv
  plain x m hx := hK.plain x m (hF.active_of hx)
  held {q h'} hq := by
    simp only [World.release, if_true] at hq
    by_cases hqp : q = p
    · subst hqp
      rw [update_self] at hq
      exact absurd hq (by simp)
    · rw [update_of_ne hqp] at hq
      obtain ⟨s, b', m, hh', hout⟩ := hK.held hq
      refine ⟨s, b', m, hF.keeps hK.inv hh' ?_, hout⟩
      rintro rfl
      exact hqp (hh'.ptr_unique hK.inv hh)
  owned {x v} hx := by
    by_cases hxb : x = b
    · subst hxb
      rcases hF.outcome with ⟨-, hpark⟩ | ⟨hnone, -⟩
      · exact Or.inl ((hpark x).2 (Or.inr rfl))
      · rw [hnone] at hx
        exact absurd hx (by simp)
    · rcases hK.owned (hF.active_of hx) with hp | ⟨q, h', s, m, hq, hh'⟩
      · left
        rcases hF.outcome with ⟨-, hpark⟩ | ⟨-, hsame⟩
        · exact (hpark x).2 (Or.inl hp)
        · exact hsame.parked.2 hp
      · refine Or.inr ⟨q, h', s, m, ?_, hF.keeps hK.inv hh' hxb⟩
        have hqp : q ≠ p := by
          rintro rfl
          exact hxb (hh'.block_unique hK.inv hh).2
        simp only [World.release, if_true, update_of_ne hqp]
        exact hq
  shows := hs

theorem Known.stores (hK : Known cfg w U) {i : ℕ} (v : Cell) (hlive : w.world.live p = some h)
    (hi : 32 * i + 32 ≤ h.len) :
    Known cfg { w with world := { w.world with arena := store cfg w.world.arena p i v } } U := by
  obtain ⟨t, b, n, hh, hout⟩ := hK.held hlive
  obtain ⟨j, e, hd, he, hcov⟩ := hh.dispatch hK.inv
  have hwithin := hh.within
  have hle := le_userPtr cfg t b
  rw [← hh.ptr] at hle
  obtain ⟨hI, hsame, hrest⟩ := store_spec hK.inv cfg v hd he (by rwa [hh.blockPtr_eq])
    (by rw [hh.blockPtr_eq]; exact hh.active) (j := i) (by omega)
  exact hK.idle hI hsame (.of_frames fun s => (hrest s).1)
    (shows_store hK.inv hh hout hi v hK.shows)

theorem Trail.step_eq (op : Op) (hop : ∀ sz gs, op ≠ .push sz gs) :
    w.step cfg op = (w.world.step cfg op).map fun w' => { w with world := w' } := by
  unfold Trail.step
  cases hs : w.world.step cfg op with
  | error x => rfl
  | ok w' =>
    cases op with
    | push sz gs => exact absurd rfl (hop sz gs)
    | _ => rfl

theorem Known.step_push (hK : Known cfg w U) {gs : List Grant} {w' : Trail}
    (hgs : Mapped w.world.arena gs) (hclear : ∀ g ∈ gs, g.Cleared)
    (hstep : w.step cfg (.push sz gs) = .ok w') : ∃ U', Known cfg w' U' := by
  unfold Trail.step World.step at hstep
  cases hrun : push cfg w.world.arena sz gs with
  | error x =>
    simp only [hrun, bind, Except.bind] at hstep
    exact absurd hstep (by simp)
  | ok r =>
    obtain ⟨o, a⟩ := r
    have hs := shows_push hK.shows hgs hclear hrun
    have hspec := (push_spec hK.inv cfg hgs).ok hrun
    cases o with
    | none =>
      simp only [hrun, bind, Except.bind, Except.ok.injEq] at hstep
      obtain ⟨hI, hsame, hgrows⟩ := hspec
      rw [← hstep]
      exact ⟨U, hK.idle hI hsame hgrows hs⟩
    | some u =>
      simp only [hrun, bind, Except.bind, Except.ok.injEq] at hstep
      obtain ⟨c, U', rfl, hg⟩ := hspec
      rw [← hstep]
      exact ⟨U', hK.receive hg (canaries_ofSize cfg sz) hs⟩

theorem Known.not_temporal (hK : Known cfg w U) (hh : Handle cfg w.world.arena U p h t b n) :
    h.temporal = false := by
  cases hk : h.temporal with
  | false => rfl
  | true => exact absurd (hk ▸ hh.active) (hK.plain b n)

/-- What a client knows survives each step. -/
theorem Known.step (hK : Known cfg w U) {op : Op} {w' : Trail} (hlegal : w.Legal op)
    (hfwd : Forward cfg w.world.arena op) (hclear : ∀ g ∈ op.grants, g.Cleared)
    (hstep : w.step cfg op = .ok w') : ∃ U', Known cfg w' U' := by
  have hfree : ∀ {r : Bool × Tiers} {p h t b n}, w.world.live p = some h →
      Handle cfg w.world.arena U p h t b n →
      ((r.1 = false ∧ r.2 = w.world.arena) ∨ (r.1 = true ∧ ∃ U', Freed w.world.arena U b r.2 U')) →
      AllEntries (Shows cfg fun q => w.spoilt q = false) r.2 →
      ∃ U', Known cfg { w with world := w.world.release p r } U' := by
    rintro ⟨ok, a⟩ p h t b n hlive hh (⟨rfl, rfl⟩ | ⟨rfl, U', hF⟩) hs
    · exact ⟨U, hK⟩
    · exact ⟨U', hK.release hlive hh hF hs⟩
  obtain ⟨hlegal, hop⟩ := hlegal
  cases op with
  | push sz gs => exact hK.step_push hlegal hclear hstep
  | pop p len intact =>
    obtain ⟨h, hlive⟩ := Option.isSome_iff_exists.1 hlegal
    obtain ⟨t, b, n, hh, -⟩ := hK.held hlive
    have hplain := hK.not_temporal hh
    obtain ⟨i, e, hd, he, hcov⟩ := hh.dispatch hK.inv
    rw [Trail.step_eq _ (by simp)] at hstep
    simp only [World.step] at hstep
    cases hrun : pop cfg w.world.arena p len intact with
    | error x =>
      simp only [hrun, bind, Except.bind, Except.map] at hstep
      exact absurd hstep (by simp)
    | ok r =>
      simp only [hrun, bind, Except.bind, Except.map, Except.ok.injEq] at hstep
      have hspec := (pop_spec hK.inv cfg len intact hd he (by rwa [hh.blockPtr_eq])
        (by rw [hh.blockPtr_eq]; exact hh.active) (by rw [hh.blockPtr_eq]; exact hh.out)
        (by simp [hplain])).ok hrun
      rw [hh.blockPtr_eq] at hspec
      rw [← hstep]
      exact hfree hlive hh hspec (shows_pop hK.inv hh hplain hfwd hK.shows hrun)
  | tsPop p len intact =>
    obtain ⟨h, hlive⟩ := Option.isSome_iff_exists.1 hlegal
    obtain ⟨t, b, n, hh, -⟩ := hK.held hlive
    have hactive : U b = some (n, false) := hK.not_temporal hh ▸ hh.active
    obtain ⟨i, e, hd, he, hcov⟩ := hh.dispatch hK.inv
    rw [Trail.step_eq _ (by simp)] at hstep
    simp only [World.step] at hstep
    cases hrun : tsPop cfg w.world.arena p len intact with
    | error x =>
      simp only [hrun, bind, Except.bind, Except.map] at hstep
      exact absurd hstep (by simp)
    | ok r =>
      simp only [hrun, bind, Except.bind, Except.map, Except.ok.injEq] at hstep
      have hspec := (tsPop_spec hK.inv cfg len intact hd he (by rwa [hh.blockPtr_eq])
        (by rw [hh.blockPtr_eq]; exact hactive) (by rw [hh.blockPtr_eq]; exact hh.out)).ok hrun
      rw [hh.blockPtr_eq] at hspec
      rw [← hstep]
      refine hfree hlive hh (hspec.imp_right ?_) (shows_tsPop hK.inv hh hK.shows hrun)
      rintro ⟨hok, U', hF, -⟩
      exact ⟨hok, U', hF⟩
  | write p i v =>
    obtain ⟨h, hlive, hi⟩ := Option.any_eq_true _ _ |>.1 hlegal
    rw [Trail.step_eq _ (by simp)] at hstep
    obtain rfl := Except.ok.inj hstep
    exact ⟨U, hK.stores v hlive (of_decide_eq_true hi)⟩
  | launder sz gs => exact hop.elim
  | resize p newSz data gs => exact hop.elim
  | freeze p => exact hop.elim
  | resetPage p => exact hop.elim

theorem known_init (cfg : Config) {g₁ g₂ g₃ : Grant} (hg : Distinct g₁ g₂ g₃)
    (hclear : g₁.Cleared ∧ g₂.Cleared ∧ g₃.Cleared) (ha : start g₁ g₂ g₃ = some a) :
    Known cfg (Trail.init a) fun _ => none := by
  refine ⟨(inv_start hg ha).1, fun b n hb => absurd hb (by simp),
    fun hp => absurd hp (by simp [Trail.init, World.init]), fun hb => absurd hb (by simp), ?_⟩
  have hhead : ∀ {t : TierId} {g : Grant} {x : Tier t.Heap}, g.Valid → g.Cleared →
      headTier t g = some x → x.All (Shows cfg (fun _ => true = true) t) := by
    intro t g x hv hc hx
    have hnone : (Tier.fresh t.params).All (Shows cfg (fun _ => true = true) t) := fun e he =>
      absurd he List.not_mem_nil
    refine Tier.addSheet_all hnone (fun q _ _ => truthful_new t hc _ ?_ _) hx
    have := hv.2.2
    show g.chunk.ptr + (g.chunk.len - 0) ≤ 2 ^ 64
    omega
  have hall : AllEntries (Shows cfg fun _ => true = true) a := by
    simp only [start, Option.bind_eq_bind, Option.bind_eq_some_iff] at ha
    obtain ⟨x, hx, y, hy, z, hz, ha⟩ := ha
    obtain rfl := Option.some.inj ha
    have hfresh : AllEntries (Shows cfg fun _ => true = true)
        (fun t => Tier.fresh (TierId.params t)) := fun t e he => absurd he List.not_mem_nil
    exact ((hfresh.update (hhead hg.1.1 hclear.1 hx)).update
      (hhead hg.1.2.1 hclear.2.1 hy)).update (hhead hg.1.2.2 hclear.2.2 hz)
  exact fun t e he q _ hqc => hall t e he q rfl hqc

/-! ### The answer -/

theorem present_eq {e : Entry t.Heap} {i : ℕ} (hI : Inv a U) (hd : dispatch a p = some (t, i))
    (he : (a t).idx[i]? = some e) : present cfg a p =
      .ok (e.sheet.isBlockAllocated t.params (blockPtr cfg t p) && !(a t).cache.contains p) := by
  have hempty := (hI.tiers t).not_empty he
  have hzero := t.isAllocated_zero e.sheet.book
  have hfind : e.sheet.find t.params (blockPtr cfg t p) =
      .ok (e.sheet.isBlockAllocated t.params (blockPtr cfg t p)) := by
    unfold Sheet.find
    rw [hempty]
    by_cases hb : blockPtr cfg t p = 0
    · rw [hb]
      simp [Sheet.isBlockAllocated, hzero]
    · simp [hb, Sheet.isBlockAllocated]
  unfold present locateAt isCached
  rw [if_neg (ptr_ne_zero hI hd), hd]
  simp only [he, hfind, bind, Except.bind, Option.any_some]

/-- No block is parked behind a canary at `p`. -/
def Shown (cfg : Config) (a : Tiers) (p : ℕ) : Prop :=
  ∀ r ∈ dispatch a p, canaries cfg r.1 = true → (a r.1).cache.contains (blockPtr cfg r.1 p) = false

theorem Inv.parked_active (hI : Inv a U) (hp : Parked a b) :
    ∃ t, (∃ f ∈ (a t).frames, f.Covers b ∧ f.Covers (b + 16)) ∧ ∃ n, U b = some (n, false) := by
  obtain ⟨t, x, hx, rfl⟩ := hp
  obtain ⟨⟨f, hf, hfx⟩, n, hn, hle⟩ := (hI.tiers t).cached x hx
  obtain ⟨i, e, he, rfl⟩ := Tier.exists_entry hf
  obtain ⟨L, hL⟩ := (hI.tiers t).entry_holds he
  have hwhole := hL.whole t.refines hfx hn
  have h₁ : e.lo ≤ x.1 := hfx.1
  refine ⟨t, ⟨e.frame, hf, hfx, ⟨?_, ?_⟩⟩, n, hn⟩
  · show e.lo ≤ x.1 + 16
    omega
  · show x.1 + 16 < e.hi
    omega

/-- Blocks are longer than a canary. -/
theorem Inv.not_parked_inside (hI : Inv a U) (hU : U b = some (n, false)) (hn : 32 ≤ n) :
    ¬Parked a (b + 16) := by
  intro hp
  obtain ⟨-, -, m, hm⟩ := hI.parked_active hp
  rcases hI.blocks_disjoint hU hm (by omega) with h | h <;> omega

theorem shown_iff {i : ℕ} (hd : dispatch a p = some (t, i)) : Shown cfg a p ↔
    (canaries cfg t = true → (a t).cache.contains (blockPtr cfg t p) = false) := by
  unfold Shown
  rw [hd]
  simp

theorem Known.live_none (hK : Known cfg w U) (hd : dispatch w.world.arena p = none) :
    w.world.live p = none := by
  by_contra hne
  obtain ⟨h, hlive⟩ := Option.ne_none_iff_exists'.1 hne
  obtain ⟨t, b, n, hh, -⟩ := hK.held hlive
  obtain ⟨i, e, hd', -⟩ := hh.dispatch hK.inv
  rw [hd] at hd'
  exact absurd hd' (by simp)

section Dispatched
variable {e : Entry t.Heap} {i : ℕ}

/-- A live block is found, and neither its address nor its pointer is parked. -/
theorem Known.found (hK : Known cfg w U) (hd : dispatch w.world.arena p = some (t, i))
    (he : (w.world.arena t).idx[i]? = some e) (hlive : w.world.live p = some h) :
    e.sheet.isBlockAllocated t.params (blockPtr cfg t p) = true ∧
      (w.world.arena t).cache.contains p = false ∧
      (w.world.arena t).cache.contains (blockPtr cfg t p) = false := by
  have hI := hK.inv
  obtain ⟨s, b, n, hh, -⟩ := hK.held hlive
  obtain ⟨j, e', hd', he', hcovb⟩ := hh.dispatch hI
  rw [hd] at hd'
  simp only [Option.some.injEq, Prod.mk.injEq] at hd'
  obtain ⟨rfl, rfl⟩ := hd'
  rw [he] at he'
  obtain rfl := Option.some.inj he'
  have hactive : U b = some (n, false) := hK.not_temporal hh ▸ hh.active
  have hout : ¬Parked w.world.arena p := by
    rcases userPtr_sub cfg t b with hsub | hsub
    · rw [hh.ptr, hsub]
      exact hh.out
    · have hle := le_userPtr cfg t b
      have hw := hh.within
      have hp : p = b + 16 := by
        rw [hh.ptr]
        omega
      rw [hp]
      exact hI.not_parked_inside hactive (by omega)
  rw [hh.blockPtr_eq]
  exact ⟨((hI.tiers t).reports t.refines he hcovb hactive).1, contains_eq_false hout,
    contains_eq_false hh.out⟩

/-- A block that is found at a pointer that is not live is parked. -/
theorem Known.parked (hK : Known cfg w U) (he : (w.world.arena t).idx[i]? = some e)
    (hcov : e.frame.Covers p) (hsp : w.spoilt p = false) (hlive : w.world.live p = none)
    (hal : e.sheet.isBlockAllocated t.params (blockPtr cfg t p) = true) :
    Parked w.world.arena (blockPtr cfg t p) ∧ e.frame.Covers (blockPtr cfg t p) ∧
      userPtr cfg t (blockPtr cfg t p) = p := by
  have hI := hK.inv
  have hstarts := starts_of_truthful (hK.shows t e (List.mem_of_getElem? he) p hsp hcov) hal
  obtain ⟨hcovb, huser⟩ := hI.covers_blockPtr he hcov hstarts
  have hne : U (blockPtr cfg t p) ≠ none := by
    intro hnone
    rw [hI.not_allocated he hcovb hstarts hnone] at hal
    exact absurd hal (by decide)
  obtain ⟨⟨n, k⟩, hv⟩ := Option.ne_none_iff_exists'.1 hne
  refine ⟨?_, hcovb, huser⟩
  rcases hK.owned hv with hp | ⟨q, h, s, m, hq, hh⟩
  · exact hp
  · obtain ⟨g, hg, hgb⟩ := hh.covered
    obtain ⟨rfl, -⟩ := hI.frame_unique (Tier.mem_frames (List.mem_of_getElem? he)) hg hcovb hgb
    rw [hh.ptr, huser, hlive] at hq
    exact absurd hq (by simp)

/-- Behind the canary of a parked block nothing is parked. -/
theorem Inv.contains_behind (hI : Inv a U) (he : (a t).idx[i]? = some e)
    (hcov : e.frame.Covers (blockPtr cfg t p)) (hpark : Parked a (blockPtr cfg t p))
    (huser : userPtr cfg t (blockPtr cfg t p) = p) (hcan : canaries cfg t = true) :
    (a t).cache.contains p = false := by
  have hp : p = blockPtr cfg t p + 16 := by
    unfold userPtr at huser
    rw [if_pos hcan] at huser
    exact huser.symm
  obtain ⟨-, -, m, hm⟩ := hI.parked_active hpark
  obtain ⟨L, hL⟩ := (hI.tiers t).entry_holds he
  have hnot := hI.not_parked_inside hm (hL.extent t.refines hcov hm).1
  rw [← hp] at hnot
  exact contains_eq_false hnot

/-- The list of the sheet knows a block that is parked behind a canary. -/
theorem Inv.allocated_of_parked (hI : Inv a U) (he : (a t).idx[i]? = some e)
    (hcov : e.frame.Covers p) (hcan : canaries cfg t = true)
    (hc : (a t).cache.contains (blockPtr cfg t p) = true) :
    e.sheet.isBlockAllocated t.params (blockPtr cfg t p) = true := by
  have hpark : Parked a (blockPtr cfg t p) := by
    obtain ⟨x, hx, hxp⟩ := List.any_eq_true.1 hc
    exact ⟨t, x, hx, of_decide_eq_true hxp⟩
  obtain ⟨s, ⟨f, hf, hfb, hfp⟩, n, hn⟩ := hI.parked_active hpark
  have hp : f.Covers p := by
    have hlo := hfb.1
    have hhi := hfp.2
    have hle : blockPtr cfg t p ≤ p ∧ p ≤ blockPtr cfg t p + 16 := by
      unfold blockPtr
      rw [if_pos hcan]
      omega
    exact ⟨by omega, by omega⟩
  obtain ⟨rfl, rfl⟩ :=
    hI.frame_unique (Tier.mem_frames (List.mem_of_getElem? he)) hf hcov hp
  exact ((hI.tiers t).reports t.refines he hfb hn).1

end Dispatched

/-- `is_present` tells live from freed, unless a block is parked behind a canary. -/
theorem Known.present_iff (hK : Known cfg w U) (hsp : w.spoilt p = false) :
    present cfg w.world.arena p = .ok (w.world.live p).isSome ↔ Shown cfg w.world.arena p := by
  have hI := hK.inv
  cases hd : dispatch w.world.arena p with
  | none =>
    have hshown : Shown cfg w.world.arena p := fun r hr => absurd hr (by simp [hd])
    refine iff_of_true ?_ hshown
    unfold present locateAt
    rw [hd, hK.live_none hd]
    split_ifs <;> rfl
  | some d =>
    obtain ⟨t, i⟩ := d
    obtain ⟨e, he, hcov⟩ := hI.dispatch_eq_some.1 hd
    rw [present_eq hI hd he, shown_iff hd, Except.ok.injEq]
    cases hlive : w.world.live p with
    | some h =>
      obtain ⟨hal, hp, hb⟩ := hK.found hd he hlive
      rw [hal, hp, hb]
      simp
    | none =>
      rw [Option.isSome_none]
      cases hal : e.sheet.isBlockAllocated t.params (blockPtr cfg t p) with
      | true =>
        -- the block is parked: at its pointer without canaries, else in front of it
        obtain ⟨hpark, hcovb, huser⟩ := hK.parked he hcov hsp hlive hal
        have hc := hI.contains_of_parked he hcovb hpark
        by_cases hcan : canaries cfg t = true
        · rw [hc, hI.contains_behind he hcovb hpark huser hcan]
          simp [hcan]
        · have hp : blockPtr cfg t p = p := by
            unfold blockPtr
            rw [if_neg hcan]
          rw [hp] at hc ⊢
          rw [hc]
          simp [hcan]
      | false =>
        -- the list does not know the block, so that it is not parked either
        rw [Bool.false_and]
        refine iff_of_true rfl fun hcan => ?_
        by_contra hne
        rw [Bool.not_eq_false] at hne
        rw [hI.allocated_of_parked he hcov hcan hne] at hal
        exact absurd hal (by decide)

/-- In runs whose frees do not merge backward, for every pointer whose header was not covered. -/
theorem present_tells {g₁ g₂ g₃ : Grant} (hg : Distinct g₁ g₂ g₃)
    (hclear : g₁.Cleared ∧ g₂.Cleared ∧ g₃.Cleared) (ha : start g₁ g₂ g₃ = some a) {ops : List Op}
    (hops : ∀ op ∈ ops, ∀ g ∈ op.grants, g.Cleared)
    (hrun : Run (fun w op => w.Legal op ∧ Forward cfg w.world.arena op) (Trail.next cfg)
      (Trail.init a) ops w) (hp : w.spoilt p = false) :
    present cfg w.world.arena p = .ok (w.world.live p).isSome ↔ Shown cfg w.world.arena p := by
  have hknown : ∃ U, Known cfg w U := by
    apply hrun.invariant_mem hops fun w => ∃ U, Known cfg w U
    · rintro w op w' ⟨U, hK⟩ ⟨hlegal, hfwd⟩ hclear hstep
      have hstep : w.step cfg op = .ok w' := by
        unfold Trail.next at hstep
        cases hs : w.step cfg op with
        | error x => simp [hs, Except.toOption] at hstep
        | ok x =>
          simp only [hs, Except.toOption, Option.some.injEq] at hstep
          rw [hstep]
      exact hK.step hlegal hfwd hclear hstep
    · exact ⟨_, known_init cfg hg hclear ha⟩
  obtain ⟨U, hK⟩ := hknown
  exact hK.present_iff hp

theorem exists_trail (cfg : Config) (ok : Trail → Op → Prop) [∀ w op, Decidable (ok w op)]
    (g₁ g₂ g₃ : Grant) (ops : List Op) (P : Trail → Bool)
    (h : ((start g₁ g₂ g₃).any fun a =>
      (exec ok (Trail.next cfg) (Trail.init a) ops).any P) = true) :
    ∃ a w, start g₁ g₂ g₃ = some a ∧ Run ok (Trail.next cfg) (Trail.init a) ops w ∧ P w = true := by
  obtain ⟨a, ha, hexec⟩ := Option.any_eq_true _ _ |>.1 h
  obtain ⟨w, hw⟩ := exists_run_of_exec ok (Trail.next cfg) hexec
  exact ⟨a, w, ha, hw⟩

theorem cleared_clearGrant (p n : ℕ) : (clearGrant p n).Cleared := fun _ => rfl

/-- With redzones, a block freed from the back. -/
theorem present_tells_back : ∃ a w,
    start (clearGrant 65536 8192) (clearGrant 131072 8192) (clearGrant 262144 65536) = some a ∧
    Run (fun w op => w.Legal op ∧ Forward ⟨true, true, true⟩ w.world.arena op)
      (Trail.next ⟨true, true, true⟩) (Trail.init a)
      [.push 100 [], .push 100 [], .pop 65840 none true, .pop 65616 none true] w ∧
    w.spoilt 65840 = false ∧
    (present ⟨true, true, true⟩ w.world.arena 65840 = .ok (w.world.live 65840).isSome ↔
      Shown ⟨true, true, true⟩ w.world.arena 65840) := by
  obtain ⟨a, w, ha, hrun, hend⟩ := exists_trail ⟨true, true, true⟩
    (fun w op => w.Legal op ∧ Forward ⟨true, true, true⟩ w.world.arena op)
    (clearGrant 65536 8192) (clearGrant 131072 8192) (clearGrant 262144 65536)
    [.push 100 [], .push 100 [], .pop 65840 none true, .pop 65616 none true]
    (fun w => !w.spoilt 65840) (by decide +kernel)
  have htr : w.spoilt 65840 = false := by simpa using hend
  exact ⟨a, w, ha, hrun, htr, present_tells (by decide)
    ⟨cleared_clearGrant _ _, cleared_clearGrant _ _, cleared_clearGrant _ _⟩ ha
    (by simp [Op.grants]) hrun htr⟩

/-- Freed from the front, the second block is merged into the first and its own header still
reads as allocated. -/
theorem present_stale : ¬∀ (cfg : Config) (g₁ g₂ g₃ : Grant) (a : Tiers) (ops : List Op) (w : Trail)
    (p : ℕ), Distinct g₁ g₂ g₃ → g₁.Cleared ∧ g₂.Cleared ∧ g₃.Cleared →
    start g₁ g₂ g₃ = some a → (∀ op ∈ ops, ∀ g ∈ op.grants, g.Cleared) →
    Run Trail.Legal (Trail.next cfg) (Trail.init a) ops w → w.seen p = true →
    present cfg w.world.arena p = .ok (w.world.live p).isSome := by
  intro hall
  obtain ⟨a, w, ha, hrun, hend⟩ := exists_trail ⟨true, true, true⟩ Trail.Legal
    (clearGrant 65536 8192) (clearGrant 131072 8192) (clearGrant 262144 65536)
    [.push 100 [], .push 100 [], .pop 65616 none true, .pop 65840 none true]
    (fun w => w.seen 65840 && (w.world.live 65840).isNone &&
      (present ⟨true, true, true⟩ w.world.arena 65840).toOption = some true) (by decide +kernel)
  simp only [Bool.and_eq_true, decide_eq_true_eq, Option.isNone_iff_eq_none] at hend
  obtain ⟨⟨hseen, hlive⟩, hpresent⟩ := hend
  have h := hall ⟨true, true, true⟩ _ _ _ a _ w 65840 (by decide)
    ⟨cleared_clearGrant _ _, cleared_clearGrant _ _, cleared_clearGrant _ _⟩ ha
    (by simp [Op.grants]) hrun hseen
  rw [h, hlive] at hpresent
  exact absurd hpresent (by decide)

end Steps
end AbcMalloc.Arena
