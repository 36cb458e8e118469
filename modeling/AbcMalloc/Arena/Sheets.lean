import AbcMalloc.Arena.Tier
import AbcMalloc.LedgerRuns

/-! What the sheets of a tier hold. The blocks in use and not tombstoned are kept in one map
over user pointers, and a sheet holds its part of that map when its list refines a ledger that
agrees with the map on the range of the sheet. -/
namespace AbcMalloc.Arena
open Function Foundation

/-- Size of the block behind a user pointer, and whether it is temporal. -/
abbrev Active := ℕ → Option (ℕ × Bool)

/-- A tombstoned block is not active. -/
def activeEntry (v : ℕ × ℕ) : Option (ℕ × Bool) :=
  if v.2 = blockTombstone then none else some (v.1, v.2 = blockAlloc + blockTemporal)

def activeOf (header : ℕ) (L : Ledger) : Active := fun p => (L.used (p - header)).bind activeEntry

section ActiveOf
variable {header : ℕ} {L L' : Ledger} {b n f p : ℕ} {k : Bool}

theorem activeOf_eq_some : activeOf header L p = some (n, k) ↔
    ∃ f, L.used (p - header) = some (n, f) ∧ f ≠ blockTombstone ∧
      k = decide (f = blockAlloc + blockTemporal) := by
  unfold activeOf activeEntry
  constructor
  · intro h
    obtain ⟨⟨m, f⟩, hu, h⟩ := Option.bind_eq_some_iff.1 h
    simp only at h
    split_ifs at h with hf
    simp only [Option.some.injEq, Prod.mk.injEq] at h
    exact ⟨f, h.1 ▸ hu, hf, h.2.symm⟩
  · rintro ⟨f, hu, hf, rfl⟩
    rw [hu, Option.bind_some, if_neg hf]

/-- Changing one block of a ledger changes one active block. -/
theorem activeOf_update {v : Option (ℕ × ℕ)} (hb : 0 < b)
    (hu : L'.used = update L.used b v) :
    activeOf header L' = update (activeOf header L) (b + header) (v.bind activeEntry) := by
  funext p
  unfold activeOf
  rw [hu]
  by_cases hp : p = b + header
  · subst hp
    simp
  · rw [update_of_ne hp]
    by_cases hpb : p - header = b
    · omega
    · rw [update_of_ne hpb]

theorem activeOf_used (hb : L.used b = some (n, f)) (hf : f ≠ blockTombstone) :
    activeOf header L (b + header) = some (n, decide (f = blockAlloc + blockTemporal)) :=
  activeOf_eq_some.2 ⟨f, by rw [Nat.add_sub_cancel]; exact hb, hf, rfl⟩

end ActiveOf

/-! ## Frames -/

/-- What an index entry says about a sheet, without its list. -/
structure Frame where
  lo : ℕ
  hi : ℕ
  head : Bool
  mem : Chunk
  guard : ℕ
  deriving DecidableEq

namespace Frame

def stop (f : Frame) : ℕ := f.mem.ptr + f.mem.len

def Covers (f : Frame) (p : ℕ) : Prop := f.lo ≤ p ∧ p < f.hi

/-- The entry describes its chunk without the guard page. -/
structure Good (f : Frame) : Prop where
  pos : 0 < f.lo
  lt : f.lo < f.hi
  ptr : f.mem.ptr = f.lo
  hi : f.hi + f.guard = f.stop
  top : f.stop < 2 ^ 64

theorem Good.hi_le {f : Frame} (h : f.Good) : f.hi ≤ f.stop := by
  have := h.hi
  omega

end Frame

def Entry.frame {σ : Type*} (e : Entry σ) : Frame :=
  ⟨e.lo, e.hi, e.head, e.sheet.mem, e.sheet.guard⟩

def Tier.frames {σ : Type*} (t : Tier σ) : List Frame := t.idx.map Entry.frame

/-! ## Sheets of a refining list -/

section Sheets
variable {σ : Type*} {T : Params σ} {fits : ℕ → Bool} {Rep : σ → Ledger → Prop} {U U' : Active}
  {e : Entry σ} {L : Ledger}

/-- A list whose state refines the ledger `L`, in a sheet that holds its part of `U`. -/
structure Entry.Holds (T : Params σ) (Rep : σ → Ledger → Prop) (U : Active) (e : Entry σ)
    (L : Ledger) : Prop where
  rep : Rep e.sheet.book L
  balanced : L.Balanced
  lo_le : e.lo + T.book.header ≤ L.lo
  le_hi : L.hi + T.book.header ≤ e.hi
  active : ∀ p, e.frame.Covers p → U p = activeOf T.book.header L p
  ring : ∀ b, L.ring b → ∃ n, U (b + T.book.header) = some (n, true)

/-- A request is served: by a block that was not in use or, for a temporal request, by one that
is already out. -/
def Serves (U U' : Active) (p n : ℕ) (temporal : Bool) : Prop :=
  (U p = none ∧ U' = update U p (some (n, temporal))) ∨
    (temporal = true ∧ U p = some (n, true) ∧ U' = U)

theorem Serves.of_ne {p n q : ℕ} {k : Bool} (h : Serves U U' p n k) (hq : q ≠ p) : U' q = U q := by
  rcases h with ⟨-, rfl⟩ | ⟨-, -, rfl⟩
  · exact update_of_ne hq _ _
  · rfl

theorem Serves.at {p n : ℕ} {k : Bool} (h : Serves U U' p n k) : U' p = some (n, k) := by
  rcases h with ⟨-, rfl⟩ | ⟨rfl, h, rfl⟩
  · exact update_self _ _ _
  · exact h

theorem Serves.mono {p n q : ℕ} {k : Bool} {v : ℕ × Bool} (h : Serves U U' p n k)
    (hq : U q = some v) : U' q = some v := by
  by_cases hqp : q = p
  · subst hqp
    rcases h with ⟨h, -⟩ | ⟨-, -, rfl⟩
    · rw [h] at hq
      exact absurd hq (by simp)
    · exact hq
  · rw [h.of_ne hqp, hq]

namespace Entry.Holds

/-- The user pointer of a block in use lies in the range of its sheet. -/
theorem covers (hT : Refines T.book fits Rep) (h : e.Holds T Rep U L) {b n f : ℕ}
    (hb : L.used b = some (n, f)) : e.frame.Covers (b + T.book.header) := by
  have hV := hT.valid h.rep
  have h₁ := hV.within hb
  have h₂ := hV.size hb
  have h₃ := h.lo_le
  have h₄ := h.le_hi
  constructor
  · show e.lo ≤ b + T.book.header
    omega
  · show b + T.book.header < e.hi
    omega

theorem used (hT : Refines T.book fits Rep) (h : e.Holds T Rep U L) {p n : ℕ} {k : Bool}
    (hp : e.frame.Covers p) (hU : U p = some (n, k)) :
    ∃ b f, p = b + T.book.header ∧ L.used b = some (n, f) ∧ f ≠ blockTombstone ∧
      k = decide (f = blockAlloc + blockTemporal) := by
  rw [h.active p hp] at hU
  obtain ⟨f, hu, hf, hk⟩ := activeOf_eq_some.1 hU
  have hV := hT.valid h.rep
  have h₁ := hV.within hu
  have h₂ := hV.pos
  exact ⟨p - T.book.header, f, by omega, hu, hf, hk⟩

/-- The whole block of a user pointer, without the bytes of its header, lies in the range. -/
theorem extent (hT : Refines T.book fits Rep) (h : e.Holds T Rep U L) {p n : ℕ} {k : Bool}
    (hp : e.frame.Covers p) (hU : U p = some (n, k)) : 32 ≤ n ∧ p + (n - 32) ≤ e.hi := by
  obtain ⟨b, f, rfl, hb, -, -⟩ := h.used hT hp hU
  have hV := hT.valid h.rep
  have h₁ := hV.within hb
  have h₂ := hV.size hb
  have h₃ := h.le_hi
  omega

theorem whole (hT : Refines T.book fits Rep) (h : e.Holds T Rep U L) {p n : ℕ} {k : Bool}
    (hp : e.frame.Covers p) (hU : U p = some (n, k)) : p + n ≤ e.hi := by
  obtain ⟨b, f, rfl, hb, -, -⟩ := h.used hT hp hU
  have h₁ := (hT.valid h.rep).within hb
  have h₂ := h.le_hi
  omega

/-- Two active blocks of a sheet do not overlap. -/
theorem apart (hT : Refines T.book fits Rep) (h : e.Holds T Rep U L) {p q n m : ℕ} {k k' : Bool}
    (hp : e.frame.Covers p) (hU : U p = some (n, k)) (hq : e.frame.Covers q)
    (hU' : U q = some (m, k')) (hne : p ≠ q) : p + n ≤ q ∨ q + m ≤ p := by
  obtain ⟨b, f, rfl, hb, -, -⟩ := h.used hT hp hU
  obtain ⟨c, g, rfl, hc, -, -⟩ := h.used hT hq hU'
  have := (hT.valid h.rep).disjoint hb hc fun hbc => hne (by rw [hbc])
  omega

/-- A sheet only depends on its own part of the map. -/
theorem congr (hT : Refines T.book fits Rep) (h : e.Holds T Rep U L)
    (hU : ∀ p, e.frame.Covers p → U' p = U p) : e.Holds T Rep U' L where
  rep := h.rep
  balanced := h.balanced
  lo_le := h.lo_le
  le_hi := h.le_hi
  active p hp := (hU p hp).trans (h.active p hp)
  ring b hb := by
    obtain ⟨n, f, hu, -⟩ := (hT.valid h.rep).ring hb
    obtain ⟨m, hm⟩ := h.ring b hb
    exact ⟨m, (hU _ (h.covers hT hu)).trans hm⟩

/-- A drained sheet has no active block. -/
theorem inactive_of_used (hT : Refines T.book fits Rep) (h : e.Holds T Rep U L)
    (hused : e.sheet.used T = 0) {p : ℕ} (hp : e.frame.Covers p) : U p = none := by
  by_contra hne
  obtain ⟨⟨n, k⟩, hU⟩ := Option.ne_none_iff_exists'.1 hne
  obtain ⟨b, f, rfl, hb, hf, -⟩ := h.used hT hp hU
  have hV := hT.valid h.rep
  have hzero : L.allocated = 0 := (hT.used h.rep).symm.trans hused
  have hle := le_mass liveWeight L.used (hV.within hb).1
    (show b < L.hi by have := hV.within hb; have := hV.size hb; omega)
  rw [← h.balanced.1, hzero, hb] at hle
  have := hV.size hb
  simp only [Option.elim_some, liveWeight, if_neg hf, Nat.le_zero] at hle
  omega

theorem change (h : e.Holds T Rep U L) {s : σ} {L' : Ledger} {q : ℕ} {v : Option (ℕ × Bool)}
    (hrep : Rep s L') (hbal : L'.Balanced) (hlo : L'.lo = L.lo) (hhi : L'.hi = L.hi)
    (hact : activeOf T.book.header L' = update (activeOf T.book.header L) q v)
    (hring : ∀ b, L'.ring b → ∃ n, update U q v (b + T.book.header) = some (n, true)) :
    Entry.Holds T Rep (update U q v) { e with sheet := { e.sheet with book := s } } L' where
  rep := hrep
  balanced := hbal
  lo_le := by
    rw [hlo]
    exact h.lo_le
  le_hi := by
    rw [hhi]
    exact h.le_hi
  active p hp := by
    rw [hact]
    by_cases hpq : p = q
    · subst hpq
      rw [update_self, update_self]
    · rw [update_of_ne hpq, update_of_ne hpq]
      exact h.active p hp
  ring := hring

theorem opens (hT : Refines T.book fits Rep) (h : e.Holds T Rep U L) {s : σ} {L' : Ledger}
    {b n f : ℕ} (hrep : Rep s L') (hO : L.Opens L' b n f)
    (hf : f = blockAlloc ∨ f = blockAlloc + blockTemporal) :
    e.frame.Covers (b + T.book.header) ∧ U (b + T.book.header) = none ∧
      Entry.Holds T Rep
        (update U (b + T.book.header) (some (n, decide (f = blockAlloc + blockTemporal))))
        { e with sheet := { e.sheet with book := s } } L' := by
  have hV' := hT.valid hrep
  have hb' : L'.used b = some (n, f) := by rw [hO.used, update_self]
  have hne : f ≠ blockTombstone := by rcases hf with rfl | rfl <;> decide
  have hb := hV'.within hb'
  have hpos := hV'.pos
  have hcov : e.frame.Covers (b + T.book.header) := by
    have h₁ := hV'.size hb'
    have h₂ := h.lo_le
    have h₃ := h.le_hi
    rw [← hO.lo] at h₂
    rw [← hO.hi] at h₃
    constructor
    · show e.lo ≤ b + T.book.header
      omega
    · show b + T.book.header < e.hi
      omega
  have hnone : U (b + T.book.header) = none := by
    rw [h.active _ hcov]
    unfold activeOf
    rw [Nat.add_sub_cancel, hO.unused]
    rfl
  refine ⟨hcov, hnone, ?_⟩
  apply h.change hrep (h.balanced.opens hV' hO hf) hO.lo hO.hi
  · rw [activeOf_update (by omega) hO.used]
    simp only [Option.bind_some, activeEntry, if_neg hne]
  · intro x hx
    by_cases hxb : x = b
    · subst hxb
      obtain ⟨m, g, hm, hg⟩ := hV'.ring hx
      rw [hb'] at hm
      simp only [Option.some.injEq, Prod.mk.injEq] at hm
      obtain ⟨rfl, rfl⟩ := hm
      have hg : f = blockAlloc + blockTemporal := hg.resolve_right hne
      exact ⟨n, by rw [update_self, decide_eq_true hg]⟩
    · obtain ⟨m, hm⟩ := h.ring x ((hO.ring hx).resolve_left hxb)
      exact ⟨m, by rw [update_of_ne (by omega), hm]⟩

/-- An active block goes away; a temporal one must leave its ring. -/
theorem removes (h : e.Holds T Rep U L) {s : σ} {L' : Ledger} {b : ℕ}
    {v : Option (ℕ × ℕ)} (hrep : Rep s L') (hbal : L'.Balanced) (hlo : L'.lo = L.lo)
    (hhi : L'.hi = L.hi) (hb : 0 < b) (hu : L'.used = update L.used b v)
    (hv : v.bind activeEntry = none) (hring : ∀ {x}, L'.ring x → L.ring x) (hnot : ¬L'.ring b) :
    Entry.Holds T Rep (update U (b + T.book.header) none)
      { e with sheet := { e.sheet with book := s } } L' := by
  apply h.change hrep hbal hlo hhi
  · rw [activeOf_update hb hu, hv]
  · intro x hx
    have hxb : x ≠ b := by
      rintro rfl
      exact hnot hx
    obtain ⟨m, hm⟩ := h.ring x (hring hx)
    exact ⟨m, by rw [update_of_ne (by omega), hm]⟩

theorem mark (hT : Refines T.book fits Rep) (h : e.Holds T Rep U L) (hlive : e.sheet.empty = false)
    (temporal : Bool) {sz : ℕ} (hfit : fits sz = true) :
    e.sheet.mark T temporal sz = .ok (.null, e.sheet) ∨
      ∃ p n b U' L', e.sheet.mark T temporal sz = .ok (⟨p, n - 32⟩, { e.sheet with book := b }) ∧
        p ≠ 0 ∧ e.frame.Covers p ∧ Serves U U' p n temporal ∧
        Entry.Holds T Rep U' { e with sheet := { e.sheet with book := b } } L' ∧
        (temporal = false → sz + 32 ≤ n) := by
  have hpos := (hT.valid h.rep).pos
  have hmark : ∀ {c : Chunk} {b : σ},
      (if temporal then T.book.temporalAllocate e.sheet.book sz
        else T.book.allocate e.sheet.book sz) = some (c, b) →
      e.sheet.mark T temporal sz = .ok (c, { e.sheet with book := b }) := by
    intro c b hb
    unfold Sheet.mark
    rw [hlive]
    simp only [Bool.false_eq_true, if_false]
    rw [hb]
  cases temporal with
  | false =>
    rcases hT.allocate h.rep hfit with hnull | ⟨b, n, s, L', hal, hrep, hO, hn⟩
    · exact Or.inl (hmark hnull)
    · obtain ⟨hcov, hnone, hH⟩ := h.opens hT hrep hO (Or.inl rfl)
      have h₀ : 0 < b := by
        have := (hT.valid hrep).pos
        have := ((hT.valid hrep).within (show L'.used b = some (n, blockAlloc) by
          rw [hO.used, update_self])).1
        omega
      exact Or.inr ⟨_, n, s, _, L', hmark hal, by omega, hcov, Or.inl ⟨hnone, rfl⟩, hH,
        fun _ => hn⟩
  | true =>
    rcases hT.temporalAllocate h.rep hfit with hnull |
      ⟨b, n, f, s, L', hal, hrep, hK, hring, hb⟩ | ⟨b, n, s, L', hal, hrep, hO⟩
    · exact Or.inl (hmark hnull)
    · have hcov := h.covers hT hb
      obtain ⟨m, hm⟩ := h.ring b hring
      obtain ⟨c, g, hc, hu, -, -⟩ := h.used hT hcov hm
      obtain rfl : b = c := by omega
      rw [hb] at hu
      simp only [Option.some.injEq, Prod.mk.injEq] at hu
      obtain ⟨rfl, rfl⟩ := hu
      have h₀ := ((hT.valid h.rep).within hb).1
      refine Or.inr ⟨_, n, s, U, L', hmark hal, by omega, hcov, Or.inr ⟨rfl, hm, rfl⟩, ?_, by simp⟩
      have hact : activeOf T.book.header L' = activeOf T.book.header L := by
        unfold activeOf
        rw [hK.used]
      exact ⟨hrep, h.balanced.keeps hK, by rw [hK.lo]; exact h.lo_le, by rw [hK.hi]; exact h.le_hi,
        fun p hp => by rw [hact]; exact h.active p hp, fun x hx => h.ring x (hK.ring hx)⟩
    · obtain ⟨hcov, hnone, hH⟩ := h.opens hT hrep hO (Or.inr rfl)
      have h₀ : 0 < b := by
        have := (hT.valid hrep).pos
        have := ((hT.valid hrep).within (show L'.used b = some (n, blockAlloc + blockTemporal) by
          rw [hO.used, update_self])).1
        omega
      exact Or.inr ⟨_, n, s, _, L', hmark hal, by omega, hcov, Or.inl ⟨hnone, rfl⟩, hH, by simp⟩

theorem tryRemove (hT : Refines T.book fits Rep) (h : e.Holds T Rep U L)
    (hlive : e.sheet.empty = false) {tomb : Bool} (sized : Bool) {p n : ℕ} {k : Bool}
    (hp : e.frame.Covers p) (hU : U p = some (n, k)) (hk : k = true → tomb = false) :
    ∃ b L', e.sheet.tryRemove T tomb sized p = .ok (true, { e.sheet with book := b }) ∧
      Entry.Holds T Rep (update U p none) { e with sheet := { e.sheet with book := b } } L' := by
  obtain ⟨b, f, rfl, hb, hf, hkf⟩ := h.used hT hp hU
  have hV := hT.valid h.rep
  have h₀ : 0 < b := by
    have := hV.pos
    have := (hV.within hb).1
    omega
  have hp₀ : b + T.book.header ≠ 0 := by omega
  cases tomb with
  | false =>
    obtain ⟨s, L', hde, hrep, hC⟩ := hT.deallocate h.rep hb fun hft => absurd hft hf
    refine ⟨s, L', ?_, ?_⟩
    · simp only [Sheet.tryRemove, hlive, hp₀, hde, Bool.false_eq_true, or_self, if_false]
      simp
    · apply h.removes hrep (h.balanced.closes hV hC hb hf) hC.lo hC.hi h₀ hC.used rfl hC.ring
      intro hr
      obtain ⟨m, g, hm, -⟩ := (hT.valid hrep).ring hr
      rw [hC.used, update_self] at hm
      exact absurd hm (by simp)
  | true =>
    obtain ⟨s, L', hts, hrep, hB⟩ := hT.tombstone h.rep hb hf
    refine ⟨s, L', ?_, ?_⟩
    · simp only [Sheet.tryRemove, hlive, hp₀, hts, Bool.false_eq_true, or_self, if_false, if_true]
      simp
    · apply h.removes hrep (h.balanced.buries hV (hT.valid hrep) hB hb hf) hB.lo hB.hi h₀ hB.used
        rfl hB.ring
      intro hr
      obtain ⟨m, hm⟩ := h.ring b (hB.ring hr)
      rw [hU] at hm
      simp only [Option.some.injEq, Prod.mk.injEq] at hm
      exact absurd (hk hm.2) (by decide)

end Entry.Holds
end Sheets
end AbcMalloc.Arena
