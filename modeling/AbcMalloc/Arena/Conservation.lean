import AbcMalloc.Arena.Stats

/-! The statistics are conserved as long as a free names a live pointer: then the bytes in use are
the sum of the sizes of the live pointers, and no more is released than was granted. -/
namespace AbcMalloc.Arena
open Function Foundation

/-! ## Sizes of live pointers -/

section Sizes
variable {cfg : Config} {w : World} {a a' : Tiers} {U U' : Active} {t : TierId} {p q b n sz : ℕ}
  {h : Held} {c : Chunk}

/-- Blocks of the lists behind the precise and small tiers. -/
theorem TierId.Rep.size_ge {t : TierId} (ht : t.params.redzoned = true) {s : t.Heap} {L : Ledger}
    {f : ℕ} (hrep : t.Rep s L) (hb : L.used b = some (n, f)) : 64 ≤ n := by
  have htlsf : ∀ {s : Tlsf.Heap}, OrRefused tlsfRefused Tlsf.TlsfRep s L → 64 ≤ n := by
    rintro s (⟨A, hG, rfl⟩ | ⟨-, -, hV⟩)
    · exact hG.phys.size_ge (Tlsf.used_eq_some.1 hb).1
    · rw [hV.used] at hb
      exact absurd hb (by simp)
  cases t with
  | precise => exact htlsf hrep
  | small => exact htlsf hrep
  | medium => exact absurd ht (by decide)
  | large => exact absurd ht (by decide)
  | huge => exact absurd ht (by decide)

def Sized (cfg : Config) (a : Tiers) (p : ℕ) (h : Held) : Prop :=
  sizeOfAlloc cfg a p ≠ 0 ∨ cfg.redzone = true ∧ h.len = 0

/-- A pushed chunk has a size, except that a chunk of no bytes with canaries may have none. -/
theorem Given.sized
    (hg : Given a U false (.ofSize (rzInflate cfg sz)) (rzInflate cfg sz) c a' U')
    (hh : Handle cfg a' U' (rzApply cfg sz c).ptr ⟨(rzApply cfg sz c).len, false⟩
      (.ofSize (rzInflate cfg sz)) c.ptr n) :
    Sized cfg a' (rzApply cfg sz c).ptr ⟨(rzApply cfg sz c).len, false⟩ := by
  unfold Sized
  have hsize := hh.sizeOfAlloc_eq hg.inv
  obtain ⟨hlen, -, -⟩ := hh.sizeOfAlloc_le hg.inv
  have hwithin := hh.within
  by_cases hpos : 0 < (rzApply cfg sz c).len
  · left
    dsimp only at hlen
    omega
  · have hcan := canaries_ofSize cfg sz
    by_cases hrz : rzActive cfg sz = true
    · right
      rw [rzApply, if_pos hrz] at hpos ⊢
      simp only [rzActive, Bool.and_eq_true] at hrz
      exact ⟨hrz.1, Nat.eq_zero_of_not_pos hpos⟩
    · -- only a request of no bytes gets none, and it is served by the precise tier
      left
      have happly : rzApply cfg sz c = c := if_neg hrz
      rw [hcan, if_neg hrz] at hsize
      rw [happly] at hpos
      have hzero : rzInflate cfg sz = 0 := by
        have := hg.enough rfl
        omega
      have hred : (TierId.ofSize (rzInflate cfg sz)).params.redzoned = true := by
        rw [redzoned_ofSize, hzero]
        rfl
      obtain ⟨i, e, -, he, hcov⟩ := hh.dispatch hg.inv
      obtain ⟨L, hL⟩ := (hg.inv.tiers _).entry_holds he
      obtain ⟨x, f, -, hx, -, -⟩ := hL.used (TierId.refines _) hcov hh.active
      have hge := TierId.Rep.size_ge hred hL.rep hx
      omega

/-- The size of a live pointer does not change while its block stays where it is. -/
theorem Handle.sizeOfAlloc_congr (hI : Inv a U) (hI' : Inv a' U') (hh : Handle cfg a U p h t b n)
    (hh' : Handle cfg a' U' p h t b n) : sizeOfAlloc cfg a' p = sizeOfAlloc cfg a p := by
  rw [hh.sizeOfAlloc_eq hI, hh'.sizeOfAlloc_eq hI']

/-- There is an address for each byte of the live chunks. -/
theorem Sound.sum_lt (hS : Sound cfg w U) {S : Finset ℕ}
    (hlive : ∀ p ∈ S, (w.live p).isSome = true) :
    ∑ p ∈ S, sizeOfAlloc cfg w.arena p < 2 ^ 64 := by
  have hheld : ∀ p ∈ S, ∃ h t b n, Handle cfg w.arena U p h t b n := by
    intro p hp
    obtain ⟨h, hh⟩ := Option.isSome_iff_exists.1 (hlive p hp)
    exact ⟨h, hS.held hh⟩
  have hle : ∑ p ∈ S, sizeOfAlloc cfg w.arena p ≤ 2 ^ 64 - 1 := by
    apply sum_le_of_apart id
    · intro p hp
      obtain ⟨h, t, b, n, hh⟩ := hheld p hp
      obtain ⟨-, hbp, hfit⟩ := hh.sizeOfAlloc_le hS.inv
      obtain ⟨f, hf, -, -, hhi⟩ := hh.frame hS.inv
      have hgood := (hS.inv.tiers t).good f hf
      have h₁ := hgood.hi_le
      have h₂ := hgood.top
      show p + sizeOfAlloc cfg w.arena p ≤ 2 ^ 64 - 1
      omega
    · intro p hp q hq hne
      obtain ⟨h, t, b, n, hh⟩ := hheld p hp
      obtain ⟨h', s, b', m, hh'⟩ := hheld q hq
      obtain ⟨-, hbp, hfit⟩ := hh.sizeOfAlloc_le hS.inv
      obtain ⟨-, hbq, hfit'⟩ := hh'.sizeOfAlloc_le hS.inv
      have hbb : b ≠ b' := by
        rintro rfl
        exact hne (hh.ptr_unique hS.inv hh')
      show p + sizeOfAlloc cfg w.arena p ≤ q ∨ q + sizeOfAlloc cfg w.arena q ≤ p
      rcases hS.inv.blocks_disjoint hh.active hh'.active hbb with hapart | hapart <;> omega
  omega

end Sizes

/-! ## Steps -/

structure Metered.Good (cfg : Config) (m : Metered) (U : Active) : Prop where
  sound : Sound cfg m.world U
  plain : m.world.Plain
  tally : Tally m.world.live (sizeOfAlloc cfg m.world.arena) m.stats
  sized : ∀ {p h}, m.world.live p = some h → Sized cfg m.world.arena p h

namespace Metered.Good
variable {cfg : Config} {m : Metered} {w : World} {s : Stats} {a : Tiers} {U U' : Active}
    {t : TierId}
  {p b n sz : ℕ} {h : Held} {c : Chunk}

theorem congr (hG : Good cfg m U) {m' : Metered} (ha : m'.world.arena = m.world.arena)
    (hl : m'.world.live = m.world.live)
    (hs : m'.stats.currentMemoryUsage = m.stats.currentMemoryUsage ∧
      m'.stats.totalMemoryFreed = m.stats.totalMemoryFreed ∧
      m'.stats.totalMemoryThroughput = m.stats.totalMemoryThroughput) : Good cfg m' U where
  sound := ⟨ha ▸ hG.sound.inv, fun hp => ha ▸ hG.sound.held (hl ▸ hp)⟩
  plain p := by
    rw [hl]
    exact hG.plain p
  tally := by
    rw [ha]
    exact hG.tally.congr (fun p => by rw [hl]) (fun _ _ => rfl) hs
  sized hp := by
    rw [ha]
    exact hG.sized (hl ▸ hp)

theorem idle (hG : Good cfg m U) (hI : Inv a U) (hparked : ∀ q, Parked a q → Parked m.world.arena q)
    (hgrows : Grows m.world.arena a) : Good cfg ⟨{ m.world with arena := a }, m.stats⟩ U := by
  have hsize : ∀ q, (m.world.live q).isSome = true →
      sizeOfAlloc cfg a q = sizeOfAlloc cfg m.world.arena q := by
    intro q hq
    obtain ⟨h, hq⟩ := Option.isSome_iff_exists.1 hq
    obtain ⟨t, b, n, hh⟩ := hG.sound.held hq
    obtain ⟨f, hf, hfb⟩ := hh.covered
    exact hh.sizeOfAlloc_congr hG.sound.inv hI
      (hh.congr rfl ⟨f, hgrows t f hf, hfb⟩ (hparked b))
  refine ⟨hG.sound.idle hI hparked hgrows, hG.plain, hG.tally.congr (fun _ => rfl) hsize
    ⟨rfl, rfl, rfl⟩, fun {q h} hq => ?_⟩
  unfold Sized
  rw [show sizeOfAlloc cfg a q = _ from hsize q (by rw [show m.world.live q = _ from hq]; rfl)]
  exact hG.sized hq

theorem serve (hG : Good cfg m U)
    (hg : Given m.world.arena U false (.ofSize (rzInflate cfg sz)) (rzInflate cfg sz) c a U') :
    Good cfg ⟨m.world.receive cfg false (.ofSize (rzInflate cfg sz)) (rzApply cfg sz c) a,
      m.stats.serve cfg sz (some (rzApply cfg sz c), a)⟩ U' := by
  have hcan := canaries_ofSize cfg sz
  have hS := hG.sound.receive hg hcan (by simp)
  obtain ⟨n, hnew⟩ := hg.handle hG.sound.inv hcan (by simp)
  have hsized := hg.sized hnew
  have hne : ∀ q h, m.world.live q = some h → q ≠ (rzApply cfg sz c).ptr := by
    intro q h hq
    obtain ⟨t, b, n, hh⟩ := hG.sound.held hq
    exact hg.not_held hnew hG.sound.inv hh
  have hsize : ∀ q, (m.world.live q).isSome = true →
      sizeOfAlloc cfg a q = sizeOfAlloc cfg m.world.arena q := by
    intro q hq
    obtain ⟨h, hq⟩ := Option.isSome_iff_exists.1 hq
    obtain ⟨t, b, n, hh⟩ := hG.sound.held hq
    exact hh.sizeOfAlloc_congr hG.sound.inv hg.inv
      (hg.keeps hG.sound.inv hh (by rw [← rzApply_ptr hcan]; exact hne q h hq))
  refine ⟨hS, hG.plain.receive cfg _ _ _, ?_, fun {q h} hq => ?_⟩
  · have hT : Tally m.world.live (sizeOfAlloc cfg m.world.arena) (m.stats.request sz) :=
      hG.tally.congr (fun _ => rfl) (fun _ _ => rfl) ⟨rfl, rfl, rfl⟩
    apply hT.grant
    · cases hlive : m.world.live (rzApply cfg sz c).ptr with
      | none => rfl
      | some h => exact absurd rfl (hne _ h hlive)
    · unfold statsReleaseSize
      split_ifs with hzero
      · obtain ⟨hlen, -, -⟩ := hnew.sizeOfAlloc_le hg.inv
        have hzero : sizeOfAlloc cfg a (rzApply cfg sz c).ptr = 0 := hzero
        show sizeOfAlloc cfg a (rzApply cfg sz c).ptr = (rzApply cfg sz c).len
        dsimp only at hlen
        omega
      · rfl
    · exact hsize
    · exact fun S hlive => hS.sum_lt hlive
  · dsimp only [World.receive] at hq ⊢
    rw [update_apply] at hq
    split_ifs at hq with hqc
    · obtain rfl := Option.some.inj hq
      rw [hqc]
      exact hsized
    · unfold Sized
      rw [hsize q (by rw [hq]; rfl)]
      exact hG.sized hq

/-- A live chunk is freed. -/
theorem release (hG : Good cfg m U) (hlive : m.world.live p = some h)
    (hh : Handle cfg m.world.arena U p h t b n) (hF : Freed m.world.arena U b a U') :
    Good cfg ⟨m.world.release p (true, a), m.stats.freed (sizeOfAlloc cfg m.world.arena p)⟩ U' := by
  have hS := hG.sound.release hh hF
  have hsize : ∀ q, q ≠ p → (m.world.live q).isSome = true →
      sizeOfAlloc cfg a q = sizeOfAlloc cfg m.world.arena q := by
    intro q hqp hq
    obtain ⟨h', hq⟩ := Option.isSome_iff_exists.1 hq
    obtain ⟨s, b', n', hh'⟩ := hG.sound.held hq
    apply hh'.sizeOfAlloc_congr hG.sound.inv hF.inv
    apply hF.keeps hG.sound.inv hh'
    rintro rfl
    exact hqp (hh'.ptr_unique hG.sound.inv hh)
  refine ⟨hS, hG.plain.release _ _, ?_, fun {q h'} hq => ?_⟩
  · exact hG.tally.release (by rw [hlive]; rfl) hsize
  · dsimp only [World.release] at hq ⊢
    rw [if_pos rfl, update_apply] at hq
    split_ifs at hq with hqp
    unfold Sized
    rw [hsize q hqp (by rw [hq]; rfl)]
    exact hG.sized hq

end Metered.Good

/-! ## Clients whose frees are counted once -/

/-- Nothing is counted: the free is refused at once, or there is neither a sheet registered for the
pointer nor a length. -/
def Uncounted (a : Tiers) (p : ℕ) (adm : Option ℕ) (len : ℕ) : Prop :=
  p = 0 ∨ freeAdmit p adm = false ∨ (len = 0 ∧ dispatch a p = none)

/-- The list does not know the pointer, nor is there a size for it. -/
def Unknown (cfg : Config) (a : Tiers) (p : ℕ) (len : Option ℕ) : Prop :=
  cfg.redzone = false ∧ len.getD 0 = 0 ∧ sizeOfAlloc cfg a p = 0 ∧
    ∀ r ∈ dispatch a p, (len.isSome = true → r.1.params.cacheSlots ≠ 0) ∧
      ∀ e ∈ (a r.1).idx[r.2]?, e.sheet.isBlockAllocated r.1.params p = false

/-- The free is that of a live pointer with intact canaries. With canaries a chunk of no bytes is
freed without a length. -/
def Releases (cfg : Config) (w : World) (p len : ℕ) (intact : Bool) : Prop :=
  ((w.live p).any fun h => !(cfg.redzone && h.len = 0 && len ≠ 0)) = true ∧
    ∀ r ∈ dispatch w.arena p, (canaries cfg r.1 && !intact) = false

def Counted (cfg : Config) (w : World) : Metered.Act → Prop
  | .op (.pop p len intact) => Uncounted w.arena p len (len.getD 0) ∨
      Unknown cfg w.arena p len ∨ Releases cfg w p (len.getD 0) intact
  | .op (.tsPop p len intact) =>
    Uncounted w.arena p len (len.getD 0) ∨ Releases cfg w p (len.getD 0) intact
  | .op (.resize p _ _ _) =>
    (w.live p).isSome = true ∨ isCached w.arena p = true ∨ sizeOfAlloc cfg w.arena p = 0
  | .op _ => True
  | .popChunk mem intact => Uncounted w.arena mem.ptr none mem.len ∨
      Unknown cfg w.arena mem.ptr (some mem.len) ∨ Releases cfg w mem.ptr mem.len intact
  | .tsPopChunk mem intact =>
    Uncounted w.arena mem.ptr none mem.len ∨ Releases cfg w mem.ptr mem.len intact

instance (a : Tiers) (p : ℕ) (adm : Option ℕ) (len : ℕ) : Decidable (Uncounted a p adm len) :=
  inferInstanceAs (Decidable (_ ∨ _))

instance (cfg : Config) (a : Tiers) (p : ℕ) (len : Option ℕ) : Decidable (Unknown cfg a p len) :=
  inferInstanceAs (Decidable (_ ∧ _))

instance (cfg : Config) (w : World) (p len : ℕ) (intact : Bool) :
    Decidable (Releases cfg w p len intact) :=
  inferInstanceAs (Decidable (_ ∧ _))

instance (cfg : Config) (w : World) (act : Metered.Act) : Decidable (Counted cfg w act) :=
  match act with
  | .op (.pop ..) => inferInstanceAs (Decidable (_ ∨ _ ∨ _))
  | .op (.tsPop ..) => inferInstanceAs (Decidable (_ ∨ _))
  | .op (.resize ..) => inferInstanceAs (Decidable (_ = true ∨ _ = true ∨ _ = 0))
  | .op (.push ..) => inferInstanceAs (Decidable True)
  | .op (.launder ..) => inferInstanceAs (Decidable True)
  | .op (.freeze _) => inferInstanceAs (Decidable True)
  | .op (.resetPage _) => inferInstanceAs (Decidable True)
  | .op (.write ..) => inferInstanceAs (Decidable True)
  | .popChunk .. => inferInstanceAs (Decidable (_ ∨ _ ∨ _))
  | .tsPopChunk .. => inferInstanceAs (Decidable (_ ∨ _))

/-- The calls on one arena: pushes and resizes on fresh mappings, and frees of any pointer. A
client writes to its live chunks in between. -/
def World.Calls (w : World) : Metered.Act → Prop
  | .op (.push _ gs) => Mapped w.arena gs
  | .op (.resize _ _ _ gs) => Mapped w.arena gs
  | .op (.write p i _) => ((w.live p).any fun h => 32 * i + 32 ≤ h.len) = true
  | .op (.launder ..) => False
  | .op (.freeze _) => False
  | .op (.resetPage _) => False
  | _ => True

instance (w : World) (act : Metered.Act) : Decidable (w.Calls act) :=
  match act with
  | .op (.push _ gs) => inferInstanceAs (Decidable (Mapped w.arena gs))
  | .op (.resize _ _ _ gs) => inferInstanceAs (Decidable (Mapped w.arena gs))
  | .op (.write ..) => inferInstanceAs (Decidable (_ = true))
  | .op (.launder ..) => inferInstanceAs (Decidable False)
  | .op (.freeze _) => inferInstanceAs (Decidable False)
  | .op (.resetPage _) => inferInstanceAs (Decidable False)
  | .op (.pop ..) => inferInstanceAs (Decidable True)
  | .op (.tsPop ..) => inferInstanceAs (Decidable True)
  | .popChunk .. => inferInstanceAs (Decidable True)
  | .tsPopChunk .. => inferInstanceAs (Decidable True)

namespace Metered.Good
variable {cfg : Config} {m m' : Metered} {U : Active} {p n sz : ℕ} {adm len : Option ℕ}
  {null sized intact : Bool} {mem : Chunk}
  {gs : List Grant}

/-- A step of a metered client is a step of its client. -/
theorem step_ok {op : Op} (h : m.next cfg (.op op) = some m') :
    m.world.step cfg op = .ok m'.world ∧ m.stats.step cfg m.world.arena op = .ok m'.stats := by
  unfold Metered.next Metered.step at h
  dsimp only at h
  cases hw : m.world.step cfg op with
  | error e =>
    rw [hw] at h
    exact absurd h (by simp [bind, Except.bind, Except.toOption])
  | ok w =>
    cases hs : m.stats.step cfg m.world.arena op with
    | error e =>
      rw [hw, hs] at h
      exact absurd h (by simp [bind, Except.bind, Except.toOption])
    | ok s =>
      rw [hw, hs] at h
      simp only [bind, Except.bind, Except.toOption, Option.some.injEq] at h
      subst h
      exact ⟨rfl, rfl⟩

theorem step_push (hG : Good cfg m U) (hgs : Mapped m.world.arena gs)
    (hw : m.world.step cfg (.push sz gs) = .ok m'.world)
    (hs : m.stats.step cfg m.world.arena (.push sz gs) = .ok m'.stats) :
    ∃ U', Good cfg m' U' := by
  obtain ⟨w', s'⟩ := m'
  have hspec : Ends (push cfg m.world.arena sz gs) _ := push_spec hG.sound.inv cfg hgs
  rcases hspec with hend | ⟨⟨o, a⟩, hpush, hr⟩
  · simp only [World.step, hend, bind, Except.bind] at hw
    exact absurd hw (by simp)
  · simp only [World.step, Stats.step, hpush, bind, Except.bind, Except.ok.injEq] at hw hs
    subst hs
    cases o with
    | none =>
      obtain ⟨hI, hsame, hgrows⟩ := hr
      obtain rfl := Except.ok.inj hw
      exact ⟨U, (hG.idle hI (fun _ => hsame.parked.1) hgrows).congr rfl rfl ⟨rfl, rfl, rfl⟩⟩
    | some u =>
      obtain ⟨c, U', rfl, hg⟩ := hr
      obtain rfl := Except.ok.inj hw
      exact ⟨U', hG.serve hg⟩

def SameCounts (s s' : Stats) : Prop :=
  s'.currentMemoryUsage = s.currentMemoryUsage ∧ s'.totalMemoryFreed = s.totalMemoryFreed ∧
    s'.totalMemoryThroughput = s.totalMemoryThroughput

/-- A free without a length counts nothing where `__size_of_alloc` is 0. -/
theorem sameCounts_of_zero {a : Tiers} {s : Stats} (h : sizeOfAlloc cfg a p = 0) :
    SameCounts s (s.free cfg a p adm 0) := by
  unfold Stats.free
  split_ifs
  · exact ⟨rfl, rfl, rfl⟩
  · exact ⟨rfl, rfl, rfl⟩
  · have hsize : statsReleaseSize cfg a p 0 = 0 := if_pos h
    rw [hsize]
    exact ⟨rfl, rfl, rfl⟩

theorem sameCounts_of_uncounted {a : Tiers} {s : Stats} (h : Uncounted a p adm n) :
    SameCounts s (s.free cfg a p adm n) := by
  rcases h with hp | hadm | ⟨rfl, hd⟩
  · rw [Stats.free, if_pos hp]
    exact ⟨rfl, rfl, rfl⟩
  · rw [Stats.free, hadm]
    split_ifs with hp hno
    · exact ⟨rfl, rfl, rfl⟩
    · exact ⟨rfl, rfl, rfl⟩
    · exact absurd rfl hno
  · apply sameCounts_of_zero
    rw [sizeOfAlloc, hd]

theorem live_zero (hG : Good cfg m U) : m.world.live 0 = none := by
  cases hlive : m.world.live 0 with
  | none => rfl
  | some h =>
    obtain ⟨t, b, n, hh⟩ := hG.sound.held hlive
    obtain ⟨i, e, hd, -⟩ := hh.dispatch hG.sound.inv
    exact absurd rfl (ptr_ne_zero hG.sound.inv hd)

theorem refused (hG : Good cfg m U) {r : Bool × Tiers} {s : Stats} (ha : r.2 = m.world.arena)
    (hr : r.1 = true → p = 0) (hs : SameCounts m.stats s) : Good cfg
    ⟨m.world.release p r, s⟩ U := by
  refine hG.congr ha ?_ hs
  unfold World.release
  by_cases hok : r.1 = true
  · simp only [hok, if_true]
    rw [hr hok]
    exact update_eq_self_iff.2 hG.live_zero.symm
  · simp only [hok]
    rfl

theorem popWith_of_uncounted {a : Tiers} (h : Uncounted a p adm n) :
    Ends (popWith cfg a null adm p len intact) fun r => r.2 = a ∧ (r.1 = true → p = 0) := by
  unfold popWith vmapRemove
  split_ifs with hp hadm
  · exact Ends.of_ok ⟨_, rfl, rfl, fun _ => hp⟩
  · exact (failState_ends cfg a).mono fun r hr => ⟨hr.2, fun hok => absurd hok (by simp [hr.1])⟩
  · rcases h with h | h | ⟨-, hd⟩
    · exact absurd h hp
    · exact absurd h (by simpa using hadm)
    · rw [hd]
      exact Ends.of_ok ⟨_, rfl, rfl, fun hok => absurd hok (by simp)⟩

theorem tsPopWith_of_uncounted {a : Tiers} (h : Uncounted a p adm n) :
    Ends (tsPopWith cfg a adm p sized intact) fun r => r.2 = a ∧ (r.1 = true → p = 0) := by
  unfold tsPopWith vmapTombstone
  split_ifs with hp hadm
  · exact Ends.of_ok ⟨_, rfl, rfl, fun _ => hp⟩
  · exact (failState_ends cfg a).mono fun r hr => ⟨hr.2, fun hok => absurd hok (by simp [hr.1])⟩
  · rcases h with h | h | ⟨-, hd⟩
    · exact absurd h hp
    · exact absurd h (by simpa using hadm)
    · rw [hd]
      exact Ends.of_ok ⟨_, rfl, rfl, fun hok => absurd hok (by simp)⟩

/-- A free of a pointer that its list does not know is a double free. -/
theorem popWith_of_unknown {a : Tiers} (hI : Inv a U) (h : Unknown cfg a p len) :
    Ends (popWith cfg a null adm p len intact) fun r => r.2 = a ∧ (r.1 = true → p = 0) := by
  obtain ⟨hoff, -, -, hlist⟩ := h
  have hdouble : ∀ {t : TierId}, Ends (onTier a t fun x => x.handleDoubleFree cfg) fun r =>
      r.2 = a ∧ (r.1 = true → p = 0) := by
    intro t
    unfold onTier Tier.handleDoubleFree
    split_ifs
    · exact Or.inl rfl
    · exact Ends.of_ok ⟨_, rfl, update_eq_self_iff.2 rfl, fun hok => absurd hok (by simp)⟩
  unfold popWith vmapRemove
  split_ifs with hp hadm
  · exact Ends.of_ok ⟨_, rfl, rfl, fun _ => hp⟩
  · exact (failState_ends cfg a).mono fun r hr => ⟨hr.2, fun hok => absurd hok (by simp [hr.1])⟩
  · cases hd : dispatch a p with
    | none => exact Ends.of_ok ⟨_, rfl, rfl, fun hok => absurd hok (by simp)⟩
    | some r =>
      obtain ⟨t, i⟩ := r
      obtain ⟨e, he, -⟩ := hI.dispatch_eq_some.1 hd
      obtain ⟨hslots, hno⟩ := hlist _ hd
      have hno := hno e he
      dsimp only at hslots hno ⊢
      rw [canaries_eq_false hoff, Bool.false_and, if_neg (by decide), blockPtr_eq hoff]
      unfold onTier at hdouble ⊢
      cases len with
      | none =>
        have hrun : (a t).removeAt t.params cfg i p = (a t).handleDoubleFree cfg := by
          simp [Tier.removeAt, he, hoff, hno]
        dsimp only at hdouble ⊢
        rw [hrun]
        exact hdouble
      | some n =>
        have hrun : ∀ c : Chunk, c.ptr = p →
            (a t).cachePushOrRemove t.params cfg i c = (a t).handleDoubleFree cfg := by
          rintro c rfl
          simp [Tier.cachePushOrRemove, he, hslots rfl, hno]
        dsimp only at hdouble ⊢
        rw [hrun _ rfl]
        exact hdouble

/-- What is counted for a live pointer. -/
theorem free_stats (hG : Good cfg m U) {h : Held} (hlive : m.world.live p = some h)
    (hp : p ≠ 0) (hadm : freeAdmit p adm = true)
    (hlen : (cfg.redzone && h.len = 0 && n ≠ 0) = false) :
    m.stats.free cfg m.world.arena p adm n = m.stats.freed (sizeOfAlloc cfg m.world.arena p) := by
  have hsize : statsReleaseSize cfg m.world.arena p n = sizeOfAlloc cfg m.world.arena p := by
    unfold statsReleaseSize
    split_ifs with hzero
    · rcases hG.sized hlive with hne | ⟨hrz, hz⟩
      · exact absurd hzero hne
      · rw [hzero]
        simpa [hrz, hz] using hlen
    · rfl
  rw [Stats.free, if_neg hp, hadm, hsize]
  rfl

/-- The free of a live pointer, given what it does once it is admitted. -/
theorem released (hG : Good cfg m U) {r : Bool × Tiers} (hrel : Releases cfg m.world p n intact)
    (hun : Uncounted m.world.arena p adm n → r.2 = m.world.arena ∧ (r.1 = true → p = 0))
    (hok : ∀ {h t b k i}, Handle cfg m.world.arena U p h t b k → h.temporal = false →
      dispatch m.world.arena p = some (t, i) → freeAdmit p adm = true →
      (canaries cfg t && !intact) = false → r.1 = true ∧ ∃ U', Freed m.world.arena U b r.2 U') :
    ∃ U', Good cfg ⟨m.world.release p r, m.stats.free cfg m.world.arena p adm n⟩ U' := by
  obtain ⟨hheld, hcan⟩ := hrel
  obtain ⟨h, hlive, hlen⟩ := Option.any_eq_true _ _ |>.1 hheld
  rw [Bool.not_eq_true'] at hlen
  obtain ⟨t, b, k, hh⟩ := hG.sound.held hlive
  obtain ⟨i, e, hd, he, hcov⟩ := hh.dispatch hG.sound.inv
  by_cases hadm : freeAdmit p adm = true
  · obtain ⟨hr, U', hF⟩ := hok hh (hG.plain p h hlive) hd hadm (hcan _ hd)
    obtain ⟨ok, a⟩ := r
    obtain rfl : ok = true := hr
    rw [hG.free_stats hlive (ptr_ne_zero hG.sound.inv hd) hadm hlen]
    exact ⟨U', hG.release hlive hh hF⟩
  · have hrefused : Uncounted m.world.arena p adm n := Or.inr (Or.inl (Bool.eq_false_iff.2 hadm))
    obtain ⟨ha, hr⟩ := hun hrefused
    exact ⟨U, hG.refused ha hr (sameCounts_of_uncounted hrefused)⟩

theorem step_popWith (hG : Good cfg m U) {r : Bool × Tiers}
    (hcount : Uncounted m.world.arena p adm (len.getD 0) ∨ Unknown cfg m.world.arena p len ∨
      Releases cfg m.world p (len.getD 0) intact)
    (hpop : popWith cfg m.world.arena null adm p len intact = .ok r) :
    ∃ U', Good cfg ⟨m.world.release p r, m.stats.free cfg m.world.arena p adm (len.getD 0)⟩ U' := by
  have hun := fun h : Uncounted m.world.arena p adm (len.getD 0) => (popWith_of_uncounted h).ok hpop
  rcases hcount with h | hunknown | hrel
  · exact ⟨U, hG.refused (hun h).1 (hun h).2 (sameCounts_of_uncounted h)⟩
  · obtain ⟨ha, hr⟩ := (popWith_of_unknown hG.sound.inv hunknown).ok hpop
    obtain ⟨-, hlen, hzero, -⟩ := hunknown
    rw [hlen]
    exact ⟨U, hG.refused ha hr (sameCounts_of_zero hzero)⟩
  · refine hG.released hrel hun fun {h t b k i} hh hplain hd hadm hcan => ?_
    obtain ⟨i', e', hd', he', hcov⟩ := hh.dispatch hG.sound.inv
    obtain ⟨a', U', hrun, hF⟩ := vmapRemove_ok hG.sound.inv cfg len intact hd' he'
      (by rwa [hh.blockPtr_eq]) (by rw [hh.blockPtr_eq]; exact hh.active)
      (by rw [hh.blockPtr_eq]; exact hh.out)
      (by rw [hplain]; exact fun hk => absurd hk (by decide)) hcan
    rw [hh.blockPtr_eq] at hF
    rw [popWith_eq cfg null len intact (ptr_ne_zero hG.sound.inv hd) hadm, hrun] at hpop
    obtain rfl := Except.ok.inj hpop
    exact ⟨rfl, U', hF⟩

theorem step_tsPopWith (hG : Good cfg m U) {r : Bool × Tiers}
    (hcount : Uncounted m.world.arena p adm n ∨ Releases cfg m.world p n intact)
    (hpop : tsPopWith cfg m.world.arena adm p sized intact = .ok r) :
    ∃ U', Good cfg ⟨m.world.release p r, m.stats.free cfg m.world.arena p adm n⟩ U' := by
  have hun := fun h : Uncounted m.world.arena p adm n => (tsPopWith_of_uncounted h).ok hpop
  rcases hcount with h | hrel
  · exact ⟨U, hG.refused (hun h).1 (hun h).2 (sameCounts_of_uncounted h)⟩
  · refine hG.released hrel hun fun {h t b k i} hh hplain hd hadm hcan => ?_
    obtain ⟨i', e', hd', he', hcov⟩ := hh.dispatch hG.sound.inv
    obtain ⟨a', U', hrun, hF, -⟩ := vmapTombstone_ok hG.sound.inv cfg sized intact hd' he'
      (by rwa [hh.blockPtr_eq]) (by rw [hh.blockPtr_eq, ← hplain]; exact hh.active)
      (by rw [hh.blockPtr_eq]; exact hh.out) hcan
    rw [hh.blockPtr_eq] at hF
    rw [tsPopWith_eq cfg sized intact (ptr_ne_zero hG.sound.inv hd) hadm, hrun] at hpop
    obtain rfl := Except.ok.inj hpop
    exact ⟨rfl, U', hF⟩

theorem refit (hG : Good cfg m U) {h : Held} (hlive : m.world.live p = some h) {newSz : ℕ}
    (hn : newSz ≤ sizeOfAlloc cfg m.world.arena p) (hpos : 0 < newSz) :
    Good cfg ⟨{ m.world with live := update m.world.live p (some ⟨newSz, false⟩) }, m.stats⟩ U := by
  obtain ⟨t, b, n, hh⟩ := hG.sound.held hlive
  have hplain := hG.plain p h hlive
  refine ⟨hG.sound.refit hh hplain hn, fun q h' hq => ?_, ?_, fun {q h'} hq => ?_⟩
  · dsimp only at hq
    rw [update_apply] at hq
    split_ifs at hq with hqp
    · rw [← Option.some.inj hq]
    · exact hG.plain q h' hq
  · refine hG.tally.congr (fun q => ?_) (fun _ _ => rfl) ⟨rfl, rfl, rfl⟩
    dsimp only
    rw [update_apply]
    split_ifs with hqp
    · rw [hqp, hlive]
      rfl
    · rfl
  · dsimp only at hq ⊢
    rw [update_apply] at hq
    split_ifs at hq with hqp
    · left
      rw [hqp]
      omega
    · exact hG.sized hq

/-- A live chunk moves: it is served anew, copied, and freed. -/
theorem move (hG : Good cfg m U) {h : Held} (hlive : m.world.live p = some h) {newSz : ℕ}
    (data : ℕ → Cell) {c : Chunk} {a₁ : Tiers} {U₁ : Active}
    (hg : Given m.world.arena U false (.ofSize (rzInflate cfg newSz))
    (rzInflate cfg newSz) c a₁ U₁) :
    (rzApply cfg newSz c).ptr ≠ p ∧ ∃ a₃ U', pop cfg (copyCells cfg (rzApply cfg newSz c).ptr data
        (sizeOfAlloc cfg a₁ (rzApply cfg newSz c).ptr / 32) a₁) p none true = .ok (true, a₃) ∧
      ∀ w' : World, w'.arena = a₃ → w'.live = update (update m.world.live (rzApply cfg newSz c).ptr
          (some ⟨(rzApply cfg newSz c).len, false⟩)) p none →
        Good cfg ⟨w', (m.stats.serve cfg newSz (some (rzApply cfg newSz c), a₁)).pop cfg
          (copyCells cfg (rzApply cfg newSz c).ptr data
            (sizeOfAlloc cfg a₁ (rzApply cfg newSz c).ptr / 32) a₁) p none⟩ U' := by
  have hcan := canaries_ofSize cfg newSz
  obtain ⟨n', hnew⟩ := hg.handle hG.sound.inv hcan (by simp)
  have hne : p ≠ (rzApply cfg newSz c).ptr := by
    obtain ⟨t, b, n, hh⟩ := hG.sound.held hlive
    exact hg.not_held hnew hG.sound.inv hh
  obtain ⟨-, hle, hfit⟩ := hnew.sizeOfAlloc_le hg.inv
  have hu :=
    hnew.copyCells hg.inv data (sizeOfAlloc cfg a₁ (rzApply cfg newSz c).ptr / 32) (by omega)
  have hG₂ := (hG.serve hg).idle hu.inv (fun _ => hu.caches.parked.1) (.of_frames hu.frames)
  have hlive₂ : update m.world.live (rzApply cfg newSz c).ptr
      (some ⟨(rzApply cfg newSz c).len, false⟩) p = some h := by
    rw [update_of_ne hne, hlive]
  obtain ⟨t, b, n, hh⟩ := hG₂.sound.held hlive₂
  have hplain := hG.plain p h hlive
  obtain ⟨a₃, U', hrun, hF⟩ := hh.pop hu.inv hplain
  refine ⟨hne.symm, a₃, U', hrun, fun w' ha hl => ?_⟩
  obtain ⟨i, e, hd, -⟩ := hh.dispatch hu.inv
  have hstats := hG₂.free_stats (n := 0) hlive₂ (ptr_ne_zero hu.inv hd) (hh.admits hu.inv) (by simp)
  have hG₃ := hG₂.release hlive₂ hh hF
  rw [← hstats] at hG₃
  exact hG₃.congr ha hl ⟨rfl, rfl, rfl⟩

theorem step_resize (hG : Good cfg m U) {newSz : ℕ} {data : ℕ → Cell} {w' : World} {s' : Stats}
    (hgs : Mapped m.world.arena gs) (hcount : Counted cfg m.world (.op (.resize p newSz data gs)))
    (hw : m.world.step cfg (.resize p newSz data gs) = .ok w')
    (hs : m.stats.step cfg m.world.arena (.resize p newSz data gs) = .ok s') :
    ∃ U', Good cfg ⟨w', s'⟩ U' := by
  simp only [World.step, Stats.step, resize, Stats.resize] at hw hs
  by_cases hcached : isCached m.world.arena p = true
  · rw [if_pos hcached] at hw hs
    obtain rfl := Except.ok.inj hw
    obtain rfl := Except.ok.inj hs
    exact ⟨U, hG⟩
  · rw [if_neg hcached] at hw hs
    by_cases hzero : sizeOfAlloc cfg m.world.arena p = 0
    · rw [if_pos hzero] at hw hs
      obtain rfl := Except.ok.inj hw
      obtain rfl := Except.ok.inj hs
      exact ⟨U, hG⟩
    · rw [if_neg hzero] at hw hs
      obtain ⟨h, hlive⟩ : ∃ h, m.world.live p = some h := by
        rcases hcount with hsome | hc | hz
        · exact Option.isSome_iff_exists.1 hsome
        · exact absurd hc hcached
        · exact absurd hz hzero
      by_cases hin : newSz ≤ sizeOfAlloc cfg m.world.arena p ∧
          sizeOfAlloc cfg m.world.arena p / 2 < newSz
      · rw [if_pos hin] at hw hs
        simp only [bind, Except.bind, if_true] at hw
        obtain rfl := Except.ok.inj hw
        obtain rfl := Except.ok.inj hs
        exact ⟨U, hG.refit hlive hin.1 (by omega)⟩
      · rw [if_neg hin] at hw hs
        have hspec : Ends (push cfg m.world.arena newSz gs) _ := push_spec hG.sound.inv cfg hgs
        rcases hspec with hend | ⟨⟨o, a₁⟩, hpush, hr⟩
        · simp only [hend, bind, Except.bind] at hw
          exact absurd hw (by simp)
        · simp only [hpush, bind, Except.bind] at hw hs
          cases o with
          | none =>
            obtain ⟨hI, hsame, hgrows⟩ := hr
            obtain rfl := Except.ok.inj hw
            obtain rfl := Except.ok.inj hs
            exact ⟨U, (hG.idle hI (fun _ => hsame.parked.1) hgrows).congr rfl rfl ⟨rfl, rfl, rfl⟩⟩
          | some u =>
            obtain ⟨c, U₁, rfl, hg⟩ := hr
            obtain ⟨hne, a₃, U', hrun, hgood⟩ := hG.move hlive data hg
            simp only [hrun, if_neg hne] at hw
            obtain rfl := Except.ok.inj hw
            obtain rfl := Except.ok.inj hs
            exact ⟨U', hgood _ rfl rfl⟩

theorem step_op (hG : Good cfg m U) {op : Op} (hcall : m.world.Calls (.op op))
    (hcount : Counted cfg m.world (.op op)) (hnext : m.next cfg (.op op) = some m') :
    ∃ U', Good cfg m' U' := by
  obtain ⟨hw, hs⟩ := step_ok hnext
  cases op with
  | push sz gs => exact hG.step_push hcall hw hs
  | launder sz gs => exact absurd hcall (by simp [World.Calls])
  | pop p len intact =>
    obtain ⟨w', s'⟩ := m'
    obtain rfl := Except.ok.inj hs
    obtain ⟨r, hpop, rfl⟩ := World.step_pop hw
    exact hG.step_popWith hcount hpop
  | tsPop p len intact =>
    obtain ⟨w', s'⟩ := m'
    obtain rfl := Except.ok.inj hs
    obtain ⟨r, hpop, rfl⟩ := World.step_tsPop hw
    exact hG.step_tsPopWith hcount hpop
  | resize p newSz data gs => exact hG.step_resize hcall hcount hw hs
  | freeze p => exact absurd hcall (by simp [World.Calls])
  | resetPage p => exact absurd hcall (by simp [World.Calls])
  | write p i v =>
    obtain ⟨w', s'⟩ := m'
    obtain ⟨h, hlive, hi⟩ := Option.any_eq_true _ _ |>.1 hcall
    obtain ⟨hI, hparked, hgrows⟩ := hG.sound.stores v hlive (of_decide_eq_true hi)
    obtain rfl := Except.ok.inj hw
    obtain rfl := Except.ok.inj hs
    exact ⟨U, hG.idle hI hparked hgrows⟩

theorem exists_release {x : Except Halt (Bool × Tiers)} {s : Stats}
    (h : (x.bind fun r => .ok ⟨m.world.release p r, s⟩).toOption = some m') :
    ∃ r, x = .ok r ∧ m' = ⟨m.world.release p r, s⟩ := by
  cases x with
  | error y => exact absurd h (by simp [Except.bind, Except.toOption])
  | ok r => exact ⟨r, rfl, (Option.some.inj h).symm⟩

theorem step (hG : Good cfg m U) {act : Metered.Act} (hcall : m.world.Calls act)
    (hcount : Counted cfg m.world act) (hnext : m.next cfg act = some m') :
    ∃ U', Good cfg m' U' := by
  cases act with
  | op op => exact hG.step_op hcall hcount hnext
  | popChunk mem intact =>
    obtain ⟨r, hpop, rfl⟩ := exists_release hnext
    show ∃ U', Good cfg ⟨_, m.stats.free cfg m.world.arena _ _ ((some mem.len).getD 0)⟩ U'
    exact hG.step_popWith hcount hpop
  | tsPopChunk mem intact =>
    obtain ⟨r, hpop, rfl⟩ := exists_release hnext
    exact hG.step_tsPopWith hcount hpop

end Metered.Good

/-! ## Runs -/

section Runs
variable {cfg : Config} {g₁ g₂ g₃ : Grant} {a : Tiers} {acts : List Metered.Act} {m : Metered}

end Runs
end AbcMalloc.Arena
