import AbcMalloc.Arena.Presence

/-! What lies between the headers. The operations of a list keep the place of its pool and the
upper two words of every cell that belongs to a block in use; so do the operations of an arena,
as long as nobody frees the block or writes to it. -/
namespace AbcMalloc.Arena
open Function Foundation

/-! ## Lists -/

/-- Cells of blocks in use keep their upper words. -/
def tlsfCalm (L : Ledger) (h h' : Tlsf.Heap) : Prop :=
  h'.ctl.base = h.ctl.base ∧
    ∀ x, L.Payload 32 x → h'.mem.w2 x = h.mem.w2 x ∧ h'.mem.w3 x = h.mem.w3 x

/-- A buddy list never writes the upper words of a cell. -/
def buddyCalm (h h' : Buddy.Heap) : Prop :=
  h'.ctl.base = h.ctl.base ∧ h'.mem.w2 = h.mem.w2 ∧ h'.mem.w3 = h.mem.w3

namespace TierId

def mem : (t : TierId) → t.Heap → Mem
  | precise, h => h.mem
  | small, h => h.mem
  | medium, h => h.mem
  | large, h => h.mem
  | huge, h => h.mem

def base : (t : TierId) → t.Heap → ℕ
  | precise, h => h.ctl.base
  | small, h => h.ctl.base
  | medium, h => h.ctl.base
  | large, h => h.ctl.base
  | huge, h => h.ctl.base

/-- Bytes 16 to 31 of a cell. -/
def words (t : TierId) (s : t.Heap) (x : ℕ) : ℕ × ℕ := ((t.mem s).w2 x, (t.mem s).w3 x)

/-- The pool stays where it is, and nothing happens in the blocks in use. -/
def Calm : (t : TierId) → Ledger → t.Heap → t.Heap → Prop
  | precise, L, h, h' => tlsfCalm L h h'
  | small, L, h, h' => tlsfCalm L h h'
  | medium, _, h, h' => buddyCalm h h'
  | large, _, h, h' => buddyCalm h h'
  | huge, _, h, h' => buddyCalm h h'

end TierId

section Lists
variable {t : TierId} {s s' : t.Heap} {e : Entry t.Heap} {L L' : Ledger} {c : Chunk} {r : RetFlag}
  {x b n f u : ℕ}

theorem TierId.Calm.base (h : t.Calm L s s') : t.base s' = t.base s := by
  cases t <;> exact h.1

theorem TierId.Calm.words (h : t.Calm L s s') (hx : L.Payload t.params.book.header x) :
    t.words s' x = t.words s x := by
  cases t with
  | precise => exact Prod.ext (h.2 x hx).1 (h.2 x hx).2
  | small => exact Prod.ext (h.2 x hx).1 (h.2 x hx).2
  | _ => exact Prod.ext (congrFun h.2.1 x) (congrFun h.2.2 x)

theorem tlsfCalm.refl (L : Ledger) (h : Tlsf.Heap) : tlsfCalm L h h := ⟨rfl, fun _ _ => ⟨rfl, rfl⟩⟩

theorem buddyCalm.refl (h : Buddy.Heap) : buddyCalm h h := ⟨rfl, rfl, rfl⟩

theorem TierId.Calm.refl (t : TierId) (L : Ledger) (s : t.Heap) : t.Calm L s s := by
  cases t
  · exact tlsfCalm.refl L s
  · exact tlsfCalm.refl L s
  all_goals exact buddyCalm.refl s

theorem tlsfCalm.of_agree {h h' : Tlsf.Heap} {A : Tlsf.Blocks} (hbase : h'.ctl.base = h.ctl.base)
    (hm : Tlsf.AgreeOff (fun x => ¬Tlsf.Payload A x) h.mem h'.mem) :
    tlsfCalm (Tlsf.tlsfLedger h A) h h' := by
  refine ⟨hbase, ?_⟩
  rintro x ⟨b, n, f, i, hu, rfl, hi⟩
  have hx : Tlsf.Payload A (b + 32 + 32 * i) := ⟨b, n, f, hu, by omega, by omega⟩
  obtain ⟨-, -, -, h₂, h₃⟩ := hm _ (not_not.2 hx)
  exact ⟨h₂, h₃⟩

theorem heap_of_some {σ : Type*} {o : Option (Chunk × σ)} {s s' : σ} {d : Chunk}
    (h : o = some (d, s)) (hrun : o = some (c, s')) : s' = s := by
  rw [h] at hrun
  simp only [Option.some.injEq, Prod.mk.injEq] at hrun
  exact hrun.2.symm

theorem calm_allocate (hrep : t.Rep s L) (hfit : t.fits u = true)
    (hrun : t.params.book.allocate s u = some (c, s')) : t.Calm L s s' := by
  have htlsf : ∀ {h h' : Tlsf.Heap}, OrRefused tlsfRefused Tlsf.TlsfRep h L →
      Tlsf.fitsRequest u = true → Tlsf.allocate h u = some (c, h') → tlsfCalm L h h' := by
    rintro h h' (⟨A, hG, rfl⟩ | ⟨hr, -, -⟩) hfit hrun
    · rcases hG.allocate (of_decide_eq_true hfit) with hnull | ⟨b, sz, h₁, A', hal, -, hT, -, -, hc⟩
      · rw [heap_of_some hnull hrun]
        exact .refl _ _
      · rw [heap_of_some hal hrun]
        exact .of_agree hc.base hT.payload
    · rw [heap_of_some ((refused_of_tlsfRefused h hr).allocate u) hrun]
      exact .refl _ _
  have hbuddy : ∀ {h h' : Buddy.Heap}, OrRefused buddyRefused Buddy.BuddyRep h L →
      Buddy.allocate h u = some (c, h') → buddyCalm h h' := by
    rintro h h' (⟨A, hG, rfl⟩ | ⟨hr, -, -⟩) hrun
    · rcases hG.toInv.allocate u with hnull | ⟨b, o, h₁, A', hal, -, hT, -, -⟩
      · rw [heap_of_some hnull hrun]
        exact .refl _
      · rw [heap_of_some hal hrun]
        exact ⟨hT.shape.base, hT.w2, hT.w3⟩
    · rw [heap_of_some ((refused_of_buddyRefused h hr).allocate u) hrun]
      exact .refl _
  cases t
  · exact htlsf hrep hfit hrun
  · exact htlsf hrep hfit hrun
  all_goals exact hbuddy hrep hrun

theorem calm_temporalAllocate (hrep : t.Rep s L) (hfit : t.fits u = true)
    (hrun : t.params.book.temporalAllocate s u = some (c, s')) : t.Calm L s s' := by
  have htlsf : ∀ {h h' : Tlsf.Heap}, OrRefused tlsfRefused Tlsf.TlsfRep h L →
      Tlsf.fitsRequest u = true → Tlsf.temporalAllocate h u = some (c, h') → tlsfCalm L h h' := by
    rintro h h' (⟨A, hG, rfl⟩ | ⟨hr, -, -⟩) hfit hrun
    · rcases hG.temporalAllocate (of_decide_eq_true hfit) with hnull |
        ⟨i, r, b, sz, f, h₁, -, -, -, hal, -, hm, hc⟩ | ⟨b, sz, h₁, A', hal, -, hT, hc⟩
      · rw [heap_of_some hnull hrun]
        exact .refl _ _
      · rw [heap_of_some hal hrun]
        exact ⟨hc.base, fun x _ => by rw [hm]; exact ⟨rfl, rfl⟩⟩
      · rw [heap_of_some hal hrun]
        exact .of_agree hc.base hT.payload
    · rw [heap_of_some ((refused_of_tlsfRefused h hr).temporalAllocate u) hrun]
      exact .refl _ _
  have hbuddy : ∀ {h h' : Buddy.Heap}, OrRefused buddyRefused Buddy.BuddyRep h L →
      Buddy.temporalAllocate h u = some (c, h') → buddyCalm h h' := by
    rintro h h' (⟨A, hG, rfl⟩ | ⟨hr, -, -⟩) hrun
    · rcases hG.toInv.temporalAllocate u with hnull | ⟨o, r, -, -, hal⟩ |
        ⟨b, o, r, h₁, A', hal, -, hT, -⟩
      · rw [heap_of_some hnull hrun]
        exact .refl _
      · rw [heap_of_some hal hrun]
        exact .refl _
      · rw [heap_of_some hal hrun]
        exact ⟨hT.shape.base, hT.w2, hT.w3⟩
    · rw [heap_of_some ((refused_of_buddyRefused h hr).temporalAllocate u) hrun]
      exact .refl _
  cases t
  · exact htlsf hrep hfit hrun
  · exact htlsf hrep hfit hrun
  all_goals exact hbuddy hrep hrun

theorem calm_tombstone (hrep : t.Rep s L) (hb : L.used b = some (n, f)) (hf : f ≠ blockTombstone) :
    t.Calm L s (t.params.book.tombstone s (b + t.params.book.header)).2 := by
  have htlsf : ∀ {h : Tlsf.Heap}, OrRefused tlsfRefused Tlsf.TlsfRep h L →
      tlsfCalm L h (Tlsf.tombstone h (b + 32)).2 := by
    rintro h (⟨A, hG, rfl⟩ | ⟨-, -, hV⟩)
    · obtain ⟨h', hts, hm, -, hc⟩ := hG.tombstone hb hf
      rw [hts]
      exact ⟨hc.base, fun x _ => by rw [hm]; exact ⟨rfl, rfl⟩⟩
    · rw [hV.used] at hb
      exact absurd hb (by simp)
  have hbuddy : ∀ {h : Buddy.Heap}, OrRefused buddyRefused Buddy.BuddyRep h L →
      buddyCalm h (Buddy.tombstone h b).2 := by
    rintro h (⟨A, hG, rfl⟩ | ⟨-, -, hV⟩)
    · obtain ⟨h', A', hts, -, hs, -, -, -, -, h₂, h₃⟩ := hG.toInv.tombstone hb hf
      rw [hts]
      exact ⟨hs.base, h₂, h₃⟩
    · rw [hV.used] at hb
      exact absurd hb (by simp)
  cases t
  · exact htlsf hrep
  · exact htlsf hrep
  all_goals exact hbuddy hrep

theorem calm_deallocate (hrep : t.Rep s L) (hb : L.used b = some (n, f)) (hf : f ≠ blockTombstone) :
    t.Calm L s (t.params.book.deallocate s (b + t.params.book.header)).2 := by
  have htlsf : ∀ {h : Tlsf.Heap}, OrRefused tlsfRefused Tlsf.TlsfRep h L →
      tlsfCalm L h (Tlsf.deallocate h (b + 32)).2 := by
    rintro h (⟨A, hG, rfl⟩ | ⟨-, -, hV⟩)
    · obtain ⟨h', A', r, hde, -, hR, hc⟩ := hG.deallocate hb fun hft => absurd hft hf
      rw [hde]
      exact .of_agree hc.base hR.payload
    · rw [hV.used] at hb
      exact absurd hb (by simp)
  have hbuddy : ∀ {h : Buddy.Heap}, OrRefused buddyRefused Buddy.BuddyRep h L →
      buddyCalm h (Buddy.deallocate h b).2 := by
    rintro h (⟨A, hG, rfl⟩ | ⟨-, -, hV⟩)
    · obtain ⟨h', A', o, hde, -, hs, -, -, -, -, -, h₂, h₃⟩ := hG.toInv.deallocate hb
      rw [hde]
      exact ⟨hs.base, h₂, h₃⟩
    · rw [hV.used] at hb
      exact absurd hb (by simp)
  cases t
  · exact htlsf hrep
  · exact htlsf hrep
  all_goals exact hbuddy hrep

/-- A sheet serves a request: what was in use still is, and its cells are kept. -/
theorem mark_calm {temporal : Bool} {sh : Sheet t.Heap} (hrep : t.Rep e.sheet.book L)
    (hfit : t.fits u = true) (hrun : e.sheet.mark t.params temporal u = .ok (c, sh)) :
    ∃ L', t.Rep sh.book L' ∧ t.Calm L e.sheet.book sh.book ∧
      ∀ b v, L.used b = some v → L'.used b = some v := by
  have hopens : ∀ {L' : Ledger} {b n f : ℕ}, L.Opens L' b n f →
      ∀ b' v, L.used b' = some v → L'.used b' = some v := by
    intro L' b n f hO b' v hb'
    have hne : b' ≠ b := by
      rintro rfl
      rw [hO.unused] at hb'
      exact absurd hb' (by simp)
    rw [hO.used, update_of_ne hne, hb']
  unfold Sheet.mark at hrun
  split_ifs at hrun with hempty htemp
  · simp only [Except.ok.injEq, Prod.mk.injEq] at hrun
    rw [← hrun.2]
    exact ⟨L, hrep, .refl _ _ _, fun _ _ hb => hb⟩
  · split at hrun
    · exact absurd hrun (by simp)
    · next d h hal =>
      simp only [Except.ok.injEq, Prod.mk.injEq] at hrun
      rw [← hrun.2]
      have hcalm := calm_temporalAllocate hrep hfit hal
      rcases t.refines.temporalAllocate hrep hfit with hnull
        | ⟨b, n, f, h', L', hal', hrep', hK, -⟩ |
        ⟨b, n, h', L', hal', hrep', hO⟩
      · refine ⟨L, ?_, hcalm, fun _ _ hb => hb⟩
        rw [heap_of_some hnull hal]
        exact hrep
      · refine ⟨L', ?_, hcalm, fun b' v hb' => by rw [hK.used, hb']⟩
        rw [heap_of_some hal' hal]
        exact hrep'
      · refine ⟨L', ?_, hcalm, hopens hO⟩
        rw [heap_of_some hal' hal]
        exact hrep'
  · split at hrun
    · exact absurd hrun (by simp)
    · next d h hal =>
      simp only [Except.ok.injEq, Prod.mk.injEq] at hrun
      rw [← hrun.2]
      have hcalm := calm_allocate hrep hfit hal
      rcases t.refines.allocate hrep hfit with hnull | ⟨b, n, h', L', hal', hrep', hO, -⟩
      · refine ⟨L, ?_, hcalm, fun _ _ hb => hb⟩
        rw [heap_of_some hnull hal]
        exact hrep
      · refine ⟨L', ?_, hcalm, hopens hO⟩
        rw [heap_of_some hal' hal]
        exact hrep'

theorem tryRemove_calm {tomb sized ok : Bool} {sh : Sheet t.Heap} (hrep : t.Rep e.sheet.book L)
    (hb : L.used b = some (n, f)) (hf : f ≠ blockTombstone)
    (hrun : e.sheet.tryRemove t.params tomb sized (b + t.params.book.header) = .ok (ok, sh)) :
    ∃ L', t.Rep sh.book L' ∧ t.Calm L e.sheet.book sh.book ∧
      ∀ b', b' ≠ b → L'.used b' = L.used b' := by
  unfold Sheet.tryRemove at hrun
  split_ifs at hrun with hzero htomb
  · simp only [Except.ok.injEq, Prod.mk.injEq] at hrun
    rw [← hrun.2]
    obtain ⟨s', L', hts, hrep', hB⟩ := t.refines.tombstone hrep hb hf
    refine ⟨L', ?_, calm_tombstone hrep hb hf, fun b' hne => by rw [hB.used, update_of_ne hne]⟩
    rw [hts]
    exact hrep'
  · simp only [Except.ok.injEq, Prod.mk.injEq] at hrun
    rw [← hrun.2]
    obtain ⟨s', L', hde, hrep', hC⟩ := t.refines.deallocate hrep hb fun hft => absurd hft hf
    refine ⟨L', ?_, calm_deallocate hrep hb hf, fun b' hne => by rw [hC.used, update_of_ne hne]⟩
    rw [hde]
    exact hrep'

theorem base_store (t : TierId) (s : t.Heap) (x : ℕ) (v : Cell) :
    t.base (t.params.book.store s x v) = t.base s := by
  cases t <;> rfl

theorem mem_store (t : TierId) (s : t.Heap) (x : ℕ) (v : Cell) :
    t.mem (t.params.book.store s x v) = (t.mem s).store x v := by
  cases t <;> rfl

end Lists

/-! ## Arenas -/

/-- Operations that leave the blocks in `B` alone keep the property `P` of every entry. -/
structure Robust (B : ℕ → Prop) (P : (t : TierId) → Entry t.Heap → Prop) (U : Active)
    (gs : List Grant) : Prop where
  mark : ∀ {t : TierId} {temporal sz e c s}, t.fits sz = true → P t e →
    e.sheet.mark t.params temporal sz = .ok (c, s) → P t { e with sheet := s }
  fresh : ∀ g ∈ gs, ∀ (t : TierId) head guard, guard = 0 ∨ guard = t.params.guard →
    P t (Tier.newEntry t.params head guard g.mem g.tags g.chunk)
  remove : ∀ {U' : Active} {t : TierId} {e L b n f tomb sized ok s}, (∀ x, B x → U' x = U x) →
    e.Holds t.params t.Rep U' L → L.used b = some (n, f) → f ≠ blockTombstone →
    ¬B (b + t.params.book.header) → P t e →
    e.sheet.tryRemove t.params tomb sized (b + t.params.book.header) = .ok (ok, s) →
    P t { e with sheet := s }
  store : ∀ {U' : Active} {t : TierId} {e L b n f i} (v : Cell), (∀ x, B x → U' x = U x) →
    e.Holds t.params t.Rep U' L → L.used b = some (n, f) → ¬B (b + t.params.book.header) →
    32 * i + 32 ≤ n - 32 → P t e →
    P t { e with sheet := { e.sheet with
      book := t.params.book.store e.sheet.book (b + t.params.book.header + 32 * i) v } }

section Arenas
variable {cfg : Config} {w w' : World} {a a' : Tiers} {U U₀ : Active} {t : TierId} {p b n sz : ℕ}
  {h : Held} {c : Chunk} {B : ℕ → Prop} {P : (t : TierId) → Entry t.Heap → Prop} {gs : List Grant}
  {ok intact : Bool} {len : Option ℕ}

theorem failState_all (hs : AllEntries P a) (hrun : failState cfg a = .ok (ok, a')) :
    AllEntries P a' := by
  have h : a' = a := ((failState_ends cfg a).ok hrun).2
  rwa [h]

namespace Robust

theorem removeImpl (hR : Robust B P U₀ gs) (hI : Inv a U) (hU : ∀ x, B x → U x = U₀ x)
    (hh : Handle cfg a U p h t b n) (hb : ¬B b) {i : ℕ} {e : Entry t.Heap}
    (he : (a t).idx[i]? = some e) (hcov : e.frame.Covers b) (hs : AllEntries P a)
    {force sized : Bool} {x : Tier t.Heap}
    (hrun : (a t).removeImpl t.params cfg force sized i b = .ok (ok, x)) : x.All (P t) := by
  obtain ⟨L, hL⟩ := (hI.tiers t).entry_holds he
  obtain ⟨b', f, rfl, hu, hf, -⟩ := hL.used t.refines hcov hh.active
  apply Tier.removeImpl_all (hs t) _ hrun
  intro e' r s he' hP hr
  rw [he] at he'
  obtain rfl := Option.some.inj he'
  exact hR.remove hU hL hu hf hb hP hr

theorem pop (hR : Robust B P U₀ gs) (hI : Inv a U) (hU : ∀ x, B x → U x = U₀ x)
    (hh : Handle cfg a U p h t b n) (hb : ¬B b) (hs : AllEntries P a)
    (hrun : pop cfg a p len intact = .ok (ok, a')) : AllEntries P a' := by
  obtain ⟨i, e, hd, he, hcov⟩ := hh.dispatch hI
  unfold Arena.pop popWith vmapRemove at hrun
  rw [if_neg (ptr_ne_zero hI hd), hd] at hrun
  by_cases hadm : (!freeAdmit p len) = true
  · rw [if_pos hadm] at hrun
    exact failState_all hs hrun
  simp only [if_neg hadm] at hrun
  by_cases hcan : (canaries cfg t && !intact) = true
  · rw [if_pos hcan] at hrun
    exact failState_all hs hrun
  rw [if_neg hcan] at hrun
  apply onTier_all hs _ hrun
  intro r x hx
  rw [hh.blockPtr_eq] at hx
  cases len with
  | none =>
    rcases Tier.removeAt_outcome hx with rfl | ⟨e, m, d, -, -, -, rfl⟩ | ⟨-, hrun⟩
    · exact hs t
    · exact (hs t).congr rfl
    · exact hR.removeImpl hI hU hh hb he hcov hs hrun
  | some m =>
    rcases Tier.cachePushOrRemove_outcome hx with rfl | ⟨e, m, d, -, -, -, rfl⟩ | ⟨-, hrun⟩
    · exact hs t
    · exact (hs t).congr rfl
    · exact hR.removeImpl hI hU hh hb he hcov hs hrun

theorem tsPop (hR : Robust B P U₀ gs) (hI : Inv a U) (hU : ∀ x, B x → U x = U₀ x)
    (hh : Handle cfg a U p h t b n) (hb : ¬B b) (hs : AllEntries P a)
    (hrun : tsPop cfg a p len intact = .ok (ok, a')) : AllEntries P a' := by
  obtain ⟨i, e, hd, he, hcov⟩ := hh.dispatch hI
  unfold Arena.tsPop tsPopWith vmapTombstone at hrun
  rw [if_neg (ptr_ne_zero hI hd), hd] at hrun
  split_ifs at hrun
  · exact failState_all hs hrun
  · simp only at hrun
    split_ifs at hrun
    · exact failState_all hs hrun
    · apply onTier_all hs _ hrun
      intro r x hx
      rw [hh.blockPtr_eq] at hx
      exact hR.removeImpl hI hU hh hb he hcov hs hx

theorem write (hR : Robust B P U₀ gs) (hI : Inv a U) (hU : ∀ x, B x → U x = U₀ x)
    (hh : Handle cfg a U p h t b n) (hb : ¬B b) {i : ℕ} (hi : 32 * i + 32 ≤ n - 32) (v : Cell)
    (hs : AllEntries P a) : AllEntries P (Arena.store cfg a p i v) := by
  obtain ⟨j, e, hd, he, hcov⟩ := hh.dispatch hI
  obtain ⟨L, hL⟩ := (hI.tiers t).entry_holds he
  obtain ⟨b', f, rfl, hu, -, -⟩ := hL.used t.refines hcov hh.active
  unfold Arena.store
  rw [hd]
  simp only
  rw [modify_eq_setSheet he fun s => { s with
    book := t.params.book.store s.book (blockPtr cfg t p + 32 * i) v }]
  apply hs.update
  apply (hs t).setSheet
  intro e' he'
  rw [he] at he'
  obtain rfl := Option.some.inj he'
  rw [hh.blockPtr_eq]
  exact hR.store v hU hL hu hb hi (hs t e (List.mem_of_getElem? he))

theorem copyCells (hR : Robust B P U₀ gs) (hI : Inv a U) (hU : ∀ x, B x → U x = U₀ x)
    (hh : Handle cfg a U p h t b n) (hb : ¬B b) (data : ℕ → Cell) (hs : AllEntries P a) :
    ∀ m, 32 * m ≤ n - 32 → AllEntries P (Arena.copyCells cfg p data m a) := by
  intro m
  induction m with
  | zero => exact fun _ => hs
  | succ m ih =>
    intro hm
    have hu := hh.copyCells hI data m (by omega)
    obtain ⟨f, hf, hfb⟩ := hh.covered
    have hh' := hh.congr rfl ⟨f, by rw [hu.frames]; exact hf, hfb⟩ hu.caches.parked.1
    exact hR.write hu.inv hU hh' hb (by omega) (data m) (ih (by omega))

theorem resize (hR : Robust B P U gs) (hI : Inv a U) (hh : Handle cfg a U p h t b n)
    (hb : ¬B b) (hB : ∀ x, B x → U x ≠ none ∧ ¬Parked a x)
    {newSz : ℕ} {data : ℕ → Cell} (hgs : Mapped a gs) (hs : AllEntries P a) {o : Option Chunk}
    (hrun : resize cfg a p newSz data gs = .ok (o, a')) : AllEntries P a' := by
  unfold Arena.resize at hrun
  rw [isCached_eq_false (hh.not_parked hI)] at hrun
  simp only [Bool.false_eq_true, if_false] at hrun
  split_ifs at hrun
  · simp only [Except.ok.injEq, Prod.mk.injEq] at hrun
    rwa [← hrun.2]
  · simp only [Except.ok.injEq, Prod.mk.injEq] at hrun
    rwa [← hrun.2]
  · cases hpush : push cfg a newSz gs with
    | error x =>
      simp only [hpush, bind, Except.bind] at hrun
      exact absurd hrun (by simp)
    | ok q =>
      obtain ⟨o', a₁⟩ := q
      have hs₁ := push_all hs (fun t hfit e c s => hR.mark hfit) hR.fresh hpush
      have hspec := (push_spec hI cfg hgs).ok hpush
      cases o' with
      | none =>
        simp only [hpush, bind, Except.bind, Except.ok.injEq, Prod.mk.injEq] at hrun
        rwa [← hrun.2]
      | some u =>
        obtain ⟨c, U₁, rfl, hg⟩ := hspec
        dsimp only at hg
        have hnewB : ¬B c.ptr := by
          intro hc
          rcases hg.before with hnone | ⟨hft, -⟩ | ⟨-, -, hpark⟩
          · exact (hB _ hc).1 hnone
          · exact absurd hft (by decide)
          · exact (hB _ hc).2 hpark
        have hU₁ : ∀ x, B x → U₁ x = U x := fun x hx => hg.others x fun hxc => hnewB (hxc ▸ hx)
        obtain ⟨m, hnew⟩ := hg.handle hI (canaries_ofSize cfg newSz) (by simp)
        obtain ⟨-, hle, hfit⟩ := hnew.sizeOfAlloc_le hg.inv
        have hroom : 32 * (sizeOfAlloc cfg a₁ (rzApply cfg newSz c).ptr / 32) ≤ m - 32 := by omega
        have hu := hnew.copyCells hg.inv data _ hroom
        have hs₂ := hR.copyCells hg.inv hU₁ hnew hnewB data hs₁ _ hroom
        have hne := hg.not_held hnew hI hh
        rw [rzApply_ptr (canaries_ofSize cfg newSz)] at hne
        have hold := (hg.untouched hu).keeps hI hh hne
        simp only [hpush, bind, Except.bind] at hrun
        cases hpop : Arena.pop cfg (Arena.copyCells cfg (rzApply cfg newSz c).ptr data
            (sizeOfAlloc cfg a₁ (rzApply cfg newSz c).ptr / 32) a₁) p none true with
        | error x =>
          rw [hpop] at hrun
          exact absurd hrun (by simp)
        | ok r =>
          simp only [hpop, Except.ok.injEq, Prod.mk.injEq] at hrun
          rw [← hrun.2]
          exact hR.pop hu.inv hU₁ hold hb hs₂ hpop

end Robust

def Op.names : Op → Option ℕ
  | .pop p _ _ => some p
  | .tsPop p _ _ => some p
  | .resize p _ _ _ => some p
  | .write p _ _ => some p
  | _ => none

theorem freeze_all (hs : AllEntries P a) (p : ℕ) : AllEntries P (freeze a p) := by
  unfold Arena.freeze
  split
  · exact hs
  · exact hs.update ((hs _).congr rfl)

theorem Sound.step_all (hS : Sound cfg w U) {op : Op} (hlegal : w.Legal op)
    (hreset : ∀ p, op = .resetPage p → Arena.dispatch w.arena p = none)
    (hR : Robust B P U op.grants) (hB : ∀ x, B x → U x ≠ none ∧ ¬Parked w.arena x)
    (hnames : ∀ p, op.names = some p → ∀ {h t b n}, Handle cfg w.arena U p h t b n → ¬B b)
    (hs : AllEntries P w.arena) (hstep : w.step cfg op = .ok w') : AllEntries P w'.arena := by
  cases op with
  | push sz gs =>
    obtain ⟨o, hrun⟩ := World.step_push_arena hstep
    exact push_all hs (fun t hfit e c s => hR.mark hfit) hR.fresh hrun
  | launder sz gs =>
    obtain ⟨o, hrun⟩ := World.step_launder_arena hstep
    exact launder_all hs (fun t hfit e c s => hR.mark hfit) hR.fresh hrun
  | pop p len intact =>
    obtain ⟨h, hlive⟩ := Option.isSome_iff_exists.1 hlegal
    obtain ⟨t, b, n, hh⟩ := hS.held hlive
    obtain ⟨r, hrun, rfl⟩ := World.step_pop hstep
    exact hR.pop hS.inv (fun _ _ => rfl) hh (hnames p rfl hh) hs hrun
  | tsPop p len intact =>
    obtain ⟨h, hlive⟩ := Option.isSome_iff_exists.1 hlegal
    obtain ⟨t, b, n, hh⟩ := hS.held hlive
    obtain ⟨r, hrun, rfl⟩ := World.step_tsPop hstep
    exact hR.tsPop hS.inv (fun _ _ => rfl) hh (hnames p rfl hh) hs hrun
  | resize p newSz data gs =>
    obtain ⟨h, hlive⟩ := Option.isSome_iff_exists.1 hlegal.1
    obtain ⟨t, b, n, hh⟩ := hS.held hlive
    obtain ⟨o, hrun⟩ := World.step_resize_arena hstep
    exact hR.resize hS.inv hh (hnames p rfl hh) hB hlegal.2 hs hrun
  | freeze p =>
    obtain rfl := Except.ok.inj hstep
    exact freeze_all hs p
  | resetPage p =>
    obtain rfl := Except.ok.inj hstep
    show AllEntries P (Arena.resetPage w.arena p)
    rw [(resetPage_of_none (hreset p rfl)).1]
    exact hs
  | write p i v =>
    obtain ⟨h, hlive, hi⟩ := Option.any_eq_true _ _ |>.1 hlegal
    have hi := of_decide_eq_true hi
    obtain ⟨t, b, n, hh⟩ := hS.held hlive
    have hwithin := hh.within
    have hle := le_userPtr cfg t b
    rw [← hh.ptr] at hle
    obtain rfl := Except.ok.inj hstep
    exact hR.write hS.inv (fun _ _ => rfl) hh (hnames p rfl hh) (by omega) v hs

/-! ### Bystanders -/

variable {U' : Active} {q b' n' : ℕ} {h' : Held} {s : TierId} {temporal : Bool}

/-- A plain block that is held is not handed out. -/
theorem Given.ne_of_held (hg : Given a U temporal t sz c a' U')
    (hh : Handle cfg a U q h s b n) (hplain : h.temporal = false) : b ≠ c.ptr := by
  rintro rfl
  have hactive := hh.active
  rw [hplain] at hactive
  rcases hg.before with hnone | ⟨htt, hsame⟩ | ⟨-, -, hpark⟩
  · rw [hnone] at hactive
    exact absurd hactive (by simp)
  · obtain ⟨m, hm, -⟩ := hg.active
    rw [hsame, hactive, htt] at hm
    exact absurd hm (by simp)
  · exact hh.out hpark

theorem Given.keeps_held (hI : Inv a U) (hg : Given a U temporal t (rzInflate cfg sz) c a' U')
    (hcan : canaries cfg t = rzActive cfg sz) (hroom : temporal = true → rzActive cfg sz = false)
    (hh : Handle cfg a U q h s b n) (hplain : h.temporal = false) :
    q ≠ (rzApply cfg sz c).ptr ∧ Handle cfg a' U' q h s b n := by
  have hne := hg.ne_of_held hh hplain
  have hq : q ≠ (rzApply cfg sz c).ptr := by
    rintro rfl
    obtain ⟨m, hnew⟩ := hg.handle hI hcan hroom
    have hold : Handle cfg a' U' _ h s b n := hh.congr (hg.others b hne)
      ⟨_, hg.grows s _ hh.covered.choose_spec.1, hh.covered.choose_spec.2⟩
      fun hp => ((hg.parked b).1 hp).1
    obtain ⟨f, hf, -, hfp, -⟩ := hold.frame hg.inv
    obtain ⟨g, hg', -, hgp, -⟩ := hnew.frame hg.inv
    obtain ⟨rfl, -⟩ := hg.inv.frame_unique hf hg' hfp hgp
    exact hne (by rw [← hold.blockPtr_eq, ← hnew.blockPtr_eq])
  exact ⟨hq, hg.keeps hI hh (by rwa [← rzApply_ptr hcan])⟩

def HeldOn (cfg : Config) (N : ℕ → Prop) (w : World) (U : Active) (w' : World) (U' : Active) :
    Prop :=
  ∀ ⦃q h t b n⦄, w.live q = some h → h.temporal = false → Handle cfg w.arena U q h t b n → ¬N q →
    w'.live q = some h ∧ Handle cfg w'.arena U' q h t b n

variable {N M : ℕ → Prop}

theorem HeldOn.refl : HeldOn cfg N w U w U := fun _ _ _ _ _ hlive _ hh _ => ⟨hlive, hh⟩

theorem HeldOn.mono (h : HeldOn cfg N w U w' U') (hNM : ∀ q, N q → M q) :
    HeldOn cfg M w U w' U' :=
  fun q _ _ _ _ hlive hplain hh hq => h hlive hplain hh (mt (hNM q) hq)

theorem HeldOn.trans {w'' : World} {U'' : Active} (h : HeldOn cfg N w U w' U')
    (h' : HeldOn cfg N w' U' w'' U'') : HeldOn cfg N w U w'' U'' := by
  intro q _ _ _ _ hlive hplain hh hq
  obtain ⟨hlive', hh'⟩ := h hlive hplain hh hq
  exact h' hlive' hplain hh' hq

theorem heldOn_idle (hpark : ∀ x, Parked a x → Parked w.arena x)
    (hgrows : Grows w.arena a) : HeldOn cfg N w U { w with arena := a } U := by
  intro q h t b n hlive _ hh _
  obtain ⟨f, hf, hfb⟩ := hh.covered
  exact ⟨hlive, hh.congr rfl ⟨f, hgrows t f hf, hfb⟩ (hpark b)⟩

theorem heldOn_receive (hI : Inv w.arena U)
    (hg : Given w.arena U temporal t (rzInflate cfg sz) c a U')
    (hcan : canaries cfg t = rzActive cfg sz) (hroom : temporal = true → rzActive cfg sz = false) :
    HeldOn cfg N w U (w.receive cfg temporal t (rzApply cfg sz c) a) U' := by
  intro q h s b n hlive hplain hh _
  obtain ⟨hne, hkept⟩ := hg.keeps_held hI hcan hroom hh hplain
  refine ⟨?_, hkept⟩
  show update w.live (rzApply cfg sz c).ptr _ q = some h
  rw [update_of_ne hne, hlive]

theorem heldOn_release (hI : Inv w.arena U) (hh : Handle cfg w.arena U p h t b n)
    (hF : Freed w.arena U b a U') : HeldOn cfg (· = p) w U (w.release p (true, a)) U' := by
  intro q h' s b' n' hlive _ hh' hne
  refine ⟨?_, hF.keeps hI hh' ?_⟩
  · show update w.live p none q = some h'
    rw [update_of_ne hne, hlive]
  · rintro rfl
    exact hne (hh'.ptr_unique hI hh)

/-- What a client holds and does not name stays as it was. -/
theorem Sound.step_keeps (hS : Sound cfg w U) {op : Op} (hlegal : w.Legal op)
    (hreg : Regular cfg w op) (hstep : w.step cfg op = .ok w') :
    ∃ U', Sound cfg w' U' ∧ HeldOn cfg (fun q => op.names = some q) w U w' U' := by
  have hfree : ∀ {p : ℕ} {h : Held} {s : TierId} {b n : ℕ} {r : Bool × Tiers},
      Handle cfg w.arena U p h s b n → ((r.1 = false ∧ r.2 = w.arena) ∨
        (r.1 = true ∧ ∃ U', Freed w.arena U b r.2 U')) →
      ∃ U', Sound cfg (w.release p r) U' ∧ HeldOn cfg (fun q => some p = some q) w U
        (w.release p r) U' := by
    rintro p h s b n ⟨ok, a⟩ hh (⟨rfl, rfl⟩ | ⟨rfl, U', hF⟩)
    · exact ⟨U, hS, .refl⟩
    · exact ⟨U', hS.release hh hF, (heldOn_release hS.inv hh hF).mono fun q hq => by rw [hq]⟩
  cases op with
  | push sz gs =>
    obtain ⟨o, a, hrun, rfl⟩ := World.step_push hstep
    have hspec := (push_spec hS.inv cfg hlegal).ok hrun
    cases o with
    | none =>
      have hpark : ∀ x, Parked a x → Parked w.arena x := fun _ => hspec.2.1.parked.1
      exact ⟨U, hS.idle hspec.1 hpark hspec.2.2, heldOn_idle hpark hspec.2.2⟩
    | some u =>
      obtain ⟨c, U₁, rfl, hg⟩ := hspec
      have hcan := canaries_ofSize cfg sz
      exact ⟨U₁, hS.receive hg hcan (by simp), heldOn_receive hS.inv hg hcan (by simp)⟩
  | launder sz gs =>
    obtain ⟨o, a, hrun, rfl⟩ := World.step_launder hstep
    have hspec := (launder_spec hS.inv cfg hlegal).ok hrun
    cases o with
    | none =>
      have hpark : ∀ x, Parked a x → Parked w.arena x := fun _ => hspec.2.1.parked.1
      exact ⟨U, hS.idle hspec.1 hpark hspec.2.2, heldOn_idle hpark hspec.2.2⟩
    | some u =>
      obtain ⟨c, U₁, rfl, hg⟩ := hspec
      have hcan := canaries_ofLaunder cfg sz
      exact ⟨U₁, hS.receive hg hcan fun _ => hreg, heldOn_receive hS.inv hg hcan fun _ => hreg⟩
  | pop p len intact =>
    obtain ⟨h, hlive⟩ := Option.isSome_iff_exists.1 hlegal
    obtain ⟨s, b, n, hh⟩ := hS.held hlive
    obtain ⟨i, e, hd, he, hcov⟩ := hh.dispatch hS.inv
    have hspec := pop_spec hS.inv cfg len intact hd he (by rwa [hh.blockPtr_eq])
      (by rw [hh.blockPtr_eq]; exact hh.active) (by rw [hh.blockPtr_eq]; exact hh.out)
      fun hk => hreg h hlive hk _ hd
    obtain ⟨r, hrun, rfl⟩ := World.step_pop hstep
    have hr := hspec.ok hrun
    rw [hh.blockPtr_eq] at hr
    exact hfree hh hr
  | tsPop p len intact =>
    obtain ⟨h, hlive⟩ := Option.isSome_iff_exists.1 hlegal
    obtain ⟨s, b, n, hh⟩ := hS.held hlive
    obtain ⟨i, e, hd, he, hcov⟩ := hh.dispatch hS.inv
    have hactive := hh.active
    rw [hreg h hlive] at hactive
    have hspec := tsPop_spec hS.inv cfg len intact hd he (by rwa [hh.blockPtr_eq])
      (by rw [hh.blockPtr_eq]; exact hactive) (by rw [hh.blockPtr_eq]; exact hh.out)
    obtain ⟨r, hrun, rfl⟩ := World.step_tsPop hstep
    have hr := hspec.ok hrun
    rw [hh.blockPtr_eq] at hr
    refine hfree hh (hr.imp_right ?_)
    rintro ⟨hok, U', hF, -⟩
    exact ⟨hok, U', hF⟩
  | resize p newSz data gs =>
    obtain ⟨h, hlive⟩ := Option.isSome_iff_exists.1 hlegal.1
    obtain ⟨s, b, n, hh⟩ := hS.held hlive
    have hplain := hreg h hlive
    obtain ⟨o, a, hrun, rfl⟩ := World.step_resize hstep
    have hr := (hh.resize hS.inv hplain data hlegal.2).ok hrun
    cases o with
    | none =>
      have hpark : ∀ x, Parked a x → Parked w.arena x := fun _ => hr.2.1.parked.1
      exact ⟨U, hS.idle hr.1 hpark hr.2.2, heldOn_idle hpark hr.2.2⟩
    | some u =>
      rcases hr with ⟨rfl, ha, hn⟩ | ⟨c, a₁, U₁, U', rfl, hg, hF⟩
      · obtain rfl : a = w.arena := ha
        simp only [Option.elim_some, if_true]
        refine ⟨U, hS.refit hh hplain hn, fun q h' s' b' n' hlive' _ hh' hne => ⟨?_, hh'⟩⟩
        show update w.live p _ q = some h'
        rw [update_of_ne fun hqp => hne (by rw [hqp]; rfl), hlive']
      · have hcan := canaries_ofSize cfg newSz
        obtain ⟨hnew, hkept⟩ := hg.keeps_held hS.inv hcan (by simp) hh hplain
        simp only [Option.elim_some, if_neg hnew.symm]
        have hmid := hS.receive hg hcan (by simp)
        have hdone := hmid.release hkept hF
        have hboth : HeldOn cfg (fun q => some p = some q) w U _ U' :=
          (heldOn_receive hS.inv hg hcan (by simp)).trans
            ((heldOn_release hmid.inv hkept hF).mono fun q hq => by rw [hq])
        exact ⟨U', ⟨hdone.inv, hdone.held⟩, hboth⟩
  | freeze p =>
    obtain rfl := Except.ok.inj hstep
    obtain ⟨hI, hidx, hpark⟩ := hS.inv.freeze p
    have hgrows : Grows w.arena (Arena.freeze w.arena p) :=
      .of_frames fun t => by rw [Tier.frames, hidx, Tier.frames]
    exact ⟨U, hS.idle hI hpark hgrows, heldOn_idle hpark hgrows⟩
  | resetPage p =>
    obtain rfl := Except.ok.inj hstep
    obtain ⟨hreset, hrel⟩ := resetPage_of_none (a := w.arena) (p := p) hreg
    simp only [hreset, hrel, Bool.false_eq_true, if_false]
    exact ⟨U, hS, .refl⟩
  | write p i v =>
    obtain ⟨h, hlive, hi⟩ := Option.any_eq_true _ _ |>.1 hlegal
    obtain rfl := Except.ok.inj hstep
    obtain ⟨hI, hpark, hgrows⟩ := hS.stores v hlive (of_decide_eq_true hi)
    exact ⟨U, hS.idle hI hpark hgrows, heldOn_idle hpark hgrows⟩

end Arenas

/-! ## The grid -/

/-- A multiple of 32 that divides the start of a row of blocks and their sizes divides all of
their starts. -/
theorem tiles_mod {κ : Type*} {lo hi d : ℕ} {A : BlockMap κ} (hT : Tiles lo hi A) (hlo : d ∣ lo)
    (hsize : ∀ {a n k}, A a = some (n, k) → d ∣ n) :
    ∀ (b : ℕ) {n : ℕ} {k : κ}, A b = some (n, k) → d ∣ b := by
  intro b
  induction b using Nat.strong_induction_on with
  | _ b ih =>
    intro n k hb
    by_cases hbl : b = lo
    · rwa [hbl]
    · obtain ⟨a, m, k', ha, rfl⟩ := hT.pred hb hbl
      have hm := hT.pos ha
      exact dvd_add (ih a (by omega) ha) (hsize ha)

section Grid
variable {t : TierId} {s : t.Heap} {L : Ledger} {b n f : ℕ}

/-- Blocks start at multiples of 32 and their sizes are multiples of 32. -/
theorem used_grid (hrep : t.Rep s L) (hbase : t.base s % 32 = 0) (hb : L.used b = some (n, f)) :
    b % 32 = 0 ∧ n % 32 = 0 := by
  have htlsf : ∀ {h : Tlsf.Heap}, OrRefused tlsfRefused Tlsf.TlsfRep h L → b % 32 = 0 ∧
    n % 32 = 0 := by
    rintro h (⟨A, hG, rfl⟩ | ⟨-, -, hV⟩)
    · have hA := (Tlsf.used_eq_some.1 hb).1
      have hlo : 32 ∣ h.ctl.base + 32 := by
        have := hG.geo.base_mod
        omega
      refine ⟨Nat.mod_eq_zero_of_dvd ?_, hG.phys.size_mod hA⟩
      exact tiles_mod hG.phys.tiles hlo
        (fun ha => Nat.dvd_of_mod_eq_zero (hG.phys.size_mod ha)) b hA
    · rw [hV.used] at hb
      exact absurd hb (by simp)
  have hbuddy : ∀ {h : Buddy.Heap}, OrRefused buddyRefused Buddy.BuddyRep h L →
    h.ctl.base % 32 = 0 →
      b % 32 = 0 ∧ n % 32 = 0 := by
    rintro h (⟨A, hG, rfl⟩ | ⟨-, -, hV⟩) hbase
    · obtain ⟨o, hA⟩ := Buddy.used_eq_some.1 hb
      have hmin : 32 ∣ 2 ^ h.ctl.minLog := by
        have hge := hG.toCore.min_ge
        have hlog : 5 ≤ h.ctl.minLog := by
          by_contra hlt
          have := Nat.pow_le_pow_right (show 0 < 2 by norm_num) (show h.ctl.minLog ≤ 4 by omega)
          omega
        exact pow_dvd_pow 2 hlog
      have hoff := hmin.trans (hG.toCore.min_dvd hA)
      have hsize := hmin.trans (Buddy.min_dvd_orderSize h.ctl o)
      rw [← (hG.size hA).1] at hsize
      have hle := hG.tiles.lower hA
      omega
    · rw [hV.used] at hb
      exact absurd hb (by simp)
  cases t
  · exact htlsf hrep
  · exact htlsf hrep
  all_goals exact hbuddy hrep hbase

/-- The pool of an entry starts at a multiple of 32. -/
def Gridded (t : TierId) (e : Entry t.Heap) : Prop :=
  t.base e.sheet.book % 32 = 0 ∧ ∃ L, t.Rep e.sheet.book L

def Grant.Paged (g : Grant) : Prop := 4096 ∣ g.chunk.ptr

theorem base_format {m : Mem} {tags : ℕ → ℕ} {c : Chunk} (hc : 4096 ∣ c.ptr)
    (hlen : c.ptr + c.len < 2 ^ 64) : t.base (t.params.format m tags c) % 32 = 0 := by
  have htlsf : (Tlsf.initMemory m c.ptr c.len).ctl.base % 32 = 0 := by
    by_cases hacc : (Tlsf.initMemory m c.ptr c.len).ctl.base = 0
    · rw [hacc]
    · exact (Tlsf.initMemory_good hlen.le hacc).geo.base_mod
  have hbuddy : ∀ minLog, 5 ≤ minLog →
      (Buddy.initMemory minLog m c.ptr c.len false tags).ctl.base % 32 = 0 := by
    intro minLog hmin
    have hdvd : 32 ∣ 2 ^ minLog := pow_dvd_pow 2 hmin
    have hround : (c.ptr + 7) % 2 ^ 64 / 8 * 8 = c.ptr := by omega
    simp only [Buddy.initMemory, hround, Bool.false_eq_true, if_false]
    split_ifs
    · rfl
    · rfl
    · rfl
    · show (c.ptr + _ / 2 ^ minLog * 2 ^ minLog) % 32 = 0
      have := hdvd.mul_left (((c.len - (c.ptr + (2 ^ 64 - c.ptr)) % 2 ^ 64 + 2 ^ minLog) % 2 ^ 64 /
        (2 ^ minLog + 1) + 2 ^ minLog - 1) % 2 ^ 64 / 2 ^ minLog)
      omega
  cases t
  · exact htlsf
  · exact htlsf
  · exact hbuddy 12 (by decide)
  · exact hbuddy 15 (by decide)
  · exact hbuddy 18 (by decide)

theorem gridded_new {g : Grant} (hv : g.Valid) (hp : g.Paged) (t : TierId) {head : Bool}
    {guard : ℕ} (hguard : guard = 0 ∨ guard = t.params.guard) :
    Gridded t (Tier.newEntry t.params head guard g.mem g.tags g.chunk) := by
  obtain ⟨hpos, hlen, htop⟩ := hv
  have hsize : g.chunk.ptr + (g.chunk.len - guard) < 2 ^ 64 := by omega
  have hheader : t.params.book.header ≤ g.chunk.len - guard := by
    have htlsf : 32 ≤ g.chunk.len - 0 := by omega
    cases t with
    | precise =>
      obtain rfl : guard = 0 := hguard.elim id id
      exact htlsf
    | small =>
      obtain rfl : guard = 0 := hguard.elim id id
      exact htlsf
    | _ => exact Nat.zero_le _
  obtain ⟨L, hrep, -⟩ :=
    t.formats g.mem g.tags ⟨g.chunk.ptr, g.chunk.len - guard⟩ hpos hsize hheader
  exact ⟨base_format hp hsize, L, hrep⟩

theorem robust_gridded {U : Active} {gs : List Grant} (hgs : ∀ g ∈ gs, g.Valid ∧ g.Paged) :
    Robust (fun _ => False) Gridded U gs where
  mark := by
    rintro t temporal sz e c s hfit ⟨hbase, L, hrep⟩ hrun
    obtain ⟨L', hrep', hcalm, -⟩ := mark_calm hrep hfit hrun
    exact ⟨by rw [← hbase]; exact congrArg (· % 32) hcalm.base, L', hrep'⟩
  fresh g hg t head guard hguard := gridded_new (hgs g hg).1 (hgs g hg).2 t hguard
  remove := by
    rintro U' t e L b n f tomb sized ok s - hL hu hf - ⟨hbase, -⟩ hrun
    obtain ⟨L', hrep', hcalm, -⟩ := tryRemove_calm hL.rep hu hf hrun
    exact ⟨by rw [← hbase]; exact congrArg (· % 32) hcalm.base, L', hrep'⟩
  store := by
    rintro U' t e L b n f i v - hL hu - hi ⟨hbase, -⟩
    refine ⟨?_, L, t.refines.store v hL.rep ⟨b, n, f, i, hu, rfl, hi⟩⟩
    show t.base (t.params.book.store _ _ _) % 32 = 0
    rw [base_store]
    exact hbase

theorem Handle.grid {cfg : Config} {a : Tiers} {U : Active} {p : ℕ} {h : Held}
    (hgrid : AllEntries Gridded a) (hI : Inv a U) (hh : Handle cfg a U p h t b n) :
    b % 32 = 0 ∧ n % 32 = 0 := by
  obtain ⟨i, e, -, he, hcov⟩ := hh.dispatch hI
  obtain ⟨L, hL⟩ := (hI.tiers t).entry_holds he
  obtain ⟨b', f, rfl, hu, -, -⟩ := hL.used t.refines hcov hh.active
  obtain ⟨hb, hn⟩ := used_grid hL.rep (hgrid t e (List.mem_of_getElem? he)).1 hu
  refine ⟨?_, hn⟩
  have hheader : t.params.book.header = 32 ∨ t.params.book.header = 0 := by
    cases t
    · exact Or.inl rfl
    · exact Or.inl rfl
    all_goals exact Or.inr rfl
  omega

end Grid

/-! ## Words of a block in use -/

section Words
variable {cfg : Config} {w w' : World} {a : Tiers} {U U' : Active} {b n x : ℕ} {k : Bool}
    {v : ℕ × ℕ}

def Reads (b x : ℕ) (v : ℕ × ℕ) (t : TierId) (e : Entry t.Heap) : Prop :=
  e.frame.Covers b → t.words e.sheet.book x = v

def Worded (b n x : ℕ) (v : ℕ × ℕ) (t : TierId) (e : Entry t.Heap) : Prop :=
  e.frame.Covers b → t.words e.sheet.book x = v ∧ ∃ L c f, t.Rep e.sheet.book L ∧
    b = c + t.params.book.header ∧ L.used c = some (n, f)

theorem worded_of_reads (hI : Inv a U) (hU : U b = some (n, k)) (h : AllEntries (Reads b x v) a) :
    AllEntries (Worded b n x v) a := by
  intro t e he hcov
  obtain ⟨i, hi⟩ := List.mem_iff_getElem?.1 he
  obtain ⟨L, hL⟩ := (hI.tiers t).entry_holds hi
  obtain ⟨c, f, rfl, hu, -, -⟩ := hL.used t.refines hcov hU
  exact ⟨h t e he hcov, L, c, f, hL.rep, rfl, hu⟩

/-- Whoever leaves a block alone leaves its words alone. -/
theorem robust_worded (hU : U b = some (n, k)) {j : ℕ} (hj : 32 * j + 32 ≤ n - 32)
    {gs : List Grant} (hgs : ∀ g ∈ gs, ¬(g.chunk.ptr ≤ b ∧ b < g.chunk.ptr + g.chunk.len)) :
    Robust (fun y => y = b) (Worded b n (b + 32 * j) v) U gs where
  mark := by
    rintro t temporal sz e c s hfit hP hrun hcov
    obtain ⟨hv, L, d, f, hrep, rfl, hu⟩ := hP hcov
    obtain ⟨L', hrep', hcalm, hkeep⟩ := mark_calm hrep hfit hrun
    refine ⟨?_, L', d, f, hrep', rfl, hkeep d _ hu⟩
    rw [← hv]
    exact hcalm.words ⟨d, n, f, j, hu, rfl, hj⟩
  fresh g hg t head guard _ hcov := by
    have h₁ : g.chunk.ptr ≤ b := hcov.1
    have h₂ : b < g.chunk.ptr + g.chunk.len - guard := hcov.2
    exact absurd ⟨h₁, by omega⟩ (hgs g hg)
  remove := by
    rintro U' t e L c m f tomb sized ok s hU' hL hu hf hne hP hrun hcov
    have hactive : U' b = some (n, k) := (hU' b rfl).trans hU
    obtain ⟨d, g, rfl, hd, -, -⟩ := hL.used t.refines hcov hactive
    obtain ⟨L', hrep', hcalm, hkeep⟩ := tryRemove_calm hL.rep hu hf hrun
    refine ⟨?_, L', d, g, hrep', rfl, ?_⟩
    · rw [← (hP hcov).1]
      exact hcalm.words ⟨d, n, g, j, hd, rfl, hj⟩
    · rw [hkeep d fun hdc => hne (by rw [hdc]), hd]
  store := by
    rintro U' t e L c m f i v' hU' hL hu hne hi hP hcov
    have hactive : U' b = some (n, k) := (hU' b rfl).trans hU
    obtain ⟨d, g, rfl, hd, -, -⟩ := hL.used t.refines hcov hactive
    refine ⟨?_, L, d, g, t.refines.store v' hL.rep ⟨c, m, f, i, hu, rfl, hi⟩, rfl, hd⟩
    have hdisj := (t.refines.valid hL.rep).disjoint hu hd fun hcd => hne (by rw [hcd])
    have hx : d + t.params.book.header + 32 * j ≠ c + t.params.book.header + 32 * i := by omega
    rw [← (hP hcov).1]
    show ((t.mem (t.params.book.store _ _ _)).w2 _, (t.mem (t.params.book.store _ _ _)).w3 _) = _
    rw [mem_store]
    simp only [Mem.store, update_of_ne hx]
    rfl

theorem World.Legal.mapped {op : Op} (hlegal : w.Legal op) : Mapped w.arena op.grants := by
  cases op with
  | push sz gs => exact hlegal
  | launder sz gs => exact hlegal
  | resize p newSz data gs => exact hlegal.2
  | _ => exact ⟨fun g hg => absurd hg List.not_mem_nil, List.Pairwise.nil⟩

/-- The grid is kept when the mappings of a step are made of whole pages. -/
theorem Sound.step_gridded (hS : Sound cfg w U) {op : Op} (hlegal : w.Legal op)
    (hreg : Regular cfg w op) (hpaged : ∀ g ∈ op.grants, g.Paged)
    (hgrid : AllEntries Gridded w.arena) (hstep : w.step cfg op = .ok w') :
    AllEntries Gridded w'.arena := by
  have hR : Robust (fun _ => False) Gridded U op.grants :=
    robust_gridded fun g hg => ⟨(hlegal.mapped.1 g hg).1, hpaged g hg⟩
  apply hS.step_all hlegal _ hR (fun _ hx => hx.elim) (fun _ _ _ _ _ _ _ => id) hgrid hstep
  rintro p rfl
  exact hreg

theorem Mapped.not_covers {gs : List Grant} (hgs : Mapped a gs) (hI : Inv a U)
    (hU : U b = some (n, k)) : ∀ g ∈ gs, ¬(g.chunk.ptr ≤ b ∧ b < g.chunk.ptr + g.chunk.len) := by
  intro g hg hb
  obtain ⟨t, f, hf, hfb⟩ := hI.covered hU
  obtain ⟨i, e, he, rfl⟩ := Tier.exists_entry hf
  have hgood := (hI.tiers t).entry_good he
  have hapart := (hgs.1 g hg).2 t t.mem_all e (List.mem_of_getElem? he)
  have h₁ : e.sheet.mem.ptr ≤ b := hgood.ptr.trans_le hfb.1
  have h₂ : b < e.sheet.mem.ptr + e.sheet.mem.len := lt_of_lt_of_le hfb.2 hgood.hi_le
  rcases hapart with h₃ | h₃ <;> omega

/-- The words of a block that a client holds and does not name stay as they were. -/
theorem Sound.step_reads {q j : ℕ} {h : Held} {t : TierId} (hS : Sound cfg w U) {op : Op}
    (hlegal : w.Legal op) (hreg : Regular cfg w op) (hh : Handle cfg w.arena U q h t b n)
    (hop : op.names ≠ some q) (hj : 32 * j + 32 ≤ n - 32)
    (hr : AllEntries (Reads b (b + 32 * j) v) w.arena) (hstep : w.step cfg op = .ok w') :
    AllEntries (Reads b (b + 32 * j) v) w'.arena := by
  have hworded : AllEntries (Worded b n (b + 32 * j) v) w'.arena := by
    apply hS.step_all hlegal _ (robust_worded hh.active hj
      (hlegal.mapped.not_covers hS.inv hh.active)) _ _ (worded_of_reads hS.inv hh.active hr) hstep
    · rintro p rfl
      exact hreg
    · rintro x rfl
      exact ⟨by rw [hh.active]; simp, hh.out⟩
    · rintro p hp h' s b' n' hh' rfl
      exact hop (by rw [hp, hh'.ptr_unique hS.inv hh])
  exact fun t e he hcov => (hworded t e he hcov).1

end Words
end AbcMalloc.Arena
