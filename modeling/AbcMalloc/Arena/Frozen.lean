import AbcMalloc.Arena.Routes
import AbcMalloc.Arena.Overlap

/-! Frozen sheets. `freeze` drops the parked blocks of a sheet and makes it read-only, but the
sheet stays in the bitmap of its tier and its blocks can still be freed. A sheet that later
calls do not reach is left as it was. -/
namespace AbcMalloc.Arena
open Function Foundation

/-! ## Requests that another sheet serves -/

section Passing
variable {σ : Type*} {T : Params σ} {t t' : Tier σ} {e e' : Entry σ} {i j sz : ℕ} {c : Chunk}
  {temporal : Bool}

/-- The sheet at `i` is in the bitmap and its list has a block for the request. -/
def Tier.serves (T : Params σ) (temporal : Bool) (sz : ℕ) (t : Tier σ) (i : ℕ) : Bool :=
  t.maskGet i && (t.idx[i]?).any fun e =>
    (e.sheet.mark T temporal sz).toOption.any fun r => r.1.ptr ≠ 0

/-- The request takes no block of the sheet at `i`: that one does not serve it, or the sheet of the
last hit or one in front of it does. -/
def Tier.passes (T : Params σ) (temporal : Bool) (sz : ℕ) (t : Tier σ) (i : ℕ) : Bool :=
  !t.serves T temporal sz i || (t.lastHit ≠ i && (t.serves T temporal sz t.lastHit ||
    (List.range (min i T.maxSheets)).any (t.serves T temporal sz)))

namespace Tier

theorem exists_offers (h : t.serves T temporal sz i = true) : ∃ e, t.Offers T temporal sz e i := by
  simp only [serves, Bool.and_eq_true] at h
  obtain ⟨e, he, hserve⟩ := Option.any_eq_true _ _ |>.1 h.2
  obtain ⟨r, hr, hc⟩ := Option.any_eq_true _ _ |>.1 hserve
  refine ⟨e, he, h.1, r.1, r.2, ?_, of_decide_eq_true hc⟩
  cases hm : e.sheet.mark T temporal sz with
  | error x => simp [hm, Except.toOption] at hr
  | ok x =>
    simp only [hm, Except.toOption, Option.some.injEq] at hr
    rw [hr]

theorem rests_of_serves (he : t.idx[i]? = some e)
    (hmark : e.sheet.mark T temporal sz = .ok (.null, e.sheet) ∨
      ∃ c s, e.sheet.mark T temporal sz = .ok (c, s) ∧ c.ptr ≠ 0)
    (hs : t.serves T temporal sz i = false) : t.Rests T temporal sz e i := by
  refine ⟨he, ?_⟩
  rcases hmark with hdry | ⟨c, s, hm, hc⟩
  · exact Or.inr hdry
  · left
    simpa [serves, he, hm, Except.toOption, hc] using hs

theorem insertAt_other (he : t.idx[i]? = some e) (hji : j ≠ i)
    (hrun : insertAt T temporal sz t j e' = .ok (c, t')) :
    t'.idx[i]? = some e ∧ (c.ptr ≠ 0 → t'.lastHit ≠ i) := by
  unfold insertAt at hrun
  cases hmark : e'.sheet.mark T temporal sz with
  | error x =>
    rw [hmark] at hrun
    exact absurd hrun (by simp [bind, Except.bind])
  | ok r =>
    simp only [hmark, bind, Except.bind, Except.ok.injEq, Prod.mk.injEq] at hrun
    obtain ⟨rfl, rfl⟩ := hrun
    have hset : (t.setSheet j r.2).idx[i]? = some e := by rwa [getElem?_setSheet_of_ne hji]
    split_ifs with hc
    · exact ⟨hset, fun _ => hji⟩
    · exact ⟨hset, fun hne => absurd hne hc⟩

/-- The scan of a word up to the one with an offer ends in front of the sheets behind the offer. -/
theorem Offers.scanWord_before (hji : j < i) {w : ℕ} (hw : w ≤ j / 64) :
    ∀ (bits : List ℕ) {t : Tier σ}, t.Offers T temporal sz e' j → t.idx[i]? = some e →
      bits.Pairwise (· < ·) → (∀ bit ∈ bits, bit < 64) → (w = j / 64 → j % 64 ∈ bits) →
      Tier.scanWord T temporal sz w bits t = .ok (c, t') →
      t'.idx[i]? = some e ∧ (c.ptr ≠ 0 → t'.lastHit ≠ i) ∧
        (c.ptr = 0 → t'.Offers T temporal sz e' j) := by
  intro bits
  induction bits with
  | nil =>
    intro t h he _ _ _ hrun
    simp only [Tier.scanWord, Except.ok.injEq, Prod.mk.injEq] at hrun
    obtain ⟨rfl, rfl⟩ := hrun
    exact ⟨he, fun hne => absurd rfl hne, fun _ => h⟩
  | cons bit bits ih =>
    intro t h he hsorted hlt hmem hrun
    obtain ⟨hbit, hsorted⟩ := List.pairwise_cons.1 hsorted
    -- the bit of the offer has not been passed yet
    have hle : 64 * w + bit ≤ j := by
      have hlt := hlt bit List.mem_cons_self
      rcases Nat.lt_or_ge w (j / 64) with hwlt | hwge
      · omega
      · rcases List.mem_cons.1 (hmem (le_antisymm hw hwge)) with heq | hrest
        · omega
        · have := hbit _ hrest
          omega
    unfold Tier.scanWord at hrun
    split at hrun
    · simp only [Except.ok.injEq, Prod.mk.injEq] at hrun
      obtain ⟨rfl, rfl⟩ := hrun
      exact ⟨he, fun hne => absurd rfl hne, fun _ => h⟩
    · next x hx =>
      cases hat : Tier.insertAt T temporal sz t (64 * w + bit) x with
      | error y =>
        rw [hat] at hrun
        exact absurd hrun (by simp [bind, Except.bind])
      | ok r =>
        obtain ⟨he', hhit⟩ := insertAt_other he (by omega) hat
        simp only [hat, bind, Except.bind] at hrun
        rcases h.insertAt hx hat with hc | ⟨hne, h'⟩
        · rw [if_pos hc] at hrun
          simp only [Except.ok.injEq, Prod.mk.injEq] at hrun
          obtain ⟨rfl, rfl⟩ := hrun
          exact ⟨he', hhit, fun h0 => absurd h0 hc⟩
        · by_cases hc : r.1.ptr = 0
          · rw [if_neg (by simp [hc])] at hrun
            refine ih h' he' hsorted (fun b hb => hlt b (List.mem_cons_of_mem _ hb))
              (fun hwj => ?_) hrun
            rcases List.mem_cons.1 (hmem hwj) with heq | hrest
            · omega
            · exact hrest
          · rw [if_pos hc] at hrun
            simp only [Except.ok.injEq, Prod.mk.injEq] at hrun
            obtain ⟨rfl, rfl⟩ := hrun
            exact ⟨he', hhit, fun h0 => absurd h0 hc⟩

theorem Offers.scanWords_before (hji : j < i) : ∀ (ws : List ℕ) {t : Tier σ},
    t.Offers T temporal sz e' j → t.idx[i]? = some e → ws.Pairwise (· < ·) → j / 64 ∈ ws →
    Tier.scanWords T temporal sz ws t = .ok (c, t') →
    t'.idx[i]? = some e ∧ (c.ptr ≠ 0 → t'.lastHit ≠ i) := by
  intro ws
  induction ws with
  | nil => exact fun _ _ _ hmem => absurd hmem List.not_mem_nil
  | cons w ws ih =>
    intro t h he hsorted hmem hrun
    obtain ⟨hw, hsorted⟩ := List.pairwise_cons.1 hsorted
    have hwle : w ≤ j / 64 := by
      rcases List.mem_cons.1 hmem with heq | hrest
      · exact heq.ge
      · exact (hw _ hrest).le
    have hmod : j % 64 < 64 := Nat.mod_lt _ (by decide)
    unfold Tier.scanWords at hrun
    simp only at hrun
    cases hscan : Tier.scanWord T temporal sz w
        ((List.range 64).filter fun j => (t.spaceMask w).getLsbD j) t with
    | error y =>
      rw [hscan] at hrun
      exact absurd hrun (by simp [bind, Except.bind])
    | ok r =>
      have hbits : w = j / 64 →
        j % 64 ∈ (List.range 64).filter fun j => (t.spaceMask w).getLsbD j := by
        intro hwj
        have hbit := h.bit
        unfold maskGet at hbit
        rw [← hwj] at hbit
        exact List.mem_filter.2 ⟨List.mem_range.2 hmod, hbit⟩
      have hpair : ((List.range 64).filter fun j => (t.spaceMask w).getLsbD j).Pairwise (· < ·) :=
        List.pairwise_lt_range.filter _
      obtain ⟨he', hhit, hnext⟩ := h.scanWord_before hji hwle _ he hpair
        (fun bit hbit => List.mem_range.1 (List.mem_filter.1 hbit).1) hbits hscan
      simp only [hscan, bind, Except.bind] at hrun
      by_cases hc : r.1.ptr = 0
      · rw [if_neg (by simp [hc])] at hrun
        rcases List.mem_cons.1 hmem with heq | hrest
        · -- the word of the offer does not come back empty-handed
          rcases h.scanWord w _ hpair hscan with hne | ⟨-, hne⟩
          · exact absurd hc hne
          · exact absurd (by omega) (hne _ (hbits heq.symm))
        · exact ih (hnext hc) he' hsorted hrest hrun
      · rw [if_pos hc] at hrun
        simp only [Except.ok.injEq, Prod.mk.injEq] at hrun
        obtain ⟨rfl, rfl⟩ := hrun
        exact ⟨he', hhit⟩

/-- A request that passes by a sheet leaves it as it was. -/
theorem bucketInsert_passes (he : t.idx[i]? = some e)
    (hmark : e.sheet.mark T temporal sz = .ok (.null, e.sheet) ∨
      ∃ c s, e.sheet.mark T temporal sz = .ok (c, s) ∧ c.ptr ≠ 0)
    (hp : t.passes T temporal sz i = true) (hrun : bucketInsert T temporal t sz = .ok (c, t')) :
    t'.idx[i]? = some e ∧ (c.ptr ≠ 0 → t'.lastHit ≠ i) ∧
      (c.ptr = 0 → t'.Rests T temporal sz e i) := by
  cases hs : t.serves T temporal sz i with
  | false =>
    obtain ⟨hrest, hhit⟩ := bucketInsert_rests (rests_of_serves he hmark hs) hrun
    exact ⟨hrest.entry, hhit, fun _ => hrest⟩
  | true =>
    simp only [passes, hs, Bool.not_true, Bool.false_or, Bool.and_eq_true, Bool.or_eq_true,
      decide_eq_true_eq, List.any_eq_true, List.mem_range] at hp
    obtain ⟨hlast, hp⟩ := hp
    obtain ⟨j, x, hj, hoff⟩ : ∃ j x, (j = t.lastHit ∨ j < i ∧ j < T.maxSheets) ∧
        t.Offers T temporal sz x j := by
      rcases hp with hlast | ⟨j, hj, hserve⟩
      · exact ⟨_, (exists_offers hlast).choose, Or.inl rfl, (exists_offers hlast).choose_spec⟩
      · exact ⟨j, (exists_offers hserve).choose, Or.inr (lt_min_iff.1 hj),
          (exists_offers hserve).choose_spec⟩
    unfold bucketInsert at hrun
    cases hat : insertLastHit T temporal t sz with
    | error y =>
      rw [hat] at hrun
      exact absurd hrun (by simp [bind, Except.bind])
    | ok r =>
      have hfirst : r.2.idx[i]? = some e ∧ (r.1.ptr ≠ 0 → r.2.lastHit ≠ i) ∧
          (r.1.ptr = 0 → j ≠ t.lastHit ∧ r.2.Offers T temporal sz x j) := by
        unfold insertLastHit at hat
        split at hat
        · next y hy =>
          split_ifs at hat with hbit
          · obtain ⟨he', hhit⟩ := insertAt_other he hlast hat
            refine ⟨he', hhit, fun h0 => ?_⟩
            rcases hoff.insertAt hy hat with hne | ⟨hne, hoff'⟩
            · exact absurd h0 hne
            · exact ⟨hne.symm, hoff'⟩
          · obtain rfl := Except.ok.inj hat
            refine ⟨he, fun hne => absurd rfl hne, fun _ => ⟨?_, hoff⟩⟩
            rintro rfl
            exact hbit hoff.bit
        · next hnone =>
          obtain rfl := Except.ok.inj hat
          refine ⟨he, fun hne => absurd rfl hne, fun _ => ⟨?_, hoff⟩⟩
          rintro rfl
          rw [hoff.entry] at hnone
          exact absurd hnone (by simp)
      obtain ⟨he', hhit, hnext⟩ := hfirst
      simp only [hat, bind, Except.bind] at hrun
      by_cases hc : r.1.ptr = 0
      · rw [if_neg (by simp [hc])] at hrun
        obtain ⟨hne, hoff'⟩ := hnext hc
        obtain ⟨hji, hmax⟩ := hj.resolve_left hne
        have hword : j / 64 ∈ List.range (detailWords T) := by
          rw [List.mem_range]
          unfold detailWords
          omega
        obtain ⟨he'', hhit'⟩ := hoff'.scanWords_before hji _ he' List.pairwise_lt_range hword hrun
        exact ⟨he'', hhit', fun h0 => absurd h0 (hoff'.scanWords _ hrun hword)⟩
      · rw [if_pos hc] at hrun
        simp only [Except.ok.injEq, Prod.mk.injEq] at hrun
        obtain ⟨rfl, rfl⟩ := hrun
        exact ⟨he', hhit, fun h0 => absurd h0 hc⟩

end Tier
end Passing

section Requests
variable {cfg : Config} {a a' : Tiers} {U : Active} {s t : TierId} {e : Entry t.Heap} {sz : ℕ}
  {c : Chunk} {temporal : Bool}

/-- Requests of `sz` bytes of the tier `s` pass by the sheet of `e`. -/
structure Unreached (temporal : Bool) (sz : ℕ) (s t : TierId) (e : Entry t.Heap) (a : Tiers) :
    Prop where
  mem : e ∈ (a t).idx
  passes : s = t → ∃ i, (a t).idx[i]? = some e ∧ (a t).passes t.params temporal sz i = true

structure Idle (temporal : Bool) (sz : ℕ) (s t : TierId) (e : Entry t.Heap) (a : Tiers) : Prop where
  mem : e ∈ (a t).idx
  rests : s = t → ∃ i, (a t).Rests t.params temporal sz e i

theorem Idle.unreached (h : Idle temporal sz s t e a) : Unreached temporal sz s t e a := by
  refine ⟨h.mem, fun hst => ?_⟩
  obtain ⟨i, hi⟩ := h.rests hst
  refine ⟨i, hi.entry, ?_⟩
  have hserves : (a t).serves t.params temporal sz i = false := by
    rcases hi.idle with hclear | hdry
    · simp [Tier.serves, hclear]
    · simp [Tier.serves, hi.entry, show e.sheet.mark t.params temporal sz = _ from hdry,
        Except.toOption, Chunk.null]
  simp [Tier.passes, hserves]

def Elsewhere (a : Tiers) (s t : TierId) (e : Entry t.Heap) (b : ℕ) (a' : Tiers) : Prop :=
  s = t → (∃ i, (a' t).idx[i]? = some e ∧ (a' t).lastHit ≠ i) ∨ Parked a b

def Passed (temporal : Bool) (sz : ℕ) (s t : TierId) (e : Entry t.Heap) (a : Tiers) (c : Chunk)
    (a' : Tiers) : Prop :=
  e ∈ (a' t).idx ∧ (c.ptr ≠ 0 → Elsewhere a s t e c.ptr a') ∧
    (c.ptr = 0 → Idle temporal sz s t e a')

theorem onTier_reaches {f : Tier s.Heap → Except Halt (Chunk × Tier s.Heap)}
    (hf : ∀ {x : Tier s.Heap} {e : Entry s.Heap} {i : ℕ}, e ∈ (a s).idx →
      (a s).idx[i]? = some e → (a s).passes s.params temporal sz i = true → f (a s) = .ok (c, x) →
      x.idx[i]? = some e ∧ (c.ptr ≠ 0 → x.lastHit ≠ i ∨ ∃ y ∈ (a s).cache, y.1 = c.ptr) ∧
        (c.ptr = 0 → x.Rests s.params temporal sz e i))
    (h : Unreached temporal sz s t e a) (hrun : onTier a s f = .ok (c, a')) :
    Passed temporal sz s t e a c a' := by
  unfold onTier at hrun
  cases hx : f (a s) with
  | error y =>
    rw [hx] at hrun
    exact absurd hrun (by simp [bind, Except.bind])
  | ok r =>
    simp only [hx, bind, Except.bind, Except.ok.injEq, Prod.mk.injEq] at hrun
    obtain ⟨rfl, rfl⟩ := hrun
    by_cases hst : s = t
    · subst hst
      obtain ⟨i, hi, hpass⟩ := h.passes rfl
      obtain ⟨hentry, hhit, hrest⟩ := hf h.mem hi hpass hx
      unfold Passed Elsewhere
      rw [update_self]
      refine ⟨List.mem_of_getElem? hentry, fun hc _ => ?_, fun hc => ⟨?_, fun _ => ⟨i, ?_⟩⟩⟩
      · rcases hhit hc with hne | ⟨y, hy, hyc⟩
        · exact Or.inl ⟨i, hentry, hne⟩
        · exact Or.inr ⟨s, y, hy, hyc⟩
      · rw [update_self]
        exact List.mem_of_getElem? hentry
      · rw [update_self]
        exact hrest hc
    · have hmem : e ∈ (update a s r.2 t).idx := by
        rw [update_of_ne fun hts : t = s => hst hts.symm]
        exact h.mem
      exact ⟨hmem, fun _ heq => absurd heq hst, fun _ => ⟨hmem, fun heq => absurd heq hst⟩⟩

/-- A sheet has a block for a request or answers with the null chunk and stays as it was. -/
theorem Inv.mark (hI : Inv a U) (he : e ∈ (a t).idx) (hfit : TierId.fits t sz = true) :
    e.sheet.mark t.params temporal sz = .ok (.null, e.sheet) ∨
      ∃ c x, e.sheet.mark t.params temporal sz = .ok (c, x) ∧ c.ptr ≠ 0 := by
  obtain ⟨i, hi⟩ := List.mem_iff_getElem?.1 he
  obtain ⟨L, hH⟩ := (hI.tiers t).entry_holds hi
  rcases hH.mark (TierId.refines t) ((hI.tiers t).not_empty hi) temporal hfit with hnull |
    ⟨p, n, b, U', L', hmark, hp, -⟩
  · exact Or.inl hnull
  · exact Or.inr ⟨_, _, hmark, hp⟩

theorem vmapAlloc_reaches (hI : Inv a U) (h : Unreached false sz (.ofSize sz) t e a)
    (hrun : vmapAlloc cfg a sz = .ok (c, a')) : Passed false sz (.ofSize sz) t e a c a' := by
  apply onTier_reaches _ h hrun
  intro x e i hmem hi hpass hpop
  unfold Tier.cachePopOrInsert at hpop
  split at hpop
  · next j hj =>
    obtain ⟨hlt, -⟩ := Tier.probe_eq_some hj
    have hne := ((hI.tiers (.ofSize sz)).popAt hj).1
    simp only [Except.ok.injEq, Prod.mk.injEq] at hpop
    obtain ⟨rfl, rfl⟩ := hpop
    refine ⟨hi, fun _ => Or.inr ⟨_, ?_, rfl⟩, fun h0 => absurd h0 hne⟩
    unfold Cache.popAt
    rw [List.getD_eq_getElem _ _ hlt]
    exact List.getElem_mem hlt
  · obtain ⟨h₁, h₂, h₃⟩ := Tier.bucketInsert_passes hi
      (hI.mark hmem (TierId.fits_ofSize sz)) hpass hpop
    exact ⟨h₁, fun hc => Or.inl (h₂ hc), h₃⟩

theorem vmapLaunder_reaches (hI : Inv a U) (h : Unreached true sz (.ofLaunder sz) t e a)
    (hrun : vmapLaunder a sz = .ok (c, a')) : Passed true sz (.ofLaunder sz) t e a c a' := by
  apply onTier_reaches _ h hrun
  intro x e i hmem hi hpass hins
  obtain ⟨h₁, h₂, h₃⟩ := Tier.bucketInsert_passes hi
    (hI.mark hmem (TierId.fits_ofLaunder sz)) hpass hins
  exact ⟨h₁, fun hc => Or.inl (h₂ hc), h₃⟩

theorem bufExpand_reaches {n : ℕ} (h : Idle temporal n s t e a) {g : Option Grant} {ok : Bool}
    (hrun : bufExpand a sz g = .ok (ok, a')) : Idle temporal n s t e a' := by
  unfold bufExpand at hrun
  simp only at hrun
  cases g with
  | none =>
    simp only at hrun
    split_ifs at hrun
    simp only [Except.ok.injEq, Prod.mk.injEq] at hrun
    rw [← hrun.2]
    exact h
  | some g =>
    simp only at hrun
    split at hrun
    · simp only [Except.ok.injEq, Prod.mk.injEq] at hrun
      rw [← hrun.2]
      exact h
    · next x hx =>
      simp only [Except.ok.injEq, Prod.mk.injEq] at hrun
      rw [← hrun.2]
      by_cases hts : t = .ofExpand sz
      · subst hts
        constructor
        · rw [update_self]
          obtain ⟨l₁, l₂, hold, hnew, -⟩ := Tier.registerSheet_split hx
          have hmem : e ∈ l₁ ++ l₂ := hold ▸ h.mem
          rw [hnew]
          rw [List.mem_append] at hmem
          rw [List.mem_append, List.mem_cons]
          exact hmem.imp_right Or.inr
        · intro hs
          obtain ⟨i, hi⟩ := h.rests hs
          rw [update_self]
          exact Tier.registerSheet_rests (t := { a (.ofExpand sz) with built := true })
            ⟨hi.entry, hi.idle⟩ hx
      · constructor
        · rw [update_of_ne hts]
          exact h.mem
        · rw [update_of_ne hts]
          exact h.rests

theorem attempt_reaches {r : TierId} {alloc : Tiers → Except Halt (Chunk × Tiers)}
    (hal : ∀ {a U}, Inv a U → ∃ c a', alloc a = .ok (c, a') ∧ Attempted a U temporal r sz c a')
    (hreach : ∀ {a U c a'}, Inv a U → Unreached temporal sz s t e a → alloc a = .ok (c, a') →
      Passed temporal sz s t e a c a') :
    ∀ (n : ℕ) {a : Tiers} {gs : List Grant} {o : Option Chunk}, Inv a U → Mapped a gs →
      Unreached temporal sz s t e a → attempt alloc sz n gs a = .ok (o, a') →
      e ∈ (a' t).idx ∧ ∀ c, o = some c → Elsewhere a s t e c.ptr a' := by
  intro n
  induction n with
  | zero =>
    intro a gs o hI hgs h hrun
    obtain ⟨c, a₁, hok, -⟩ := hal hI
    obtain ⟨hmem, hels, -⟩ := hreach hI h hok
    rw [attempt, hok] at hrun
    simp only [bind, Except.bind] at hrun
    split_ifs at hrun with hc
    · simp only [Except.ok.injEq, Prod.mk.injEq] at hrun
      obtain ⟨rfl, rfl⟩ := hrun
      refine ⟨hmem, fun c' hc' => ?_⟩
      obtain rfl := Option.some.inj hc'
      exact hels hc
    · simp only [Except.ok.injEq, Prod.mk.injEq] at hrun
      obtain ⟨rfl, rfl⟩ := hrun
      exact ⟨hmem, fun c' hc' => absurd hc' (by simp)⟩
  | succ n ih =>
    intro a gs o hI hgs h hrun
    obtain ⟨c, a₁, hok, hA⟩ := hal hI
    obtain ⟨hmem, hels, hidle⟩ := hreach hI h hok
    rw [attempt, hok] at hrun
    simp only [bind, Except.bind] at hrun
    split_ifs at hrun with hc
    · simp only [Except.ok.injEq, Prod.mk.injEq] at hrun
      obtain ⟨rfl, rfl⟩ := hrun
      refine ⟨hmem, fun c' hc' => ?_⟩
      obtain rfl := Option.some.inj hc'
      exact hels hc
    · rcases hA with ⟨-, hI₁, hsame, hframes⟩ | ⟨U', hG⟩
      · cases hexp : bufExpand a₁ sz gs.head? with
        | error y =>
          rw [hexp] at hrun
          exact absurd hrun (by simp)
        | ok x =>
          obtain ⟨b, a₂⟩ := x
          obtain ⟨hI₂, hsame₂, -, hgs₂⟩ := (bufExpand_spec hI₁ sz (hgs.congr hframes)).ok hexp
          -- an attempt that came back empty-handed leaves the sheet idle
          have h₂ := bufExpand_reaches (hidle (not_not.1 hc)) hexp
          simp only [hexp] at hrun
          split_ifs at hrun
          · obtain ⟨hmem, hall⟩ := ih hI₂ hgs₂ h₂.unreached hrun
            refine ⟨hmem, fun c' hc' hst => ?_⟩
            have hpark : Parked a₂ c'.ptr ↔ Parked a c'.ptr := hsame₂.parked.trans hsame.parked
            exact (hall c' hc' hst).imp_right hpark.1
          · simp only [Except.ok.injEq, Prod.mk.injEq] at hrun
            obtain ⟨rfl, rfl⟩ := hrun
            exact ⟨h₂.mem, fun c' hc' => absurd hc' (by simp)⟩
      · exact absurd hG.ptr hc

theorem push_reaches (hI : Inv a U) {gs : List Grant} (hgs : Mapped a gs)
    (h : Unreached false (rzInflate cfg sz) (.ofSize (rzInflate cfg sz)) t e a) {o : Option Chunk}
    (hrun : push cfg a sz gs = .ok (o, a')) : e ∈ (a' t).idx ∧ ∀ u, o = some u →
      ∃ c, u = rzApply cfg sz c ∧ Elsewhere a (.ofSize (rzInflate cfg sz)) t e c.ptr a' := by
  unfold push at hrun
  split_ifs at hrun
  simp only at hrun
  cases hatt : attempt (fun a => vmapAlloc cfg a (rzInflate cfg sz)) (rzInflate cfg sz) 2 gs a with
  | error y =>
    rw [hatt] at hrun
    exact absurd hrun (by simp [bind, Except.bind])
  | ok x =>
    obtain ⟨hmem, hall⟩ := attempt_reaches (fun hI => vmapAlloc_spec hI cfg (rzInflate cfg sz))
      (fun hI h hok => vmapAlloc_reaches hI h hok) 2 hI hgs h hatt
    simp only [hatt, bind, Except.bind, Except.ok.injEq, Prod.mk.injEq] at hrun
    obtain ⟨rfl, rfl⟩ := hrun
    refine ⟨hmem, fun u hu => ?_⟩
    obtain ⟨c, hc, rfl⟩ := Option.map_eq_some_iff.1 hu
    exact ⟨c, rfl, hall c hc⟩

theorem launder_reaches (hI : Inv a U) {gs : List Grant} (hgs : Mapped a gs)
    (h : Unreached true (rzInflate cfg sz) (.ofLaunder (rzInflate cfg sz)) t e a) {o : Option Chunk}
    (hrun : launder cfg a sz gs = .ok (o, a')) : e ∈ (a' t).idx ∧ ∀ u, o = some u →
      ∃ c, u = rzApply cfg sz c ∧ Elsewhere a (.ofLaunder (rzInflate cfg sz)) t e c.ptr a' := by
  unfold launder at hrun
  split_ifs at hrun
  simp only at hrun
  cases hatt : attempt (fun a => vmapLaunder a (rzInflate cfg sz)) (rzInflate cfg sz) 2 gs a with
  | error y =>
    rw [hatt] at hrun
    exact absurd hrun (by simp [bind, Except.bind])
  | ok x =>
    obtain ⟨hmem, hall⟩ := attempt_reaches (fun hI => vmapLaunder_spec hI (rzInflate cfg sz))
      (fun hI h hok => vmapLaunder_reaches hI h hok) 2 hI hgs h hatt
    simp only [hatt, bind, Except.bind, Except.ok.injEq, Prod.mk.injEq] at hrun
    obtain ⟨rfl, rfl⟩ := hrun
    refine ⟨hmem, fun u hu => ?_⟩
    obtain ⟨c, hc, rfl⟩ := Option.map_eq_some_iff.1 hu
    exact ⟨c, rfl, hall c hc⟩

/-- A push that the cache serves changes nothing but the cache. -/
theorem push_cached (hI : Inv a U) {gs : List Grant} {o : Option Chunk}
    (hprobe : ((a (.ofSize (rzInflate cfg sz))).cache.probe
      (Tier.cacheFit cfg (rzInflate cfg sz))).isSome = true)
    (hrun : push cfg a sz gs = .ok (o, a')) : (∀ t, (a' t).idx = (a t).idx) ∧
      ∃ c, o = some (rzApply cfg sz c) ∧ Parked a c.ptr := by
  obtain ⟨i, hi⟩ := Option.isSome_iff_exists.1 hprobe
  obtain ⟨hne, hun, -⟩ := (hI.tiers (.ofSize (rzInflate cfg sz))).popAt hi
  set s := TierId.ofSize (rzInflate cfg sz) with hs
  set r := (a s).cache.popAt i with hr
  have hal : vmapAlloc cfg a (rzInflate cfg sz) =
      .ok (⟨r.1.1, r.1.2⟩, update a s { a s with cache := r.2 }) := by
    apply onTier_ok
    unfold Tier.cachePopOrInsert
    rw [hi]
  have hatt : attempt (fun a => vmapAlloc cfg a (rzInflate cfg sz)) (rzInflate cfg sz) 2 gs a =
      .ok (some ⟨r.1.1, r.1.2⟩, update a s { a s with cache := r.2 }) := by
    rw [attempt, hal]
    simp only [bind, Except.bind]
    rw [if_pos hne]
  unfold push at hrun
  split_ifs at hrun
  simp only [hatt, bind, Except.bind, Except.ok.injEq, Prod.mk.injEq] at hrun
  obtain ⟨rfl, rfl⟩ := hrun
  constructor
  · intro t
    by_cases ht : t = s
    · subst ht
      rw [update_self]
    · rw [update_of_ne ht]
  · refine ⟨⟨r.1.1, r.1.2⟩, rfl, s, _, hun.rest.subset List.mem_cons_self, rfl⟩

end Requests

/-! ## Frozen sheets -/

section Frozen
variable {cfg : Config} {w w' : World} {a : Tiers} {U U' : Active} {s t : TierId}
  {e : Entry t.Heap} {p b sz : ℕ} {c : Chunk} {temporal : Bool}

theorem Inv.frames_apart (hI : Inv a U) {f g : Frame} (hf : f ∈ (a t).frames)
    (hg : g ∈ (a s).frames) (hfb : ¬f.Covers b) (hgb : g.Covers b) : g.hi ≤ f.lo ∨ f.hi ≤ g.lo := by
  have h₁ := ((hI.tiers t).good f hf).hi_le
  have h₂ := ((hI.tiers s).good g hg).hi_le
  by_cases hts : t = s
  · subst hts
    obtain ⟨i, x, hx, rfl⟩ := Tier.exists_entry hf
    obtain ⟨j, y, hy, rfl⟩ := Tier.exists_entry hg
    rcases lt_trichotomy i j with hij | rfl | hij
    · right
      exact h₁.trans ((hI.tiers t).order hx hy hij)
    · rw [hx] at hy
      obtain rfl := Option.some.inj hy
      exact absurd hgb hfb
    · left
      exact h₂.trans ((hI.tiers t).order hy hx hij)
  · rcases hI.apart hts f hf g hg with h₃ | h₃
    · exact Or.inr (h₁.trans h₃)
    · exact Or.inl (h₂.trans h₃)

/-- The entry `e`, its list included, is as it was, and no block of the sheet is parked. -/
structure Frozen (t : TierId) (e : Entry t.Heap) (w : World) : Prop where
  mem : e ∈ (w.arena t).idx
  unparked : ∀ q, Parked w.arena q → ¬e.frame.Covers q

/-- A chunk that does not come from the frozen sheet lies outside of it. -/
theorem Given.outside (hI : Inv a U) {a' : Tiers}
    (hg : Given a U temporal s (rzInflate cfg sz) c a' U')
    (hcan : canaries cfg s = rzActive cfg sz) (hroom : temporal = true → rzActive cfg sz = false)
    (hmem : e ∈ (a' t).idx) (hunparked : ∀ q, Parked a q → ¬e.frame.Covers q)
    (hels : Elsewhere a s t e c.ptr a') :
    (rzApply cfg sz c).ptr + (rzApply cfg sz c).len ≤ e.lo ∨ e.hi ≤ (rzApply cfg sz c).ptr := by
  obtain ⟨n, hnew⟩ := hg.handle hI hcan hroom
  obtain ⟨g, hgm, hgb, -, hend⟩ := hnew.frame hg.inv
  have hf := Tier.mem_frames hmem
  have hnot : ¬e.frame.Covers c.ptr := by
    intro hcov
    obtain ⟨rfl, rfl⟩ := hg.inv.frame_unique hgm hf hgb hcov
    rcases hels rfl with ⟨i, hi, hne⟩ | hpark
    · rcases hg.home with ⟨x, hx, hxc⟩ | ⟨x, hx, hxcov⟩
      · exact hunparked _ ⟨s, x, hx, hxc⟩ hcov
      · exact hne ((hg.inv.tiers s).unique hx hi hxcov hcov)
    · exact hunparked _ hpark hcov
  have hwithin := hnew.within
  have hle := le_userPtr cfg s c.ptr
  rw [← hnew.ptr] at hle
  simp only at hwithin
  have hlo := hgb.1
  have h₁ : e.frame.lo = e.lo := rfl
  have h₂ : e.frame.hi = e.hi := rfl
  rcases hg.inv.frames_apart hf hgm hnot hgb with h₃ | h₃ <;> omega

def Shut (a : Tiers) (t : TierId) (lo : ℕ) (temporal : Bool) (sz : ℕ) (s : TierId) : Prop :=
  s = t → ∀ i ∈ (a t).findRange lo, (a t).passes t.params temporal sz i = true

instance (a : Tiers) (t : TierId) (lo : ℕ) (temporal : Bool) (sz : ℕ) (s : TierId) :
    Decidable (Shut a t lo temporal sz s) := inferInstanceAs (Decidable (_ → _))

theorem Frozen.unreached (hI : Inv w.arena U) (hF : Frozen t e w)
    (hs : Shut w.arena t e.lo temporal sz s) : Unreached temporal sz s t e w.arena := by
  refine ⟨hF.mem, fun hst => ?_⟩
  obtain ⟨i, hi⟩ := List.mem_iff_getElem?.1 hF.mem
  have hgood := (hI.tiers t).entry_good hi
  have hfind : (w.arena t).findRange e.lo = some i :=
    (hI.tiers t).findRange_eq_some.2 ⟨e, hi, le_rfl, hgood.lt⟩
  exact ⟨i, hi, hs hst i hfind⟩

/-- Calls that do not reach the sheet on `[lo, hi)` of the tier `t`: requests pass it by or are
served by the cache, and frees name pointers of other sheets. -/
def Avoids (cfg : Config) (t : TierId) (lo hi : ℕ) (w : World) : Op → Prop
  | .push sz _ => Shut w.arena t lo false (rzInflate cfg sz) (.ofSize (rzInflate cfg sz)) ∨
      ((w.arena (.ofSize (rzInflate cfg sz))).cache.probe
        (Tier.cacheFit cfg (rzInflate cfg sz))).isSome = true
  | .launder sz _ => Shut w.arena t lo true (rzInflate cfg sz) (.ofLaunder (rzInflate cfg sz))
  | .pop p _ _ => p < lo ∨ hi ≤ p
  | _ => False

instance (cfg : Config) (t : TierId) (lo hi : ℕ) (w : World) (op : Op) :
    Decidable (Avoids cfg t lo hi w op) :=
  match op with
  | .push .. => inferInstanceAs (Decidable (_ ∨ _))
  | .launder .. => inferInstanceAs (Decidable (Shut ..))
  | .pop .. => inferInstanceAs (Decidable (_ ∨ _))
  | .tsPop .. => inferInstanceAs (Decidable False)
  | .resize .. => inferInstanceAs (Decidable False)
  | .freeze _ => inferInstanceAs (Decidable False)
  | .resetPage _ => inferInstanceAs (Decidable False)
  | .write .. => inferInstanceAs (Decidable False)

def ReturnsOutside (cfg : Config) (lo hi : ℕ) (w : World) : Op → Prop
  | .push sz gs => ∀ c a, push cfg w.arena sz gs = .ok (some c, a) → c.ptr + c.len ≤ lo ∨ hi ≤ c.ptr
  | .launder sz gs => ∀ c a, launder cfg w.arena sz gs = .ok (some c, a) →
      c.ptr + c.len ≤ lo ∨ hi ≤ c.ptr
  | _ => True

theorem rzApply_inj {c' : Chunk} (h : rzApply cfg sz c = rzApply cfg sz c') : c.ptr = c'.ptr := by
  unfold rzApply at h
  split_ifs at h
  · have := congrArg Chunk.ptr h
    simp only at this
    omega
  · rw [h]

/-- A request that does not reach the sheet leaves it as it was, and returns memory outside. -/
theorem Frozen.handed (hS : Sound cfg w U) (hF : Frozen t e w)
    (hcan : canaries cfg s = rzActive cfg sz) (hroom : temporal = true → rzActive cfg sz = false)
    {o : Option Chunk}
    (hspec : match o with
      | none => Inv a U ∧ SameCaches w.arena a ∧ Grows w.arena a
      | some u => ∃ c U', u = rzApply cfg sz c ∧
          Given w.arena U temporal s (rzInflate cfg sz) c a U')
    (hfrom : e ∈ (a t).idx ∧ ∀ u, o = some u → ∃ c, u = rzApply cfg sz c ∧
      Elsewhere w.arena s t e c.ptr a) :
    (e ∈ (a t).idx ∧ ∀ q, Parked a q → ¬e.frame.Covers q) ∧
      ∀ u, o = some u → u.ptr + u.len ≤ e.lo ∨ e.hi ≤ u.ptr := by
  obtain ⟨hmem, hels⟩ := hfrom
  cases o with
  | none =>
    obtain ⟨-, hsame, -⟩ := hspec
    constructor
    · exact ⟨hmem, fun q hq => hF.unparked q (hsame.parked.1 hq)⟩
    · exact fun u hu => absurd hu (by simp)
  | some u =>
    obtain ⟨c, U', rfl, hg⟩ := hspec
    obtain ⟨c', hcc, hels⟩ := hels _ rfl
    rw [← rzApply_inj hcc] at hels
    constructor
    · exact ⟨hmem, fun q hq => hF.unparked q ((hg.parked q).1 hq).1⟩
    · intro u hu
      obtain rfl := Option.some.inj hu
      exact hg.outside hS.inv hcan hroom hmem hF.unparked hels

theorem Frozen.push (hS : Sound cfg w U) (hF : Frozen t e w) {gs : List Grant}
    (hgs : Mapped w.arena gs) (hav : Avoids cfg t e.lo e.hi w (.push sz gs)) {o : Option Chunk}
    (hrun : push cfg w.arena sz gs = .ok (o, a)) :
    (e ∈ (a t).idx ∧ ∀ q, Parked a q → ¬e.frame.Covers q) ∧
      ∀ u, o = some u → u.ptr + u.len ≤ e.lo ∨ e.hi ≤ u.ptr := by
  have hroom : false = true → rzActive cfg sz = false := by simp
  apply hF.handed hS (canaries_ofSize cfg sz) hroom ((push_spec hS.inv cfg hgs).ok hrun)
  rcases hav with hshut | hprobe
  · exact push_reaches hS.inv hgs (hF.unreached hS.inv hshut) hrun
  · obtain ⟨hidx, c, rfl, hpark⟩ := push_cached hS.inv hprobe hrun
    constructor
    · rw [hidx]
      exact hF.mem
    · exact fun u hu => ⟨c, (Option.some.inj hu).symm, fun _ => Or.inr hpark⟩

theorem Frozen.launder (hS : Sound cfg w U) (hF : Frozen t e w) {gs : List Grant}
    (hgs : Mapped w.arena gs) (hrz : rzActive cfg sz = false)
    (hav : Avoids cfg t e.lo e.hi w (.launder sz gs)) {o : Option Chunk}
    (hrun : launder cfg w.arena sz gs = .ok (o, a)) :
    (e ∈ (a t).idx ∧ ∀ q, Parked a q → ¬e.frame.Covers q) ∧
      ∀ u, o = some u → u.ptr + u.len ≤ e.lo ∨ e.hi ≤ u.ptr := by
  apply hF.handed hS (canaries_ofLaunder cfg sz) (fun _ => hrz)
    ((launder_spec hS.inv cfg hgs).ok hrun)
  exact launder_reaches hS.inv hgs (hF.unreached hS.inv hav) hrun

theorem onTier_mem (pos : ℕ) {f : Tier s.Heap → Except Halt (Bool × Tier s.Heap)} {r : Bool × Tiers}
    (hf : ∀ {e : Entry s.Heap} {r' : Bool × Tier s.Heap}, e ∈ (a s).idx → e.Kept s.params →
      (a s).Other pos e → f (a s) = .ok r' → e ∈ r'.2.idx)
    (hmem : e ∈ (a t).idx) (hk : e.Kept t.params) (hother : s = t → (a t).Other pos e)
    (hrun : onTier a s f = .ok r) : e ∈ (r.2 t).idx := by
  unfold onTier at hrun
  cases hx : f (a s) with
  | error y =>
    rw [hx] at hrun
    exact absurd hrun (by simp [bind, Except.bind])
  | ok r' =>
    simp only [hx, bind, Except.bind] at hrun
    obtain rfl := Except.ok.inj hrun
    by_cases hst : s = t
    · subst hst
      simp only [update_self]
      exact hf hmem hk (hother rfl) hx
    · simp only [update_of_ne fun hts : t = s => hst hts.symm]
      exact hmem

theorem Inv.other_of_not_covers (hI : Inv a U) {pos : ℕ} {x : Entry t.Heap} (hmem : e ∈ (a t).idx)
    (hx : (a t).idx[pos]? = some x) (hxp : x.frame.Covers p) (hep : ¬e.frame.Covers p) :
    (a t).Other pos e := by
  intro y hy heq
  rw [hx] at hy
  obtain rfl := Option.some.inj hy
  obtain ⟨i, hi⟩ := List.mem_iff_getElem?.1 hmem
  have hx' : x.frame.Covers e.lo := ⟨heq.le, heq ▸ ((hI.tiers t).entry_good hx).lt⟩
  have he' : e.frame.Covers e.lo := ⟨le_rfl, ((hI.tiers t).entry_good hi).lt⟩
  obtain rfl := (hI.tiers t).unique hx hi hx' he'
  rw [hx] at hi
  obtain rfl := Option.some.inj hi
  exact hep hxp

theorem Frozen.pop_mem (hI : Inv w.arena U) (hF : Frozen t e w) (hk : e.Kept t.params)
    {len : Option ℕ} {intact : Bool} (hav : ¬e.frame.Covers p) {r : Bool × Tiers}
    (hrun : pop cfg w.arena p len intact = .ok r) : e ∈ (r.2 t).idx := by
  have hfail : ∀ {r}, failState cfg w.arena = .ok r → e ∈ (r.2 t).idx := by
    intro r hr
    rw [((failState_ends cfg w.arena).ok hr).2]
    exact hF.mem
  unfold pop popWith vmapRemove at hrun
  by_cases h₁ : p = 0
  · rw [if_pos h₁] at hrun
    obtain rfl := Except.ok.inj hrun
    exact hF.mem
  by_cases h₂ : (!freeAdmit p len) = true
  · rw [if_neg h₁, if_pos h₂] at hrun
    exact hfail hrun
  rw [if_neg h₁, if_neg h₂] at hrun
  cases hd : dispatch w.arena p with
  | none =>
    simp only [hd] at hrun
    obtain rfl := Except.ok.inj hrun
    exact hF.mem
  | some d =>
    obtain ⟨s, pos⟩ := d
    simp only [hd] at hrun
    by_cases h₃ : (canaries cfg s && !intact) = true
    · rw [if_pos h₃] at hrun
      exact hfail hrun
    · rw [if_neg h₃] at hrun
      obtain ⟨x, hx, hxp⟩ := hI.dispatch_eq_some.1 hd
      refine onTier_mem pos ?_ hF.mem hk ?_ hrun
      · intro e' r' hmem hk' hother hrem
        cases len with
        | none => exact Tier.mem_removeAt hk' hmem hother hrem
        | some n => exact Tier.mem_cachePushOrRemove hk' hmem hother hrem
      · rintro rfl
        exact hI.other_of_not_covers hF.mem hx hxp hav

theorem Frozen.pop (hS : Sound cfg w U) (hF : Frozen t e w) (hk : e.Kept t.params)
    {len : Option ℕ} {intact : Bool} {h : Held} (hlive : w.live p = some h)
    (hcare : Careful cfg w (.pop p len intact)) (hav : ¬e.frame.Covers p) {r : Bool × Tiers}
    (hrun : pop cfg w.arena p len intact = .ok r) : Frozen t e (w.release p r) := by
  constructor
  · exact hF.pop_mem hS.inv hk hav hrun
  · obtain ⟨s, b, n, hh⟩ := hS.held hlive
    obtain ⟨f, hf, hfb, hfp, -⟩ := hh.frame hS.inv
    obtain ⟨i, x, hd, hx, hcov⟩ := hh.dispatch hS.inv
    have hnot : ¬e.frame.Covers b := by
      intro hcovb
      obtain ⟨rfl, rfl⟩ := hS.inv.frame_unique hf (Tier.mem_frames hF.mem) hfb hcovb
      exact hav hfp
    have hspec := (pop_spec hS.inv cfg len intact hd hx (by rwa [hh.blockPtr_eq])
      (by rw [hh.blockPtr_eq]; exact hh.active) (by rw [hh.blockPtr_eq]; exact hh.out)
      fun hkt => hcare h hlive hkt _ hd).ok hrun
    rw [hh.blockPtr_eq] at hspec
    intro q hq
    rcases hspec with ⟨-, hsame⟩ | ⟨-, U', hfreed⟩
    · have hq : Parked r.2 q := hq
      rw [hsame] at hq
      exact hF.unparked q hq
    · rcases hfreed.outcome with ⟨-, hpark⟩ | ⟨-, hsame⟩
      · rcases (hpark q).1 hq with hq | rfl
        · exact hF.unparked q hq
        · exact hnot
      · exact hF.unparked q (hsame.parked.1 hq)

theorem Frozen.step (hS : Sound cfg w U) (hF : Frozen t e w) (hk : e.Kept t.params) {op : Op}
    (hlegal : w.Legal op) (hreg : Regular cfg w op) (hav : Avoids cfg t e.lo e.hi w op)
    (hstep : w.step cfg op = .ok w') : Frozen t e w' := by
  cases op with
  | push sz gs =>
    cases hp : Arena.push cfg w.arena sz gs with
    | error y =>
      simp only [World.step, hp, bind, Except.bind] at hstep
      exact absurd hstep (by simp)
    | ok r =>
      obtain ⟨o, a⟩ := r
      obtain ⟨hmem, hpark⟩ := (hF.push hS hlegal hav hp).1
      simp only [World.step, hp, bind, Except.bind] at hstep
      cases o with
      | none =>
        obtain rfl := Except.ok.inj hstep
        exact ⟨hmem, hpark⟩
      | some u =>
        obtain rfl := Except.ok.inj hstep
        exact ⟨hmem, hpark⟩
  | launder sz gs =>
    cases hp : Arena.launder cfg w.arena sz gs with
    | error y =>
      simp only [World.step, hp, bind, Except.bind] at hstep
      exact absurd hstep (by simp)
    | ok r =>
      obtain ⟨o, a⟩ := r
      obtain ⟨hmem, hpark⟩ := (hF.launder hS hlegal hreg hav hp).1
      simp only [World.step, hp, bind, Except.bind] at hstep
      cases o with
      | none =>
        obtain rfl := Except.ok.inj hstep
        exact ⟨hmem, hpark⟩
      | some u =>
        obtain rfl := Except.ok.inj hstep
        exact ⟨hmem, hpark⟩
  | pop p len intact =>
    obtain ⟨h, hlive⟩ := Option.isSome_iff_exists.1 hlegal
    have hnot : ¬e.frame.Covers p := by
      have hav : p < e.lo ∨ e.hi ≤ p := hav
      intro hcov
      have hcov : e.lo ≤ p ∧ p < e.hi := hcov
      omega
    cases hp : Arena.pop cfg w.arena p len intact with
    | error y =>
      simp only [World.step, hp, bind, Except.bind] at hstep
      exact absurd hstep (by simp)
    | ok r =>
      simp only [World.step, hp, bind, Except.bind] at hstep
      obtain rfl := Except.ok.inj hstep
      exact hF.pop hS hk hlive hreg hnot hp
  | tsPop p len intact => exact hav.elim
  | resize p newSz data gs => exact hav.elim
  | freeze p => exact hav.elim
  | resetPage p => exact hav.elim
  | write p i v => exact hav.elim

theorem frozen_freeze (hS : Sound cfg w U) {i : ℕ} (hd : dispatch w.arena p = some (t, i))
    (he : (w.arena t).idx[i]? = some e) :
    Frozen t e { w with arena := freeze w.arena p } := by
  obtain ⟨-, hidx, hpark⟩ := hS.inv.freeze p
  constructor
  · show e ∈ (freeze w.arena p t).idx
    rw [hidx]
    exact List.mem_of_getElem? he
  · rintro q ⟨s, x, hx, rfl⟩ hcov
    by_cases hst : s = t
    · subst hst
      -- the cache of the tier was cleared of the range
      simp only [freeze, hd, update_self, Tier.freeze, Cache.invalidateRange, List.mem_filter,
        Bool.or_eq_true, decide_eq_true_eq, Tier.Inv.loAt_eq he, Tier.Inv.hiAt_eq he] at hx
      have hcov : e.lo ≤ x.1 ∧ x.1 < e.hi := hcov
      omega
    · simp only [freeze, hd, update_of_ne hst] at hx
      obtain ⟨⟨f, hf, hfx⟩, -⟩ := (hS.inv.tiers s).cached x hx
      have hmem := Tier.mem_frames (List.mem_of_getElem? he)
      exact hst (hS.inv.tier_unique hf hmem hfx hcov)

/-- A frozen sheet that later calls avoid stays as it was: its entry, with its list, is in the
index unchanged, and no request returns memory inside of it. -/
theorem frozen_left_alone {g₁ g₂ g₃ : Grant} (hg : Distinct g₁ g₂ g₃)
    (ha : start g₁ g₂ g₃ = some a) {before after : List Op} {w₀ : World}
    (hbefore : Run (fun w op => w.Legal op ∧ Regular cfg w op) (World.next cfg) (World.init a)
      before w₀) {i : ℕ} (hd : dispatch w₀.arena p = some (t, i))
    (he : (w₀.arena t).idx[i]? = some e) (hk : e.Kept t.params)
    (hafter : Run (fun w op => w.Legal op ∧ Regular cfg w op ∧ Avoids cfg t e.lo e.hi w op)
      (World.next cfg) { w₀ with arena := freeze w₀.arena p } after w) :
    e ∈ (w.arena t).idx ∧ ∀ op, w.Legal op → Regular cfg w op → Avoids cfg t e.lo e.hi w op →
      ReturnsOutside cfg e.lo e.hi w op := by
  obtain ⟨U₀, hS₀⟩ := regular_run hg ha hbefore
  have hinv : (∃ U, Sound cfg w U) ∧ Frozen t e w := by
    apply hafter.invariant fun w => (∃ U, Sound cfg w U) ∧ Frozen t e w
    · rintro w op w' ⟨⟨U, hS⟩, hF⟩ ⟨hlegal, hreg, hav⟩ hstep
      constructor
      · exact hS.next hlegal hreg hstep
      · exact hF.step hS hk hlegal hreg hav (next_eq_some.1 hstep)
    · constructor
      · have hstep : w₀.next cfg (.freeze p) = some { w₀ with arena := freeze w₀.arena p } := rfl
        exact hS₀.next (show w₀.Legal (.freeze p) from trivial)
          (show Regular cfg w₀ (.freeze p) from trivial) hstep
      · exact frozen_freeze hS₀ hd he
  obtain ⟨⟨U, hS⟩, hF⟩ := hinv
  refine ⟨hF.mem, fun op hlegal hreg hav => ?_⟩
  cases op with
  | push sz gs => exact fun c a hp => (hF.push hS hlegal hav hp).2 c rfl
  | launder sz gs => exact fun c a hp => (hF.launder hS hlegal hreg hav hp).2 c rfl
  | _ => trivial

/-- A full sheet of the small tier is frozen; requests and frees go on in the next one. -/
theorem frozen_left_alone_full : ∃ a w₀ e w,
    start (clearGrant 65536 8192) (clearGrant 131072 8192) (clearGrant 262144 65536) = some a ∧
    Run (fun w op => w.Legal op ∧ Regular .default w op) (World.next .default) (World.init a)
      [.push 3000 [], .push 3000 [], .push 3000 [clearGrant 16384 8192]] w₀ ∧
    (w₀.arena .small).idx[1]? = some e ∧
    Run (fun w op => w.Legal op ∧ Regular .default w op ∧ Avoids .default .small e.lo e.hi w op)
      (World.next .default) { w₀ with arena := freeze w₀.arena 131136 }
      [.push 600 [], .pop 16448 none true, .launder 700 [], .push 3000 []] w ∧
    e ∈ (w.arena .small).idx ∧ ReturnsOutside .default e.lo e.hi w (.push 100 []) := by
  obtain ⟨a, w₀, ha, hbefore, hend⟩ := exists_run .default
    (fun w op => w.Legal op ∧ Regular .default w op)
    (clearGrant 65536 8192) (clearGrant 131072 8192) (clearGrant 262144 65536)
    [.push 3000 [], .push 3000 [], .push 3000 [clearGrant 16384 8192]]
    (fun w₀ => dispatch w₀.arena 131136 = some (.small, 1) &&
      ((w₀.arena .small).idx[1]?).any fun e : Entry (TierId.Heap .small) =>
        decide (e.Kept (TierId.params .small)) &&
        (exec (fun (w : World) (op : Op) => w.Legal op ∧ Regular .default w op ∧
            Avoids .default .small e.lo e.hi w op)
          (World.next .default) { w₀ with arena := freeze w₀.arena 131136 }
          [.push 600 [], .pop 16448 none true, .launder 700 [], .push 3000 []]).any
            fun w => decide (Avoids .default .small e.lo e.hi w (.push 100 [])))
    (by decide +kernel)
  simp only [Bool.and_eq_true, decide_eq_true_eq] at hend
  obtain ⟨hd, hany⟩ := hend
  obtain ⟨e, he, hany⟩ := Option.any_eq_true _ _ |>.1 hany
  simp only [Bool.and_eq_true, decide_eq_true_eq] at hany
  obtain ⟨hk, hexec⟩ := hany
  obtain ⟨w, hafter, hav⟩ := exists_run_of_exec _ _ hexec
  obtain ⟨hmem, hret⟩ := frozen_left_alone (by decide) ha hbefore hd he hk hafter
  have hlegal : w.Legal (.push 100 []) := ⟨by simp, List.Pairwise.nil⟩
  exact ⟨a, w₀, e, w, ha, hbefore, he, hafter, hmem, hret _ hlegal trivial (of_decide_eq_true hav)⟩

/-- A pop parks a block of a frozen sheet and the next push is served with it. Neither call writes
to the sheet. -/
theorem frozen_reused : ¬∀ (g₁ g₂ g₃ : Grant) (a : Tiers) (before after : List Op) (w₀ w : World)
    (p : ℕ) (t : TierId) (i : ℕ) (e : Entry t.Heap) (op : Op), Distinct g₁ g₂ g₃ →
    start g₁ g₂ g₃ = some a →
    Run (fun w op => w.Legal op ∧ Regular .default w op) (World.next .default) (World.init a)
      before w₀ →
    dispatch w₀.arena p = some (t, i) → (w₀.arena t).idx[i]? = some e →
    Run (fun w op => w.Legal op ∧ op.Laundering) (World.next .default)
      { w₀ with arena := freeze w₀.arena p } after w →
    w.Legal op → e ∈ (w.arena t).idx ∧ ReturnsOutside .default e.lo e.hi w op := by
  intro hall
  obtain ⟨a, w₀, ha, hbefore, hend⟩ := exists_run .default
    (fun w op => w.Legal op ∧ Regular .default w op)
    (clearGrant 65536 8192) (clearGrant 131072 8192) (clearGrant 262144 65536) [.push 100 []]
    (fun w₀ => dispatch w₀.arena 65600 = some (.precise, 0) &&
      ((w₀.arena .precise).idx[0]?).any fun e : Entry (TierId.Heap .precise) =>
        e.lo = 65536 && e.hi = 73728 &&
        (exec (fun (w : World) (op : Op) => w.Legal op ∧ op.Laundering) (World.next .default)
          { w₀ with arena := freeze w₀.arena 65600 } [.pop 65600 none true]).any fun w =>
            (push .default w.arena 100 []).toOption.any fun r => r.1 = some ⟨65600, 160⟩)
    (by decide +kernel)
  simp only [Bool.and_eq_true, decide_eq_true_eq] at hend
  obtain ⟨hd, hany⟩ := hend
  obtain ⟨e, he, hany⟩ := Option.any_eq_true _ _ |>.1 hany
  simp only [Bool.and_eq_true, decide_eq_true_eq] at hany
  obtain ⟨⟨hlo, hhi⟩, hexec⟩ := hany
  obtain ⟨w, hafter, hpush⟩ := exists_run_of_exec _ _ hexec
  obtain ⟨⟨o, a'⟩, hr, hc⟩ := Option.any_eq_true _ _ |>.1 hpush
  have hrun : push .default w.arena 100 [] = .ok (some ⟨65600, 160⟩, a') := by
    cases hp : push .default w.arena 100 [] with
    | error y => simp [hp, Except.toOption] at hr
    | ok x =>
      simp only [hp, Except.toOption, Option.some.injEq] at hr
      rw [hr, ← of_decide_eq_true hc]
  have hout := (hall _ _ _ a _ _ w₀ w 65600 .precise 0 e (.push 100 []) (by decide) ha hbefore hd
    he hafter ⟨by simp, List.Pairwise.nil⟩).2 _ _ hrun
  rw [hlo, hhi] at hout
  exact absurd hout (by decide)

end Frozen
end AbcMalloc.Arena
