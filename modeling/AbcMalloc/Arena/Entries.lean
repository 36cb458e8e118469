import AbcMalloc.Arena.Lists

/-! Properties of single entries. What marking a block and removing a block keep of one entry,
the operations of a tier and of an arena keep of all of them. -/
namespace AbcMalloc.Arena
open Function

def Tier.All {σ : Type*} (P : Entry σ → Prop) (t : Tier σ) : Prop := ∀ e ∈ t.idx, P e

section Tiers
variable {σ : Type*} {T : Params σ} {P : Entry σ → Prop} {t t' : Tier σ} {e : Entry σ}
  {i pos p sz : ℕ} {c : Chunk} {temporal ok : Bool}

namespace Tier

theorem All.congr (h : t.All P) (hidx : t'.idx = t.idx) : t'.All P := by
  intro e he
  rw [hidx] at he
  exact h e he

theorem All.setSheet (h : t.All P) {s : Sheet σ}
    (hs : ∀ e, t.idx[pos]? = some e → P { e with sheet := s }) : (t.setSheet pos s).All P := by
  intro e he
  obtain ⟨j, hj⟩ := List.mem_iff_getElem?.1 he
  unfold Tier.setSheet at hj
  rw [List.getElem?_modify] at hj
  obtain ⟨x, hx, hxe⟩ := Option.map_eq_some_iff.1 hj
  by_cases hpos : pos = j
  · rw [if_pos hpos] at hxe
    rw [← hxe]
    exact hs x (by rw [hpos]; exact hx)
  · rw [if_neg hpos] at hxe
    rw [← hxe]
    exact h x (List.mem_of_getElem? hx)

/-! ### Requests -/

theorem insertAt_all (hmark : ∀ e c s, P e → e.sheet.mark T temporal sz = .ok (c, s) →
    P { e with sheet := s }) (h : t.All P) (hi : t.idx[pos]? = some e)
    (hrun : insertAt T temporal sz t pos e = .ok (c, t')) : t'.All P := by
  unfold insertAt at hrun
  cases hm : e.sheet.mark T temporal sz with
  | error x =>
    rw [hm] at hrun
    exact absurd hrun (by simp [bind, Except.bind])
  | ok r =>
    simp only [hm, bind, Except.bind, Except.ok.injEq, Prod.mk.injEq] at hrun
    obtain ⟨-, rfl⟩ := hrun
    have hset : (t.setSheet pos r.2).All P := by
      apply h.setSheet
      intro x hx
      rw [hi] at hx
      obtain rfl := Option.some.inj hx
      exact hmark e r.1 r.2 (h e (List.mem_of_getElem? hi)) hm
    split_ifs
    · exact hset.congr rfl
    · exact hset.congr rfl

/-- What one attempt on a sheet keeps, the scan of a word keeps. -/
theorem scanWord_invariant {I : Tier σ → Prop} (hstep : ∀ {t t' : Tier σ} {pos : ℕ} {e : Entry σ}
    {c : Chunk}, I t → t.idx[pos]? = some e → insertAt T temporal sz t pos e = .ok (c, t') → I t')
    (w : ℕ) : ∀ (bits : List ℕ) {t : Tier σ}, I t → scanWord T temporal sz w bits t = .ok (c, t') →
      I t' := by
  intro bits
  induction bits with
  | nil =>
    intro t h hrun
    simp only [scanWord, Except.ok.injEq, Prod.mk.injEq] at hrun
    rwa [← hrun.2]
  | cons bit bits ih =>
    intro t h hrun
    unfold scanWord at hrun
    split at hrun
    · simp only [Except.ok.injEq, Prod.mk.injEq] at hrun
      rwa [← hrun.2]
    · next x hx =>
      cases hat : insertAt T temporal sz t (64 * w + bit) x with
      | error y =>
        rw [hat] at hrun
        exact absurd hrun (by simp [bind, Except.bind])
      | ok r =>
        have h' := hstep h hx hat
        simp only [hat, bind, Except.bind] at hrun
        split_ifs at hrun
        · simp only [Except.ok.injEq, Prod.mk.injEq] at hrun
          rwa [← hrun.2]
        · exact ih h' hrun

/-- What one attempt on a sheet keeps, `__bucket_insert` keeps. -/
theorem bucketInsert_invariant {I : Tier σ → Prop} (hstep : ∀ {t t' : Tier σ} {pos : ℕ}
    {e : Entry σ} {c : Chunk}, I t → t.idx[pos]? = some e →
      insertAt T temporal sz t pos e = .ok (c, t') → I t') (h : I t)
    (hrun : bucketInsert T temporal t sz = .ok (c, t')) : I t' := by
  have hwords : ∀ (ws : List ℕ) {t : Tier σ}, I t → scanWords T temporal sz ws t = .ok (c, t') →
      I t' := by
    intro ws
    induction ws with
    | nil =>
      intro t h hrun
      simp only [scanWords, Except.ok.injEq, Prod.mk.injEq] at hrun
      rwa [← hrun.2]
    | cons w ws ih =>
      intro t h hrun
      unfold scanWords at hrun
      simp only at hrun
      cases hscan : scanWord T temporal sz w
          ((List.range 64).filter fun j => (t.spaceMask w).getLsbD j) t with
      | error y =>
        rw [hscan] at hrun
        exact absurd hrun (by simp [bind, Except.bind])
      | ok r =>
        have h' := scanWord_invariant hstep w _ h hscan
        simp only [hscan, bind, Except.bind] at hrun
        split_ifs at hrun
        · simp only [Except.ok.injEq, Prod.mk.injEq] at hrun
          rwa [← hrun.2]
        · exact ih h' hrun
  unfold bucketInsert at hrun
  cases hlast : insertLastHit T temporal t sz with
  | error y =>
    rw [hlast] at hrun
    exact absurd hrun (by simp [bind, Except.bind])
  | ok r =>
    have h' : I r.2 := by
      unfold insertLastHit at hlast
      split at hlast
      · next e he =>
        split_ifs at hlast
        · exact hstep h he hlast
        · obtain rfl := Except.ok.inj hlast
          exact h
      · obtain rfl := Except.ok.inj hlast
        exact h
    simp only [hlast, bind, Except.bind] at hrun
    split_ifs at hrun
    · simp only [Except.ok.injEq, Prod.mk.injEq] at hrun
      rwa [← hrun.2]
    · exact hwords _ h' hrun

theorem bucketInsert_all (hmark : ∀ e c s, P e → e.sheet.mark T temporal sz = .ok (c, s) →
    P { e with sheet := s }) (h : t.All P) (hrun : bucketInsert T temporal t sz = .ok (c, t')) :
    t'.All P :=
  bucketInsert_invariant (fun h hi hat => insertAt_all hmark h hi hat) h hrun

theorem cachePopOrInsert_all {cfg : Config} (hmark : ∀ e c s, P e →
    e.sheet.mark T false sz = .ok (c, s) → P { e with sheet := s }) (h : t.All P)
    (hrun : cachePopOrInsert T cfg t sz = .ok (c, t')) : t'.All P := by
  unfold cachePopOrInsert at hrun
  split at hrun
  · simp only [Except.ok.injEq, Prod.mk.injEq] at hrun
    rw [← hrun.2]
    exact h.congr rfl
  · exact bucketInsert_all hmark h hrun

theorem addSheet_all {head : Bool} {guard : ℕ} {m : Mem} {tags : ℕ → ℕ} (h : t.All P)
    (hnew : P (newEntry T head guard m tags c))
    (hrun : t.addSheet T head guard m tags c = some t') : t'.All P := by
  unfold addSheet registerSheet at hrun
  by_cases hfull : T.maxSheets ≤ t.idx.length
  · rw [if_pos hfull] at hrun
    exact absurd hrun (by simp)
  rw [if_neg hfull] at hrun
  have hrun := Option.some.inj hrun
  intro e he
  rw [← hrun] at he
  rcases List.eq_or_mem_of_mem_insertIdx he with rfl | he
  · exact hnew
  · exact h e he

/-! ### Frees -/

theorem unregister_all (h : t.All P) (pos : ℕ) : (t.unregister T pos).All P := fun e he =>
  h e (List.mem_of_mem_eraseIdx he)

theorem sweepBelow_all : ∀ (n : ℕ) {t : Tier σ}, t.All P → (sweepBelow T n t).All P := by
  intro n
  induction n with
  | zero => exact fun h => h
  | succ n ih =>
    intro t h
    simp only [sweepBelow]
    split_ifs
    · exact ih (unregister_all h n)
    · exact ih h

theorem tombstoneAccounting_all (h : t.All P) (pos : ℕ) : (t.tombstoneAccounting T pos).All P := by
  simp only [tombstoneAccounting]
  split_ifs
  · exact unregister_all h pos
  · exact sweepBelow_all _ (h.congr rfl)
  · exact h.congr rfl

theorem tryReclaimEmpty_all (h : t.All P) (pos : ℕ) : (t.tryReclaimEmpty T pos).All P := by
  unfold tryReclaimEmpty
  split_ifs
  · exact unregister_all h pos
  · exact h

theorem handleDoubleFree_eq {cfg : Config} (hrun : t.handleDoubleFree cfg = .ok (ok, t')) :
    t' = t := by
  unfold handleDoubleFree at hrun
  split_ifs at hrun
  simp only [Except.ok.injEq, Prod.mk.injEq] at hrun
  exact hrun.2.symm

/-- A removal asks the list of its sheet, and then accounts for the sheet or refuses. -/
theorem removeImpl_outcome {cfg : Config} {force sized : Bool}
    (hrun : t.removeImpl T cfg force sized pos p = .ok (ok, t')) :
    ∃ x r, t.idx[pos]? = some x ∧ x.sheet.tryRemove T (force || T.tomb) sized p = .ok r ∧
      (t' = ((t.setSheet pos r.2).markAvailable pos).tombstoneAccounting T pos ∨
        t' = ((t.setSheet pos r.2).markAvailable pos).tryReclaimEmpty T pos ∨
        t' = t.setSheet pos r.2) := by
  unfold removeImpl at hrun
  split at hrun
  · exact absurd hrun (by simp)
  · next x hx =>
    cases hr : x.sheet.tryRemove T (force || T.tomb) sized p with
    | error y =>
      simp only [hr, bind, Except.bind] at hrun
      exact absurd hrun (by simp)
    | ok r =>
      refine ⟨x, r, hx, hr, ?_⟩
      simp only [hr, bind, Except.bind] at hrun
      split_ifs at hrun
      · simp only [Except.ok.injEq, Prod.mk.injEq] at hrun
        exact Or.inl hrun.2.symm
      · simp only [Except.ok.injEq, Prod.mk.injEq] at hrun
        exact Or.inr (Or.inl hrun.2.symm)
      · exact Or.inr (Or.inr (handleDoubleFree_eq hrun))

theorem removeImpl_all {cfg : Config} {force sized : Bool} (h : t.All P)
    (hrem : ∀ e r s, t.idx[pos]? = some e → P e →
      e.sheet.tryRemove T (force || T.tomb) sized p = .ok (r, s) → P { e with sheet := s })
    (hrun : t.removeImpl T cfg force sized pos p = .ok (ok, t')) : t'.All P := by
  obtain ⟨x, r, hx, hr, ht'⟩ := removeImpl_outcome hrun
  have hset : (t.setSheet pos r.2).All P := by
    apply h.setSheet
    intro y hy
    rw [hx] at hy
    obtain rfl := Option.some.inj hy
    exact hrem x r.1 r.2 hx (h x (List.mem_of_getElem? hx)) hr
  rcases ht' with rfl | rfl | rfl
  · exact tombstoneAccounting_all (t := (t.setSheet pos r.2).markAvailable pos) (hset.congr rfl) pos
  · exact tryReclaimEmpty_all (t := (t.setSheet pos r.2).markAvailable pos) (hset.congr rfl) pos
  · exact hset

/-- A free is refused, parks its block, or goes to the list. -/
theorem removeAt_outcome {cfg : Config} (hrun : t.removeAt T cfg pos p = .ok (ok, t')) :
    t' = t ∨
      (∃ e m d, t.idx[pos]? = some e ∧ e.sheet.isBlockAllocated T p = true ∧
        t.cache.push T.cacheSlots p m = some d ∧ t' = { t with cache := d }) ∨
      ((cfg.redzone = true ∨ T.cacheSlots ≤ t.cache.length ∨ ∃ e, t.idx[pos]? = some e ∧
        (T.book.isTemporal e.sheet.book p = true ∨ T.book.blockSize e.sheet.book p ≤ 32)) ∧
        t.removeImpl T cfg false false pos p = .ok (ok, t')) := by
  unfold removeAt at hrun
  split at hrun
  · exact absurd hrun (by simp)
  · next e he =>
    simp only at hrun
    split_ifs at hrun with h₁ h₂ h₃ h₄ h₅
    · exact Or.inr (Or.inr ⟨Or.inl h₁, hrun⟩)
    · exact Or.inl (handleDoubleFree_eq hrun)
    · exact Or.inr (Or.inr ⟨Or.inr (Or.inl (by omega)), hrun⟩)
    · exact Or.inl (handleDoubleFree_eq hrun)
    · refine Or.inr (Or.inr ⟨Or.inr (Or.inr ⟨e, he, ?_⟩), hrun⟩)
      simpa using h₅
    · split at hrun
      · next d hpush =>
        simp only [Except.ok.injEq, Prod.mk.injEq] at hrun
        exact Or.inr (Or.inl ⟨e, _, d, he, by simpa using h₂, hpush, hrun.2.symm⟩)
      · next hpush =>
        refine Or.inr (Or.inr ⟨Or.inr (Or.inl ?_), hrun⟩)
        unfold Cache.push at hpush
        split_ifs at hpush with hfull
        exact hfull

theorem cachePushOrRemove_outcome {cfg : Config} {c : Chunk}
    (hrun : t.cachePushOrRemove T cfg pos c = .ok (ok, t')) :
    t' = t ∨
      (∃ e m d, t.idx[pos]? = some e ∧ e.sheet.isBlockAllocated T c.ptr = true ∧
        t.cache.push T.cacheSlots c.ptr m = some d ∧ t' = { t with cache := d }) ∨
      ((T.cacheSlots ≤ t.cache.length ∨ ∃ e, t.idx[pos]? = some e ∧
        T.book.blockSize e.sheet.book c.ptr ≤ 32) ∧
        t.removeImpl T cfg false true pos c.ptr = .ok (ok, t')) := by
  unfold cachePushOrRemove at hrun
  split at hrun
  · exact absurd hrun (by simp)
  · next e he =>
    simp only at hrun
    split_ifs at hrun with h₁ h₂ h₃
    · exact Or.inr (Or.inr ⟨Or.inl (by omega), hrun⟩)
    · exact Or.inl (handleDoubleFree_eq hrun)
    · exact Or.inr (Or.inr ⟨Or.inr ⟨e, he, h₃⟩, hrun⟩)
    · split at hrun
      · next d hpush =>
        simp only [Except.ok.injEq, Prod.mk.injEq] at hrun
        simp only [Bool.or_eq_true, Bool.not_eq_true', not_or, Bool.not_eq_false] at h₂
        exact Or.inr (Or.inl ⟨e, _, d, he, h₂.1, hpush, hrun.2.symm⟩)
      · next hpush =>
        refine Or.inr (Or.inr ⟨Or.inl ?_, hrun⟩)
        unfold Cache.push at hpush
        split_ifs at hpush with hfull
        exact hfull

end Tier
end Tiers

/-! ## The retry loop -/

section Attempts
variable {a a' : Tiers} {sz : ℕ} {I : Tiers → Prop} {Q : Grant → Prop}

/-- What attempts and expansions keep, the retry loop keeps. -/
theorem attempt_invariant {alloc : Tiers → Except Halt (Chunk × Tiers)}
    (hal : ∀ {a a' c}, I a → alloc a = .ok (c, a') → I a')
    (hexp : ∀ {a a' g b}, I a → Q g → bufExpand a sz (some g) = .ok (b, a') → I a') :
    ∀ (n : ℕ) {gs : List Grant} {a a' : Tiers} {o : Option Chunk}, (∀ g ∈ gs, Q g) → I a →
      attempt alloc sz n gs a = .ok (o, a') → I a' := by
  intro n
  induction n with
  | zero =>
    intro gs a a' o _ h hrun
    unfold attempt at hrun
    cases hc : alloc a with
    | error x =>
      rw [hc] at hrun
      exact absurd hrun (by simp [bind, Except.bind])
    | ok r =>
      have h' := hal h hc
      simp only [hc, bind, Except.bind] at hrun
      split_ifs at hrun <;>
      · simp only [Except.ok.injEq, Prod.mk.injEq] at hrun
        rwa [← hrun.2]
  | succ n ih =>
    intro gs a a' o hgs h hrun
    unfold attempt at hrun
    cases hc : alloc a with
    | error x =>
      rw [hc] at hrun
      exact absurd hrun (by simp [bind, Except.bind])
    | ok r =>
      have h' := hal h hc
      simp only [hc, bind, Except.bind] at hrun
      split_ifs at hrun
      · simp only [Except.ok.injEq, Prod.mk.injEq] at hrun
        rwa [← hrun.2]
      · cases hb : bufExpand r.2 sz gs.head? with
        | error x =>
          rw [hb] at hrun
          exact absurd hrun (by simp)
        | ok s =>
          have hs : I s.2 := by
            cases gs with
            | nil =>
              unfold bufExpand at hb
              simp only [List.head?_nil] at hb
              split_ifs at hb
              obtain rfl := Except.ok.inj hb
              exact h'
            | cons g gs => exact hexp h' (hgs g List.mem_cons_self) hb
          simp only [hb] at hrun
          split_ifs at hrun
          · exact ih (fun g hg => hgs g (List.mem_of_mem_tail hg)) hs hrun
          · simp only [Except.ok.injEq, Prod.mk.injEq] at hrun
            rwa [← hrun.2]

def AllEntries (P : (t : TierId) → Entry t.Heap → Prop) (a : Tiers) : Prop :=
  ∀ t, (a t).All (P t)

variable {P : (t : TierId) → Entry t.Heap → Prop}

theorem AllEntries.update (h : AllEntries P a) {t : TierId} {x : Tier t.Heap} (hx : x.All (P t)) :
    AllEntries P (update a t x) := by
  intro s
  by_cases hs : s = t
  · subst hs
    rwa [update_self]
  · rw [update_of_ne hs]
    exact h s

theorem onTier_all {α : Type} {t : TierId} {f : Tier t.Heap → Except Halt (α × Tier t.Heap)} {r : α}
    (h : AllEntries P a) (hf : ∀ r x, f (a t) = .ok (r, x) → x.All (P t))
    (hrun : onTier a t f = .ok (r, a')) : AllEntries P a' := by
  unfold onTier at hrun
  cases hx : f (a t) with
  | error y =>
    rw [hx] at hrun
    exact absurd hrun (by simp [bind, Except.bind])
  | ok x =>
    simp only [hx, bind, Except.bind, Except.ok.injEq, Prod.mk.injEq] at hrun
    rw [← hrun.2]
    exact h.update (hf x.1 x.2 hx)

theorem bufExpand_all {g : Grant} {b : Bool} (h : AllEntries P a)
    (hnew : ∀ t : TierId, ∀ head guard, guard = 0 ∨ guard = t.params.guard →
      P t (Tier.newEntry t.params head guard g.mem g.tags g.chunk))
    (hrun : bufExpand a sz (some g) = .ok (b, a')) : AllEntries P a' := by
  unfold bufExpand at hrun
  simp only at hrun
  split at hrun
  · simp only [Except.ok.injEq, Prod.mk.injEq] at hrun
    rwa [← hrun.2]
  · next x hx =>
    simp only [Except.ok.injEq, Prod.mk.injEq] at hrun
    rw [← hrun.2]
    apply h.update
    apply Tier.addSheet_all (h _) (hnew _ _ _ _) hx
    split_ifs
    · exact Or.inl rfl
    · exact Or.inr rfl

theorem push_all {cfg : Config} {gs : List Grant} {o : Option Chunk} (h : AllEntries P a)
    (hmark : ∀ t : TierId, t.fits (rzInflate cfg sz) = true → ∀ e c s, P t e →
      e.sheet.mark t.params false (rzInflate cfg sz) = .ok (c, s) → P t { e with sheet := s })
    (hnew : ∀ g ∈ gs, ∀ t : TierId, ∀ head guard, guard = 0 ∨ guard = t.params.guard →
      P t (Tier.newEntry t.params head guard g.mem g.tags g.chunk))
    (hrun : push cfg a sz gs = .ok (o, a')) : AllEntries P a' := by
  unfold push at hrun
  split_ifs at hrun
  cases hat : attempt (fun a => vmapAlloc cfg a (rzInflate cfg sz)) (rzInflate cfg sz) 2 gs a with
  | error x =>
    simp only [hat, bind, Except.bind] at hrun
    exact absurd hrun (by simp)
  | ok r =>
    simp only [hat, bind, Except.bind, Except.ok.injEq, Prod.mk.injEq] at hrun
    rw [← hrun.2]
    refine attempt_invariant (I := AllEntries P) (fun h hrun => ?_) (fun h hg hrun => ?_) 2
      hnew h hat
    · apply onTier_all h _ hrun
      intro r x hx
      exact Tier.cachePopOrInsert_all (hmark _ (TierId.fits_ofSize _)) (h _) hx
    · exact bufExpand_all h hg hrun

theorem launder_all {cfg : Config} {gs : List Grant} {o : Option Chunk} (h : AllEntries P a)
    (hmark : ∀ t : TierId, t.fits (rzInflate cfg sz) = true → ∀ e c s, P t e →
      e.sheet.mark t.params true (rzInflate cfg sz) = .ok (c, s) → P t { e with sheet := s })
    (hnew : ∀ g ∈ gs, ∀ t : TierId, ∀ head guard, guard = 0 ∨ guard = t.params.guard →
      P t (Tier.newEntry t.params head guard g.mem g.tags g.chunk))
    (hrun : launder cfg a sz gs = .ok (o, a')) : AllEntries P a' := by
  unfold launder at hrun
  split_ifs at hrun
  cases hat : attempt (fun a => vmapLaunder a (rzInflate cfg sz)) (rzInflate cfg sz) 2 gs a with
  | error x =>
    simp only [hat, bind, Except.bind] at hrun
    exact absurd hrun (by simp)
  | ok r =>
    simp only [hat, bind, Except.bind, Except.ok.injEq, Prod.mk.injEq] at hrun
    rw [← hrun.2]
    refine attempt_invariant (I := AllEntries P) (fun h hrun => ?_) (fun h hg hrun => ?_) 2
      hnew h hat
    · apply onTier_all h _ hrun
      intro r x hx
      exact Tier.bucketInsert_all (hmark _ (TierId.fits_ofLaunder _)) (h _) hx
    · exact bufExpand_all h hg hrun

end Attempts
end AbcMalloc.Arena
