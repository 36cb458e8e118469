import AbcMalloc.Arena.Entries
import AbcMalloc.Arena.Reach

/-! Which tier a request draws from and which one an expansion grows. A new sheet is in the
bitmap of its tier, so that the next attempt of a request that draws from the tier reaches it. -/
namespace AbcMalloc.Arena
open Function Foundation

/-- `launder` has no precise tier, `__buf_expand_exact` has. -/
theorem TierId.ofLaunder_eq_iff (sz : ℕ) : ofLaunder sz = ofExpand sz ↔ 512 < sz := by
  unfold ofLaunder ofExpand
  constructor
  · intro h
    by_contra hle
    have hle : sz ≤ 512 := Nat.le_of_not_lt hle
    rw [if_pos (by omega), if_pos hle] at h
    exact absurd h (by decide)
  · intro h
    rw [if_neg (show ¬sz ≤ 512 by omega)]

/-! ## A sheet in the bitmap that can serve -/

section Offers
variable {σ : Type*} {T : Params σ} {t t' : Tier σ} {e e' : Entry σ} {i pos sz : ℕ} {c : Chunk}
  {temporal : Bool}

def Sheet.CanServe (T : Params σ) (temporal : Bool) (sz : ℕ) (s : Sheet σ) : Prop :=
  ∃ c s', s.mark T temporal sz = .ok (c, s') ∧ c.ptr ≠ 0

structure Tier.Offers (T : Params σ) (temporal : Bool) (sz : ℕ) (e : Entry σ) (i : ℕ) (t : Tier σ) :
    Prop where
  entry : t.idx[i]? = some e
  bit : t.maskGet i = true
  serves : e.sheet.CanServe T temporal sz

namespace Tier

theorem maskInsert_self (mask : ℕ → BitVec 64) (pos : ℕ) :
    (maskInsert T mask pos (pos / 64)).getLsbD (pos % 64) = true := by
  have hmod : pos % 64 < 64 := Nat.mod_lt _ (by decide)
  unfold maskInsert
  simp [hmod]

theorem markExhausted_of_ne (hpos : pos ≠ i) (h : t.maskGet i = true) :
    (t.markExhausted pos).maskGet i = true := by
  unfold maskGet at h ⊢
  unfold markExhausted
  by_cases hw : i / 64 = pos / 64
  · have hbit : ¬i % 64 - pos % 64 = 0 ∨ i % 64 < pos % 64 := by omega
    have hmod : i % 64 < 64 := Nat.mod_lt _ (by decide)
    simp only [hw, update_self, BitVec.getLsbD_and, BitVec.getLsbD_not, BitVec.getLsbD_shiftLeft]
    rw [← hw, h]
    rcases hbit with hbit | hbit <;> simp [hmod, hbit]
  · simp only [update_of_ne hw]
    exact h

theorem Offers.insertAt (h : t.Offers T temporal sz e i) (hi : t.idx[pos]? = some e')
    (hrun : insertAt T temporal sz t pos e' = .ok (c, t')) :
    c.ptr ≠ 0 ∨ (pos ≠ i ∧ t'.Offers T temporal sz e i) := by
  unfold Tier.insertAt at hrun
  cases hmark : e'.sheet.mark T temporal sz with
  | error x =>
    rw [hmark] at hrun
    exact absurd hrun (by simp [bind, Except.bind])
  | ok r =>
    simp only [hmark, bind, Except.bind, Except.ok.injEq, Prod.mk.injEq] at hrun
    obtain ⟨rfl, rfl⟩ := hrun
    by_cases hc : r.1.ptr = 0
    · right
      have hpos : pos ≠ i := by
        rintro rfl
        rw [h.entry] at hi
        obtain rfl := Option.some.inj hi
        obtain ⟨c, s, hserve, hne⟩ := h.serves
        rw [hserve] at hmark
        obtain rfl := Except.ok.inj hmark
        exact hne hc
      refine ⟨hpos, ?_, ?_, h.serves⟩
      · simp only [hc, ne_eq, not_true_eq_false, if_false]
        show (t.setSheet pos r.2).idx[i]? = some e
        rw [getElem?_setSheet_of_ne hpos]
        exact h.entry
      · simp only [hc, ne_eq, not_true_eq_false, if_false]
        exact markExhausted_of_ne (t := t.setSheet pos r.2) hpos h.bit
    · exact Or.inl hc

/-- The scan of a word serves the request or leaves the offer standing, and it does not leave one
of this word: the positions in front of it exist, so that the scan does not end before it. -/
theorem Offers.scanWord (w : ℕ) : ∀ (bits : List ℕ) {t : Tier σ}, t.Offers T temporal sz e i →
    bits.Pairwise (· < ·) → scanWord T temporal sz w bits t = .ok (c, t') →
      c.ptr ≠ 0 ∨ (t'.Offers T temporal sz e i ∧ ∀ bit ∈ bits, 64 * w + bit ≠ i) := by
  intro bits
  induction bits with
  | nil =>
    intro t h _ hrun
    simp only [Tier.scanWord, Except.ok.injEq, Prod.mk.injEq] at hrun
    obtain ⟨-, rfl⟩ := hrun
    exact Or.inr ⟨h, fun bit hbit => absurd hbit List.not_mem_nil⟩
  | cons bit bits ih =>
    intro t h hsorted hrun
    obtain ⟨hbit, hsorted⟩ := List.pairwise_cons.1 hsorted
    unfold Tier.scanWord at hrun
    split at hrun
    · next hnone =>
      simp only [Except.ok.injEq, Prod.mk.injEq] at hrun
      obtain ⟨-, rfl⟩ := hrun
      have hlt := (List.getElem?_eq_some_iff.1 h.entry).1
      have hge := List.getElem?_eq_none_iff.1 hnone
      refine Or.inr ⟨h, fun b hb => ?_⟩
      rcases List.mem_cons.1 hb with rfl | hb
      · omega
      · have := hbit b hb
        omega
    · next x hx =>
      cases hat : Tier.insertAt T temporal sz t (64 * w + bit) x with
      | error y =>
        rw [hat] at hrun
        exact absurd hrun (by simp [bind, Except.bind])
      | ok r =>
        simp only [hat, bind, Except.bind] at hrun
        rcases h.insertAt hx hat with hc | ⟨hne, h'⟩
        · rw [if_pos hc] at hrun
          simp only [Except.ok.injEq, Prod.mk.injEq] at hrun
          exact Or.inl (by rw [← hrun.1]; exact hc)
        · by_cases hc : r.1.ptr = 0
          · rw [if_neg (by simp [hc])] at hrun
            rcases ih h' hsorted hrun with hdone | ⟨hrest, hbits⟩
            · exact Or.inl hdone
            · refine Or.inr ⟨hrest, fun b hb => ?_⟩
              rcases List.mem_cons.1 hb with rfl | hb
              · exact hne
              · exact hbits b hb
          · rw [if_pos hc] at hrun
            simp only [Except.ok.injEq, Prod.mk.injEq] at hrun
            exact Or.inl (by rw [← hrun.1]; exact hc)

theorem Offers.scanWords : ∀ (ws : List ℕ) {t : Tier σ}, t.Offers T temporal sz e i →
    scanWords T temporal sz ws t = .ok (c, t') → i / 64 ∈ ws → c.ptr ≠ 0 := by
  intro ws
  induction ws with
  | nil => exact fun _ _ hmem => absurd hmem List.not_mem_nil
  | cons w ws ih =>
    intro t h hrun hmem
    unfold Tier.scanWords at hrun
    simp only at hrun
    have hsorted : ((List.range 64).filter fun j => (t.spaceMask w).getLsbD j).Pairwise (· < ·) :=
      List.pairwise_lt_range.filter _
    cases hscan : Tier.scanWord T temporal sz w
        ((List.range 64).filter fun j => (t.spaceMask w).getLsbD j) t with
    | error y =>
      rw [hscan] at hrun
      exact absurd hrun (by simp [bind, Except.bind])
    | ok r =>
      simp only [hscan, bind, Except.bind] at hrun
      by_cases hc : r.1.ptr = 0
      · rcases h.scanWord w _ hsorted hscan with hdone | ⟨h', hbits⟩
        · exact absurd hc hdone
        · rw [if_neg (by simp [hc])] at hrun
          apply ih h' hrun
          rcases List.mem_cons.1 hmem with hw | hmem
          · -- the offer's own bit is set, so that its word does not pass it by
            have hbit := h.bit
            unfold maskGet at hbit
            rw [hw] at hbit
            have hmod : i % 64 < 64 := Nat.mod_lt _ (by decide)
            exact absurd (by omega) (hbits (i % 64)
              (List.mem_filter.2 ⟨List.mem_range.2 hmod, hbit⟩))
          · exact hmem
      · rw [if_pos hc] at hrun
        simp only [Except.ok.injEq, Prod.mk.injEq] at hrun
        rw [← hrun.1]
        exact hc

/-- `__bucket_insert` serves a request that a sheet in the bitmap can serve. -/
theorem Offers.bucketInsert (h : t.Offers T temporal sz e i) (hi : i < T.maxSheets)
    (hrun : bucketInsert T temporal t sz = .ok (c, t')) : c.ptr ≠ 0 := by
  have hword : i / 64 ∈ List.range (detailWords T) := by
    rw [List.mem_range]
    unfold detailWords
    omega
  unfold Tier.bucketInsert at hrun
  cases hlast : insertLastHit T temporal t sz with
  | error y =>
    rw [hlast] at hrun
    exact absurd hrun (by simp [bind, Except.bind])
  | ok r =>
    have h' : r.1.ptr ≠ 0 ∨ r.2.Offers T temporal sz e i := by
      unfold insertLastHit at hlast
      split at hlast
      · next x hx =>
        split_ifs at hlast
        · exact (h.insertAt hx hlast).imp_right fun h => h.2
        · obtain rfl := Except.ok.inj hlast
          exact Or.inr h
      · obtain rfl := Except.ok.inj hlast
        exact Or.inr h
    simp only [hlast, bind, Except.bind] at hrun
    by_cases hc : r.1.ptr = 0
    · rw [if_neg (by simp [hc])] at hrun
      exact (h'.resolve_left fun hne => hne hc).scanWords _ hrun hword
    · rw [if_pos hc] at hrun
      simp only [Except.ok.injEq, Prod.mk.injEq] at hrun
      rw [← hrun.1]
      exact hc

theorem offers_addSheet {head : Bool} {guard : ℕ} {m : Mem} {tags : ℕ → ℕ} {d : Chunk}
    (hserve : (newEntry T head guard m tags d).sheet.CanServe T temporal sz)
    (hrun : t.addSheet T head guard m tags d = some t') :
    ∃ i < T.maxSheets, t'.Offers T temporal sz (newEntry T head guard m tags d) i := by
  unfold addSheet registerSheet at hrun
  by_cases hfull : T.maxSheets ≤ t.idx.length
  · rw [if_pos hfull] at hrun
    exact absurd hrun (by simp)
  rw [if_neg hfull] at hrun
  have hrun := Option.some.inj hrun
  set pos := (t.idx.takeWhile fun x => x.lo < (newEntry T head guard m tags d).lo).length with hpos
  have hle : pos ≤ t.idx.length := (List.takeWhile_sublist _).length_le
  refine ⟨pos, by omega, ?_, ?_, hserve⟩
  · rw [← hrun]
    show (t.idx.insertIdx pos _)[pos]? = _
    rw [List.getElem?_insertIdx_self]
    simp [hle]
  · rw [← hrun]
    exact maskInsert_self _ _

end Tier
end Offers

/-! ## No free cache holds the null pointer -/

section NoNull
variable {σ : Type*} {T : Params σ} {t t' : Tier σ} {e : Entry σ} {pos p sz : ℕ} {c : Chunk}
  {temporal ok : Bool} {cfg : Config}

def Tier.NoNull (t : Tier σ) : Prop := ∀ x ∈ t.cache, x.1 ≠ 0

namespace Tier

theorem bucketInsert_cache (hrun : bucketInsert T temporal t sz = .ok (c, t')) :
    t'.cache = t.cache := by
  refine bucketInsert_invariant (I := fun x => x.cache = t.cache) (fun {x x' pos e c} h _ hat => ?_)
    rfl hrun
  unfold insertAt at hat
  cases hm : e.sheet.mark T temporal sz with
  | error y =>
    rw [hm] at hat
    exact absurd hat (by simp [bind, Except.bind])
  | ok r =>
    simp only [hm, bind, Except.bind, Except.ok.injEq, Prod.mk.injEq] at hat
    obtain ⟨-, rfl⟩ := hat
    rw [← h]
    split_ifs <;> rfl

theorem cachePopOrInsert_noNull (h : t.NoNull) (hrun : cachePopOrInsert T cfg t sz = .ok (c, t')) :
    t'.NoNull := by
  unfold cachePopOrInsert at hrun
  split at hrun
  · next i hi =>
    simp only [Except.ok.injEq, Prod.mk.injEq] at hrun
    rw [← hrun.2]
    intro x hx
    have hperm : ((t.cache.getD i (0, 0)) :: (t.cache.popAt i).2).Perm t.cache :=
      swapRemove_perm (0, 0) (0, 0) (probe_eq_some hi).1
    exact h x (hperm.subset (List.mem_cons_of_mem _ hx))
  · intro x hx
    rw [bucketInsert_cache hrun] at hx
    exact h x hx

theorem sweepBelow_cache : ∀ (n : ℕ) (t : Tier σ), (sweepBelow T n t).cache = t.cache := by
  intro n
  induction n with
  | zero => exact fun _ => rfl
  | succ n ih =>
    intro t
    simp only [sweepBelow]
    rw [ih]
    split_ifs <;> rfl

theorem removeImpl_cache {force sized : Bool}
    (hrun : t.removeImpl T cfg force sized pos p = .ok (ok, t')) : t'.cache = t.cache := by
  have hacc : ∀ x : Tier σ, (x.tombstoneAccounting T pos).cache = x.cache := by
    intro x
    simp only [tombstoneAccounting]
    split_ifs
    · rfl
    · exact sweepBelow_cache _ _
    · rfl
  have hreclaim : ∀ x : Tier σ, (x.tryReclaimEmpty T pos).cache = x.cache := by
    intro x
    unfold tryReclaimEmpty
    split_ifs <;> rfl
  obtain ⟨x, r, -, -, ht'⟩ := removeImpl_outcome hrun
  rcases ht' with rfl | rfl | rfl
  · rw [hacc]
    rfl
  · rw [hreclaim]
    rfl
  · rfl

/-- Only blocks that their list knows are parked. -/
theorem parked_noNull (hzero : ∀ s, T.book.isAllocated s 0 = false) (h : t.NoNull)
    (hal : e.sheet.isBlockAllocated T p = true) {m : ℕ} {d : Cache}
    (hpush : t.cache.push T.cacheSlots p m = some d) : Tier.NoNull { t with cache := d } := by
  unfold Cache.push at hpush
  split_ifs at hpush
  obtain rfl := Option.some.inj hpush
  intro x hx
  rcases List.mem_append.1 hx with hx | hx
  · exact h x hx
  · obtain rfl := List.mem_singleton.1 hx
    rintro (rfl : p = 0)
    rw [Sheet.isBlockAllocated, hzero, Bool.false_and] at hal
    exact absurd hal (by decide)

theorem removeAt_noNull (hzero : ∀ s, T.book.isAllocated s 0 = false) (h : t.NoNull)
    (hrun : t.removeAt T cfg pos p = .ok (ok, t')) : t'.NoNull := by
  have hdirect : t.removeImpl T cfg false false pos p = .ok (ok, t') → t'.NoNull := fun hrun x hx =>
    h x (by rwa [removeImpl_cache hrun] at hx)
  rcases removeAt_outcome hrun with rfl | ⟨e, m, d, -, hal, hpush, rfl⟩ | ⟨-, hrun⟩
  · exact h
  · exact parked_noNull hzero h hal hpush
  · exact hdirect hrun

theorem cachePushOrRemove_noNull (hzero : ∀ s, T.book.isAllocated s 0 = false) (h : t.NoNull)
    (hrun : t.cachePushOrRemove T cfg pos c = .ok (ok, t')) : t'.NoNull := by
  have hdirect : t.removeImpl T cfg false true pos c.ptr = .ok (ok, t') → t'.NoNull :=
    fun hrun x hx => h x (by rwa [removeImpl_cache hrun] at hx)
  rcases cachePushOrRemove_outcome hrun with rfl | ⟨e, m, d, -, hal, hpush, rfl⟩ | ⟨-, hrun⟩
  · exact h
  · exact parked_noNull hzero h hal hpush
  · exact hdirect hrun

end Tier
end NoNull

section Arenas
variable {cfg : Config} {a a' : Tiers} {sz p : ℕ}

def NoNull (a : Tiers) : Prop := ∀ t, (a t).NoNull

theorem NoNull.update (h : NoNull a) {t : TierId} {x : Tier t.Heap} (hx : x.NoNull) :
    NoNull (update a t x) := by
  intro s
  by_cases hs : s = t
  · subst hs
    rwa [update_self]
  · rw [update_of_ne hs]
    exact h s

theorem onTier_split {α : Type} {t : TierId} {f : Tier t.Heap → Except Halt (α × Tier t.Heap)}
    {r : α} (hrun : onTier a t f = .ok (r, a')) :
    ∃ x, f (a t) = .ok (r, x) ∧ a' = Function.update a t x := by
  unfold Arena.onTier at hrun
  cases hx : f (a t) with
  | error y =>
    rw [hx] at hrun
    exact absurd hrun (by simp [bind, Except.bind])
  | ok x =>
    simp only [hx, bind, Except.bind, Except.ok.injEq, Prod.mk.injEq] at hrun
    exact ⟨x.2, by rw [← hrun.1], hrun.2.symm⟩

theorem NoNull.onTier {α : Type} {t : TierId} {f : Tier t.Heap → Except Halt (α × Tier t.Heap)}
    {r : α} (h : NoNull a) (hf : ∀ r x, f (a t) = .ok (r, x) → x.NoNull)
    (hrun : onTier a t f = .ok (r, a')) : NoNull a' := by
  obtain ⟨x, hx, rfl⟩ := onTier_split hrun
  exact h.update (hf r x hx)

theorem NoNull.bufExpand {g : Option Grant} {b : Bool} (h : NoNull a)
    (hrun : bufExpand a sz g = .ok (b, a')) : NoNull a' := by
  unfold Arena.bufExpand at hrun
  cases g with
  | none =>
    simp only at hrun
    split_ifs at hrun
    simp only [Except.ok.injEq, Prod.mk.injEq] at hrun
    rwa [← hrun.2]
  | some g =>
    simp only at hrun
    split at hrun
    · simp only [Except.ok.injEq, Prod.mk.injEq] at hrun
      rwa [← hrun.2]
    · next x hx =>
      simp only [Except.ok.injEq, Prod.mk.injEq] at hrun
      rw [← hrun.2]
      apply h.update
      obtain ⟨-, -, -, -, hcache, -⟩ := Tier.registerSheet_split hx
      intro y hy
      rw [hcache] at hy
      exact h _ y hy

theorem NoNull.attempt {alloc : Tiers → Except Halt (Chunk × Tiers)}
    (hal : ∀ {a a' c}, NoNull a → alloc a = .ok (c, a') → NoNull a') (n : ℕ) {gs : List Grant}
    {o : Option Chunk} (h : NoNull a) (hrun : attempt alloc sz n gs a = .ok (o, a')) : NoNull a' :=
  attempt_invariant (I := NoNull) (Q := fun _ => True) hal (fun h _ hrun => h.bufExpand hrun) n
    (fun _ _ => trivial) h hrun

theorem NoNull.vmapAlloc {c : Chunk} (h : NoNull a) (hrun : vmapAlloc cfg a sz = .ok (c, a')) :
    NoNull a' :=
  h.onTier (fun _ _ hx => Tier.cachePopOrInsert_noNull (h _) hx) hrun

theorem NoNull.vmapLaunder {c : Chunk} (h : NoNull a) (hrun : vmapLaunder a sz = .ok (c, a')) :
    NoNull a' := by
  apply h.onTier _ hrun
  intro r x hx y hy
  rw [Tier.bucketInsert_cache hx] at hy
  exact h _ y hy

theorem NoNull.push {gs : List Grant} {o : Option Chunk} (h : NoNull a)
    (hrun : push cfg a sz gs = .ok (o, a')) : NoNull a' := by
  unfold Arena.push at hrun
  split_ifs at hrun
  cases hat : Arena.attempt (fun a => Arena.vmapAlloc cfg a (rzInflate cfg sz)) (rzInflate cfg sz)
      2 gs a with
  | error x =>
    simp only [hat, bind, Except.bind] at hrun
    exact absurd hrun (by simp)
  | ok r =>
    simp only [hat, bind, Except.bind, Except.ok.injEq, Prod.mk.injEq] at hrun
    rw [← hrun.2]
    exact NoNull.attempt (fun h hrun => h.vmapAlloc hrun) 2 h hat

theorem NoNull.launder {gs : List Grant} {o : Option Chunk} (h : NoNull a)
    (hrun : launder cfg a sz gs = .ok (o, a')) : NoNull a' := by
  unfold Arena.launder at hrun
  split_ifs at hrun
  cases hat : Arena.attempt (fun a => Arena.vmapLaunder a (rzInflate cfg sz)) (rzInflate cfg sz)
      2 gs a with
  | error x =>
    simp only [hat, bind, Except.bind] at hrun
    exact absurd hrun (by simp)
  | ok r =>
    simp only [hat, bind, Except.bind, Except.ok.injEq, Prod.mk.injEq] at hrun
    rw [← hrun.2]
    exact NoNull.attempt (fun h hrun => h.vmapLaunder hrun) 2 h hat

theorem NoNull.failState {ok : Bool} (h : NoNull a) (hrun : failState cfg a = .ok (ok, a')) :
    NoNull a' := by
  have h' := (failState_ends cfg a).ok hrun
  have h' : a' = a := h'.2
  rwa [h']

theorem NoNull.pop {len : Option ℕ} {intact ok : Bool} (h : NoNull a)
    (hrun : pop cfg a p len intact = .ok (ok, a')) : NoNull a' := by
  unfold Arena.pop popWith vmapRemove at hrun
  by_cases hnull : p = 0
  · rw [if_pos hnull] at hrun
    simp only [Except.ok.injEq, Prod.mk.injEq] at hrun
    rwa [← hrun.2]
  rw [if_neg hnull] at hrun
  by_cases hadm : (!freeAdmit p len) = true
  · rw [if_pos hadm] at hrun
    exact h.failState hrun
  rw [if_neg hadm] at hrun
  split at hrun
  · simp only [Except.ok.injEq, Prod.mk.injEq] at hrun
    rwa [← hrun.2]
  · next t i hd =>
    by_cases hcan : (canaries cfg t && !intact) = true
    · rw [if_pos hcan] at hrun
      exact h.failState hrun
    rw [if_neg hcan] at hrun
    apply h.onTier _ hrun
    intro r x hx
    cases len with
    | none => exact Tier.removeAt_noNull t.isAllocated_zero (h t) hx
    | some n => exact Tier.cachePushOrRemove_noNull t.isAllocated_zero (h t) hx

theorem NoNull.tsPop {len : Option ℕ} {intact ok : Bool} (h : NoNull a)
    (hrun : tsPop cfg a p len intact = .ok (ok, a')) : NoNull a' := by
  unfold Arena.tsPop tsPopWith vmapTombstone at hrun
  split_ifs at hrun
  · simp only [Except.ok.injEq, Prod.mk.injEq] at hrun
    rwa [← hrun.2]
  · exact h.failState hrun
  · split at hrun
    · simp only [Except.ok.injEq, Prod.mk.injEq] at hrun
      rwa [← hrun.2]
    · next t i hd =>
      split_ifs at hrun
      · exact h.failState hrun
      · apply h.onTier _ hrun
        intro r x hx y hy
        rw [Tier.removeImpl_cache hx] at hy
        exact h t y hy

theorem NoNull.store (h : NoNull a) (i : ℕ) (v : Cell) : NoNull (store cfg a p i v) := by
  unfold Arena.store
  split
  · exact h
  · next t i hd => exact h.update fun y hy => h t y hy

theorem NoNull.copyCells (h : NoNull a) (data : ℕ → Cell) :
    ∀ n, NoNull (copyCells cfg p data n a) := by
  intro n
  induction n with
  | zero => exact h
  | succ n ih => exact ih.store n (data n)

theorem NoNull.resize {newSz : ℕ} {data : ℕ → Cell} {gs : List Grant} {o : Option Chunk}
    (h : NoNull a) (hrun : resize cfg a p newSz data gs = .ok (o, a')) : NoNull a' := by
  unfold Arena.resize at hrun
  simp only at hrun
  split_ifs at hrun
  · simp only [Except.ok.injEq, Prod.mk.injEq] at hrun
    rwa [← hrun.2]
  · simp only [Except.ok.injEq, Prod.mk.injEq] at hrun
    rwa [← hrun.2]
  · simp only [Except.ok.injEq, Prod.mk.injEq] at hrun
    rwa [← hrun.2]
  · cases hp : Arena.push cfg a newSz gs with
    | error x =>
      simp only [hp, bind, Except.bind] at hrun
      exact absurd hrun (by simp)
    | ok r =>
      obtain ⟨c, a₁⟩ := r
      have h₁ : NoNull a₁ := h.push hp
      cases c with
      | none =>
        simp only [hp, bind, Except.bind, Except.ok.injEq, Prod.mk.injEq] at hrun
        rwa [← hrun.2]
      | some c =>
        simp only [hp, bind, Except.bind] at hrun
        have h₂ : NoNull (Arena.copyCells cfg c.ptr data (sizeOfAlloc cfg a₁ c.ptr / 32) a₁) :=
          h₁.copyCells data _
        cases hq :
          Arena.pop cfg (Arena.copyCells cfg c.ptr data (sizeOfAlloc cfg a₁ c.ptr / 32) a₁) p
            none true with
        | error x =>
          simp only [hq] at hrun
          exact absurd hrun (by simp)
        | ok r =>
          simp only [hq, Except.ok.injEq, Prod.mk.injEq] at hrun
          rw [← hrun.2]
          exact h₂.pop hq

theorem NoNull.filtered {t : TierId} {x : Tier t.Heap} (h : NoNull a)
    (hx : x.cache.Sublist (a t).cache) : x.NoNull := fun y hy => h t y (hx.subset hy)

theorem NoNull.freeze (h : NoNull a) : NoNull (freeze a p) := by
  unfold Arena.freeze
  split
  · exact h
  · next t i hd =>
    apply h.update
    exact h.filtered List.filter_sublist

theorem NoNull.resetPage (h : NoNull a) : NoNull (resetPage a p) := by
  intro t
  unfold Arena.resetPage Tier.resetPage
  split
  · exact h t
  · exact h.filtered List.filter_sublist

theorem noNull_start {g₁ g₂ g₃ : Grant} (ha : start g₁ g₂ g₃ = some a) : NoNull a := by
  simp only [start, Option.bind_eq_bind, Option.bind_eq_some_iff] at ha
  obtain ⟨x, hx, y, hy, z, hz, ha⟩ := ha
  have hhead : ∀ {t : TierId} {g : Grant} {x : Tier t.Heap}, headTier t g = some x → x.NoNull := by
    intro t g x hx w hw
    obtain ⟨-, -, -, -, hcache, -⟩ := Tier.registerSheet_split hx
    rw [hcache] at hw
    exact absurd hw List.not_mem_nil
  obtain rfl := Option.some.inj ha
  apply NoNull.update _ (hhead hz)
  apply NoNull.update _ (hhead hy)
  apply NoNull.update _ (hhead hx)
  exact fun t y hy => absurd hy List.not_mem_nil

theorem NoNull.step {w w' : World} {op : Op} (h : NoNull w.arena)
    (hstep : w.step cfg op = .ok w') : NoNull w'.arena := by
  cases op with
  | push sz gs =>
    obtain ⟨o, hr⟩ := World.step_push_arena hstep
    exact h.push hr
  | launder sz gs =>
    obtain ⟨o, hr⟩ := World.step_launder_arena hstep
    exact h.launder hr
  | pop p len intact =>
    obtain ⟨r, hr, rfl⟩ := World.step_pop hstep
    exact h.pop hr
  | tsPop p len intact =>
    obtain ⟨r, hr, rfl⟩ := World.step_tsPop hstep
    exact h.tsPop hr
  | resize p newSz data gs =>
    obtain ⟨o, hr⟩ := World.step_resize_arena hstep
    exact h.resize hr
  | freeze p =>
    obtain rfl := Except.ok.inj hstep
    exact h.freeze
  | resetPage p =>
    obtain rfl := Except.ok.inj hstep
    exact h.resetPage
  | write p i c =>
    obtain rfl := Except.ok.inj hstep
    exact h.store i c

end Arenas

/-! ## Expansions that succeed -/

/-- The states of an arena: whatever was called, with whatever mappings. -/
def Reached (cfg : Config) (a : Tiers) : Prop :=
  ∃ g₁ g₂ g₃ b ops w, start g₁ g₂ g₃ = some b ∧
    Run (fun _ _ => True) (World.next cfg) (World.init b) ops w ∧ w.arena = a

theorem Reached.noNull {cfg : Config} {a : Tiers} (h : Reached cfg a) : NoNull a := by
  obtain ⟨g₁, g₂, g₃, b, ops, w, hb, hrun, rfl⟩ := h
  refine hrun.invariant (fun w => NoNull w.arena) (fun w op w' h _ hnext => ?_) (noNull_start hb)
  exact h.step (next_eq_some.1 hnext)

def expandSheet (a : Tiers) (sz : ℕ) (g : Grant) : Sheet (TierId.ofExpand sz).Heap :=
  let t := TierId.ofExpand sz
  let lazy := !(a t).built
  (Tier.newEntry t.params lazy (if lazy then 0 else t.params.guard) g.mem g.tags g.chunk).sheet

/-- In the loop of a request an expansion succeeds whose sheet can serve the request. -/
def Expands (alloc : Tiers → Except Halt (Chunk × Tiers)) (temporal : Bool) (sz : ℕ) :
    ℕ → List Grant → Tiers → Prop
  | 0, _, _ => False
  | retries + 1, gs, a =>
    ∃ c a₁ a₂, alloc a = .ok (c, a₁) ∧ c.ptr = 0 ∧ bufExpand a₁ sz gs.head? = .ok (true, a₂) ∧
      ((∃ g ∈ gs.head?, (expandSheet a₁ sz g).CanServe (TierId.params _) temporal sz) ∨
        Expands alloc temporal sz retries gs.tail a₂)

section Requests
variable {cfg : Config} {a a' : Tiers} {sz : ℕ}

theorem bufExpand_offers {g : Grant} {temporal : Bool}
    (hserve : (expandSheet a sz g).CanServe (TierId.params _) temporal sz)
    (hrun : bufExpand a sz (some g) = .ok (true, a')) :
    ∃ e, ∃ i < (TierId.ofExpand sz).params.maxSheets,
      (a' (.ofExpand sz)).Offers (TierId.params _) temporal sz e i := by
  unfold bufExpand at hrun
  simp only at hrun
  split at hrun
  · exact absurd hrun (by simp)
  · next x hx =>
    simp only [Except.ok.injEq, Prod.mk.injEq, true_and] at hrun
    obtain ⟨i, hi, h⟩ := Tier.offers_addSheet hserve hx
    have hx : a' (.ofExpand sz) = x := by
      rw [← hrun]
      exact update_self (TierId.ofExpand sz) x a
    rw [← hx] at h
    exact ⟨_, i, hi, h⟩

/-- The loop does not give up where an allocation takes what its tier offers. `I` is what the
allocation needs of the caches. -/
theorem attempt_serves {alloc : Tiers → Except Halt (Chunk × Tiers)} {temporal : Bool}
    {I : Tiers → Prop} (hal : ∀ {a a' c}, I a → alloc a = .ok (c, a') → I a')
    (hexp : ∀ {a a' g b}, I a → bufExpand a sz g = .ok (b, a') → I a')
    (hserves : ∀ {a a' c e i}, I a → i < (TierId.ofExpand sz).params.maxSheets →
      (a (.ofExpand sz)).Offers (TierId.params _) temporal sz e i → alloc a = .ok (c, a') →
        c.ptr ≠ 0) :
    ∀ (n : ℕ) {gs : List Grant} {a a' : Tiers} {o : Option Chunk}, I a →
      Expands alloc temporal sz n gs a → attempt alloc sz n gs a = .ok (o, a') → o ≠ none := by
  intro n
  induction n with
  | zero => exact fun _ h => h.elim
  | succ n ih =>
    intro gs a a' o hI h hrun
    obtain ⟨c, a₁, a₂, hfail, hc, hexpand, hgood⟩ := h
    unfold attempt at hrun
    simp only [hfail, hc, hexpand, bind, Except.bind, ne_eq, not_true_eq_false, if_false,
      if_true] at hrun
    have hI₁ : I a₁ := hal hI hfail
    have hI₂ : I a₂ := hexp hI₁ hexpand
    rcases hgood with ⟨g, hg, hserve⟩ | hlater
    · -- the next attempt reaches the new sheet
      have hhead : gs.head? = some g := hg
      rw [hhead] at hexpand
      obtain ⟨e, i, hi, hoffer⟩ := bufExpand_offers hserve hexpand
      unfold attempt at hrun
      cases hnext : alloc a₂ with
      | error x =>
        rw [hnext] at hrun
        exact absurd hrun (by simp [bind, Except.bind])
      | ok r =>
        have hne : r.1.ptr ≠ 0 := hserves hI₂ hi hoffer hnext
        simp only [hnext, bind, Except.bind, if_pos hne, Except.ok.injEq, Prod.mk.injEq] at hrun
        rw [← hrun.1]
        exact Option.some_ne_none _
    · exact ih hI₂ hlater hrun

/-- A cached block or a sheet in the bitmap serves a request of `push`. -/
theorem vmapAlloc_serves {c : Chunk} {e : Entry (TierId.ofSize sz).Heap} {i : ℕ} (hn : NoNull a)
    (hi : i < (TierId.ofSize sz).params.maxSheets)
    (h : (a (.ofSize sz)).Offers (TierId.params _) false sz e i)
    (hrun : vmapAlloc cfg a sz = .ok (c, a')) : c.ptr ≠ 0 := by
  obtain ⟨x, hx, -⟩ := onTier_split hrun
  unfold Tier.cachePopOrInsert at hx
  split at hx
  · next j hj =>
    simp only [Except.ok.injEq, Prod.mk.injEq] at hx
    rw [← hx.1]
    have hperm : (((a (.ofSize sz)).cache.getD j (0, 0)) ::
        ((a (.ofSize sz)).cache.popAt j).2).Perm (a (.ofSize sz)).cache :=
      swapRemove_perm (0, 0) (0, 0) (Tier.probe_eq_some hj).1
    exact hn _ _ (hperm.subset List.mem_cons_self)
  · exact h.bucketInsert hi hx

theorem vmapLaunder_serves {t : TierId} (ht : .ofLaunder sz = t) {c : Chunk} {e : Entry t.Heap}
    {i : ℕ} (hi : i < t.params.maxSheets) (h : (a t).Offers t.params true sz e i)
    (hrun : vmapLaunder a sz = .ok (c, a')) : c.ptr ≠ 0 := by
  subst ht
  obtain ⟨x, hx, -⟩ := onTier_split hrun
  exact h.bucketInsert hi hx

end Requests

/-- `push` draws from the tier that it grows, and a successful expansion serves it. -/
def PushGrows (cfg : Config) (sz : ℕ) : Prop :=
  TierId.ofSize (rzInflate cfg sz) = .ofExpand (rzInflate cfg sz) ∧
    ∀ a a' gs o, Reached cfg a →
      Expands (fun a => vmapAlloc cfg a (rzInflate cfg sz)) false (rzInflate cfg sz) 2 gs a →
        push cfg a sz gs = .ok (o, a') → o ≠ none

def LaunderGrows (cfg : Config) (sz : ℕ) : Prop :=
  TierId.ofLaunder (rzInflate cfg sz) = .ofExpand (rzInflate cfg sz) ∧
    ∀ a a' gs o, Reached cfg a →
      Expands (fun a => vmapLaunder a (rzInflate cfg sz)) true (rzInflate cfg sz) 2 gs a →
        launder cfg a sz gs = .ok (o, a') → o ≠ none

theorem pushGrows (cfg : Config) (sz : ℕ) : PushGrows cfg sz := by
  refine ⟨rfl, fun a a' gs o ha hexp hrun => ?_⟩
  unfold push at hrun
  split_ifs at hrun
  cases hat : attempt (fun a => vmapAlloc cfg a (rzInflate cfg sz)) (rzInflate cfg sz) 2 gs a with
  | error x =>
    simp only [hat, bind, Except.bind] at hrun
    exact absurd hrun (by simp)
  | ok r =>
    simp only [hat, bind, Except.bind, Except.ok.injEq, Prod.mk.injEq] at hrun
    have hne : r.1 ≠ none := attempt_serves (I := NoNull) (fun h hrun => h.vmapAlloc hrun)
      (fun h hrun => h.bufExpand hrun) (fun hn hi h hrun => vmapAlloc_serves hn hi h hrun) 2
      ha.noNull hexp hat
    rw [← hrun.1]
    simpa using hne

theorem launderGrows_of_lt {cfg : Config} {sz : ℕ} (h : 512 < rzInflate cfg sz) :
    LaunderGrows cfg sz := by
  have hroute := (TierId.ofLaunder_eq_iff _).2 h
  refine ⟨hroute, fun a a' gs o ha hexp hrun => ?_⟩
  unfold launder at hrun
  split_ifs at hrun
  cases hat : attempt (fun a => vmapLaunder a (rzInflate cfg sz)) (rzInflate cfg sz) 2 gs a with
  | error x =>
    simp only [hat, bind, Except.bind] at hrun
    exact absurd hrun (by simp)
  | ok r =>
    simp only [hat, bind, Except.bind, Except.ok.injEq, Prod.mk.injEq] at hrun
    have hne : r.1 ≠ none := by
      refine attempt_serves (I := fun _ => True) (fun _ _ => trivial) (fun _ _ => trivial)
        (fun {a a' c e i} _ hi h hrun => ?_) 2 trivial hexp hat
      exact vmapLaunder_serves hroute hi h hrun
    rw [← hrun.1]
    simpa using hne

/-- Both requests grow the tier that they draw from, in every state and with every mapping that
the kernel makes, exactly if the inflated size has no tier of its own in front of the small one. -/
theorem requests_grow_iff (cfg : Config) (sz : ℕ) :
    (PushGrows cfg sz ∧ LaunderGrows cfg sz) ↔ 512 < rzInflate cfg sz := by
  constructor
  · rintro ⟨-, hroute, -⟩
    exact (TierId.ofLaunder_eq_iff _).1 hroute
  · intro h
    exact ⟨pushGrows cfg sz, launderGrows_of_lt h⟩

/-- Whether the expansion in the first round of a request succeeds and its sheet can serve. -/
def expandsAtOnce (alloc : Tiers → Except Halt (Chunk × Tiers)) (temporal : Bool) (sz : ℕ)
    (g : Grant) (a : Tiers) : Bool :=
  (alloc a).toOption.any fun r => r.1.ptr = 0 &&
    ((bufExpand r.2 sz (some g)).toOption.any fun x => x.1) &&
    ((expandSheet r.2 sz g).mark (TierId.params _) temporal sz).toOption.any fun x => x.1.ptr ≠ 0

theorem ok_of_any {ε α : Type*} {x : Except ε α} {P : α → Bool} (h : x.toOption.any P = true) :
    ∃ r, x = .ok r ∧ P r = true := by
  cases x with
  | error e => exact absurd h (by simp [Except.toOption])
  | ok r => exact ⟨r, rfl, by simpa [Except.toOption] using h⟩

theorem Expands.of_atOnce {alloc : Tiers → Except Halt (Chunk × Tiers)} {temporal : Bool}
    {sz n : ℕ} {g : Grant} {gs : List Grant} {a : Tiers}
    (h : expandsAtOnce alloc temporal sz g a = true) :
    Expands alloc temporal sz (n + 1) (g :: gs) a := by
  obtain ⟨⟨c, a₁⟩, hal, h⟩ := ok_of_any h
  simp only [Bool.and_eq_true, decide_eq_true_eq] at h
  obtain ⟨⟨hc, hexp⟩, hserve⟩ := h
  obtain ⟨⟨b, a₂⟩, hexp, rfl⟩ := ok_of_any hexp
  obtain ⟨⟨d, s⟩, hmark, hd⟩ := ok_of_any hserve
  exact ⟨c, a₁, a₂, hal, hc, hexp, Or.inl ⟨g, rfl, d, s, hmark, of_decide_eq_true hd⟩⟩

/-- `launder` of 100 bytes on a full small tier: the expansion builds a precise sheet that could
serve the request, and the request fails. -/
theorem launder_starves : ¬∀ cfg sz, PushGrows cfg sz ∧ LaunderGrows cfg sz := by
  intro hall
  obtain ⟨a, w, ha, hrun, hend⟩ := exists_run .default (fun _ _ => True)
    (clearGrant 65536 8192) (clearGrant 131072 8192) (clearGrant 262144 65536)
    [.push 3000 [], .push 3000 [], .push 1900 []]
    (fun w => expandsAtOnce (fun a => vmapLaunder a 100) true 100 (clearGrant 16384 8192) w.arena &&
      (launder .default w.arena 100 [clearGrant 16384 8192, clearGrant 32768 8192]).toOption.any
        fun r => r.1 = none)
    (by decide +kernel)
  simp only [Bool.and_eq_true] at hend
  obtain ⟨hexp, hfail⟩ := hend
  obtain ⟨⟨o, a'⟩, hlaunder, ho⟩ := ok_of_any hfail
  have hreach : Reached .default w.arena := ⟨_, _, _, a, _, w, ha, hrun, rfl⟩
  exact (hall .default 100).2.2 _ a' _ o hreach (.of_atOnce hexp) hlaunder (of_decide_eq_true ho)

end AbcMalloc.Arena
