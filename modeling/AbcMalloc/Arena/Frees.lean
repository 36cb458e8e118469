import AbcMalloc.Arena.Index

/-! What the removal paths of a tier do to an active block: it is parked in the cache, or it
goes away and drained sheets go with it. -/
namespace AbcMalloc.Arena
open Function Foundation

variable {σ : Type*} {T : Params σ} {fits : ℕ → Bool} {Rep : σ → Ledger → Prop} {U : Active}
  {t t' : Tier σ} {e : Entry σ} {i p n : ℕ} {k : Bool}

namespace Tier

/-! ## Giving sheets back -/

theorem tryReclaimEmpty_spec (hT : Refines T.book fits Rep) (h : t.Inv T Rep U) (i : ℕ) :
    (t.tryReclaimEmpty T i).Inv T Rep U ∧ Shrinks U t (t.tryReclaimEmpty T i) := by
  unfold tryReclaimEmpty
  split_ifs with hc
  · obtain ⟨e, hi, he⟩ := Option.any_eq_true _ _ |>.1 hc
    simp only [Bool.and_eq_true, decide_eq_true_eq] at he
    obtain ⟨L, hH⟩ := h.entry_holds hi
    have hnone : ∀ p, e.frame.Covers p → U p = none := fun p hp => hH.inactive_of_used hT he.1 hp
    exact ⟨h.unregister hi hnone, unregister_shrinks hi hnone⟩
  · exact ⟨h, .refl U t⟩

/-- A sheet that the accounting of tombstones gives back has no active block. -/
theorem Inv.none_of_sweeps (hT : Refines T.book fits Rep) (h : t.Inv T Rep U)
    (hs : t.sweeps T i = true) :
    ∃ e, t.idx[i]? = some e ∧ ∀ p, e.frame.Covers p → U p = none := by
  obtain ⟨e, hi, he⟩ := Option.any_eq_true _ _ |>.1 hs
  simp only [Sheet.reclaimable, Bool.and_eq_true, decide_eq_true_eq] at he
  obtain ⟨L, hH⟩ := h.entry_holds hi
  exact ⟨e, hi, fun p hp => hH.inactive_of_used hT he.2.1 hp⟩

theorem sweepBelow_spec (hT : Refines T.book fits Rep) : ∀ (m : ℕ) {t : Tier σ}, t.Inv T Rep U →
    (sweepBelow T m t).Inv T Rep U ∧ Shrinks U t (sweepBelow T m t) := by
  intro m
  induction m with
  | zero =>
    intro t h
    exact ⟨h, .refl U t⟩
  | succ m ih =>
    intro t h
    simp only [sweepBelow]
    split_ifs with hs
    · obtain ⟨e, hi, hnone⟩ := h.none_of_sweeps hT hs
      obtain ⟨h₁, h₂⟩ := ih (h.unregister hi hnone)
      exact ⟨h₁, (unregister_shrinks hi hnone).trans h₂⟩
    · exact ih h

theorem tombstoneAccounting_spec (hT : Refines T.book fits Rep) (h : t.Inv T Rep U) (i : ℕ) :
    (t.tombstoneAccounting T i).Inv T Rep U ∧ Shrinks U t (t.tombstoneAccounting T i) := by
  simp only [tombstoneAccounting]
  split_ifs with hs hn
  · obtain ⟨e, hi, hnone⟩ := h.none_of_sweeps hT hs
    exact ⟨h.unregister hi hnone, unregister_shrinks hi hnone⟩
  · have hcount : ∀ m, Shrinks U t { t with deallocCount := m } := fun m =>
      ⟨List.Sublist.refl _, rfl, rfl, fun _ hf _ _ _ => hf⟩
    obtain ⟨h₁, h₂⟩ := sweepBelow_spec hT t.idx.length
      (show Inv T Rep U { t with deallocCount := 0 } from h.congr rfl rfl)
    exact ⟨h₁, (hcount 0).trans h₂⟩
  · exact ⟨h.congr rfl rfl, List.Sublist.refl _, rfl, rfl, fun _ hf _ _ _ => hf⟩

/-! ## Removing a block -/

theorem removeImpl_spec (hT : Refines T.book fits Rep) (h : t.Inv T Rep U) (cfg : Config)
    (force sized : Bool) (hi : t.idx[i]? = some e) (hp : e.frame.Covers p) (hU : U p = some (n, k))
    (hk : k = true → (force || T.tomb) = false) (hc : t.cache.contains p = false) :
    ∃ t', t.removeImpl T cfg force sized i p = .ok (true, t') ∧ t'.Inv T Rep (update U p none) ∧
      Shrinks (update U p none) t t' := by
  obtain ⟨L, hH⟩ := h.entry_holds hi
  obtain ⟨b, L', hrem, hH'⟩ := hH.tryRemove hT (h.not_empty hi) sized hp hU hk
  have hne : ∀ c ∈ t.cache, c.1 ≠ p := by
    intro c hm he
    unfold Cache.contains at hc
    simp only [List.any_eq_false, decide_eq_true_eq] at hc
    exact hc c hm he
  have hset := h.replace hT hi hH'
    (fun q hq => update_of_ne (fun he => hq (by rw [he]; exact hp)) _ _)
    fun c hm => update_of_ne (hne c hm) _ _
  set t₁ := (t.setSheet i { e.sheet with book := b }).markAvailable i with ht₁
  have hI : t₁.Inv T Rep (update U p none) := hset.congr rfl rfl
  have hS : Shrinks (update U p none) t t₁ := by
    have hf : t₁.frames = t.frames := frames_setSheet hi b
    exact ⟨by rw [hf], rfl, rfl, fun f hm _ _ _ => by rw [hf]; exact hm⟩
  have hrun : t.removeImpl T cfg force sized i p =
      .ok (true, if (force || T.tomb) = true then t₁.tombstoneAccounting T i
        else t₁.tryReclaimEmpty T i) := by
    unfold removeImpl
    rw [hi]
    simp only [hrem, bind, Except.bind, Bool.or_true, if_true]
    rfl
  refine ⟨_, hrun, ?_⟩
  split_ifs
  · obtain ⟨h₁, h₂⟩ := tombstoneAccounting_spec hT hI i
    exact ⟨h₁, hS.trans h₂⟩
  · obtain ⟨h₁, h₂⟩ := tryReclaimEmpty_spec hT hI i
    exact ⟨h₁, hS.trans h₂⟩

def Frees (T : Params σ) (Rep : σ → Ledger → Prop) (U U' : Active) (t : Tier σ) (p : ℕ)
    (t' : Tier σ) : Prop :=
  (U' = U ∧ t'.Inv T Rep U ∧ ∃ m, t' = { t with cache := t.cache ++ [(p, m)] }) ∨
    (U' = update U p none ∧ t'.Inv T Rep U' ∧ Shrinks U' t t')

theorem Inv.park (h : t.Inv T Rep U) {c : Cache} {m : ℕ} (hi : t.idx[i]? = some e)
    (hp : e.frame.Covers p) (hU : U p = some (n, false)) (hc : t.cache.contains p = false)
    (hm : m + 32 ≤ n) (hpush : t.cache.push T.cacheSlots p m = some c) :
    Frees T Rep U U t p { t with cache := c } := by
  unfold Cache.push at hpush
  split_ifs at hpush with hroom
  obtain rfl := Option.some.inj hpush
  have hmod : m % 2 ^ 32 ≤ m := Nat.mod_le _ _
  refine Or.inl ⟨rfl, ⟨h.good, h.sorted, h.sheets, ?_, ?_, ?_⟩, _, rfl⟩
  · intro c hcm
    rcases List.mem_append.1 hcm with hcm | hcm
    · exact h.cached c hcm
    · obtain rfl := List.mem_singleton.1 hcm
      exact ⟨⟨e.frame, mem_frames (List.mem_of_getElem? hi), hp⟩, n, hU, by
        show m % 2 ^ 32 + 32 ≤ n
        omega⟩
  · show ((t.cache ++ [(p, m % 2 ^ 32)]).map Prod.fst).Nodup
    rw [List.map_append, List.map_singleton, List.nodup_append]
    refine ⟨h.nodup, by simp, ?_⟩
    intro q hq q' hq'
    obtain ⟨c, hcm, rfl⟩ := List.mem_map.1 hq
    obtain rfl := List.mem_singleton.1 hq'
    unfold Cache.contains at hc
    simp only [List.any_eq_false, decide_eq_true_eq] at hc
    exact hc c hcm
  · show (t.cache ++ [(p, m % 2 ^ 32)]).length ≤ T.cacheSlots
    rw [List.length_append, List.length_singleton]
    omega

/-- What the list reports about an active block. -/
theorem Inv.reports (hT : Refines T.book fits Rep) (h : t.Inv T Rep U) (hi : t.idx[i]? = some e)
    (hp : e.frame.Covers p) (hU : U p = some (n, k)) :
    e.sheet.isBlockAllocated T p = true ∧ T.book.isTemporal e.sheet.book p = k ∧
      T.book.blockSize e.sheet.book p = n := by
  obtain ⟨L, hH⟩ := h.entry_holds hi
  obtain ⟨b, f, rfl, hb, hf, hk⟩ := hH.used hT hp hU
  refine ⟨?_, ?_, hT.blockSize hH.rep hb⟩
  · unfold Sheet.isBlockAllocated
    rw [hT.isAllocated hH.rep hb, hT.isTombstoned hH.rep hb, decide_eq_false hf]
    rfl
  · rw [hT.isTemporal hH.rep hb, hk]

/-- The size-less free of an active block. A temporal block is never parked. -/
theorem removeAt_spec (hT : Refines T.book fits Rep) (h : t.Inv T Rep U) (cfg : Config)
    (hi : t.idx[i]? = some e) (hp : e.frame.Covers p) (hU : U p = some (n, k))
    (hk : k = true → T.tomb = false) (hc : t.cache.contains p = false) :
    ∃ t' U', t.removeAt T cfg i p = .ok (true, t') ∧ Frees T Rep U U' t p t' := by
  obtain ⟨ha, htemp, hsize⟩ := h.reports hT hi hp hU
  obtain ⟨t', hrem, hI, hS⟩ := removeImpl_spec hT h cfg false false hi hp hU
    (by simpa using hk) hc
  have hdirect : Frees T Rep U (update U p none) t p t' := Or.inr ⟨rfl, hI, hS⟩
  unfold removeAt
  rw [hi]
  simp only [ha, hc, htemp, hsize, hrem, Bool.not_true, Bool.false_eq_true, if_false]
  split_ifs with h₁ h₂ h₃
  · exact ⟨t', _, rfl, hdirect⟩
  · exact ⟨t', _, rfl, hdirect⟩
  · exact ⟨t', _, rfl, hdirect⟩
  · simp only [Bool.or_eq_true, decide_eq_true_eq, not_or, Bool.not_eq_true, not_le] at h₃
    obtain ⟨rfl, hn⟩ := h₃
    split
    · next c hpush => exact ⟨_, U, rfl, h.park hi hp hU hc (by omega) hpush⟩
    · exact ⟨t', _, rfl, hdirect⟩

/-- The sized free of an active block: a temporal block is parked too, unless the cache is
full. -/
theorem cachePushOrRemove_spec (hT : Refines T.book fits Rep) (h : t.Inv T Rep U) (cfg : Config)
    (hi : t.idx[i]? = some e) (hp : e.frame.Covers p) (hU : U p = some (n, k))
    (hk : k = true → T.tomb = false ∧ T.cacheSlots ≤ t.cache.length)
    (hc : t.cache.contains p = false) (len : ℕ) :
    ∃ t' U', t.cachePushOrRemove T cfg i ⟨p, len⟩ = .ok (true, t') ∧ Frees T Rep U U' t p t' := by
  obtain ⟨ha, -, hsize⟩ := h.reports hT hi hp hU
  obtain ⟨t', hrem, hI, hS⟩ := removeImpl_spec hT h cfg false true hi hp hU
    (fun hkt => by simpa using (hk hkt).1) hc
  have hdirect : Frees T Rep U (update U p none) t p t' := Or.inr ⟨rfl, hI, hS⟩
  unfold cachePushOrRemove
  rw [hi]
  simp only [ha, hc, hsize, hrem, Bool.not_true, Bool.or_self, Bool.false_eq_true, if_false]
  split_ifs with h₁ h₂
  · exact ⟨t', _, rfl, hdirect⟩
  · exact ⟨t', _, rfl, hdirect⟩
  · split
    · next c hpush =>
      have hkf : k = false := by
        cases k with
        | false => rfl
        | true =>
          have := (hk rfl).2
          unfold Cache.push at hpush
          rw [if_pos this] at hpush
          exact absurd hpush (by simp)
      subst hkf
      exact ⟨_, U, rfl, h.park hi hp hU hc (by omega) hpush⟩
    · exact ⟨t', _, rfl, hdirect⟩

end Tier
end AbcMalloc.Arena
