import AbcMalloc.Arena.Index

/-! What the allocation paths of a tier do: a request is served by a block that was not in use,
by a temporal block that is already out, or by a parked block. -/
namespace AbcMalloc.Arena
open Function Foundation

variable {σ : Type*} {T : Params σ} {fits : ℕ → Bool} {Rep : σ → Ledger → Prop} {U : Active}
  {t t' : Tier σ} {e : Entry σ} {i sz : ℕ} {temporal : Bool}

namespace Tier

/-- A chunk from a sheet: the sheet that served is the one of the last hit. -/
structure Serving (T : Params σ) (Rep : σ → Ledger → Prop) (U : Active) (temporal : Bool) (sz : ℕ)
    (c : Chunk) (t : Tier σ) (n : ℕ) (U' : Active) : Prop where
  ptr : c.ptr ≠ 0
  len : c.len = n - 32
  serves : Serves U U' c.ptr n temporal
  inv : t.Inv T Rep U'
  home : ∃ e, t.idx[t.lastHit]? = some e ∧ e.frame.Covers c.ptr
  enough : temporal = false → sz + 32 ≤ n

structure Allocs (T : Params σ) (Rep : σ → Ledger → Prop) (U : Active) (t : Tier σ)
    (temporal : Bool) (sz : ℕ) (c : Chunk) (t' : Tier σ) : Prop where
  frames : t'.frames = t.frames
  cache : t'.cache = t.cache
  built : t'.built = t.built
  outcome : (c = .null ∧ t'.Inv T Rep U) ∨ ∃ n U', Serving T Rep U temporal sz c t' n U'

theorem Allocs.null (h : t.Inv T Rep U) : Allocs T Rep U t temporal sz .null t :=
  ⟨rfl, rfl, rfl, Or.inl ⟨rfl, h⟩⟩

theorem Allocs.trans {t'' : Tier σ} {c c' : Chunk} (h : Allocs T Rep U t temporal sz c t')
    (h' : Allocs T Rep U t' temporal sz c' t'') : Allocs T Rep U t temporal sz c' t'' :=
  ⟨h'.frames.trans h.frames, h'.cache.trans h.cache, h'.built.trans h.built, h'.outcome⟩

theorem Allocs.inv {c : Chunk} (h : Allocs T Rep U t temporal sz c t') (hc : c.ptr = 0) :
    t'.Inv T Rep U := by
  rcases h.outcome with ⟨-, hI⟩ | ⟨n, U', hS⟩
  · exact hI
  · exact absurd hc hS.ptr

theorem insertAt_spec (temporal : Bool) (hT : Refines T.book fits Rep) (h : t.Inv T Rep U)
    (hi : t.idx[i]? = some e) (hfit : fits sz = true) :
    ∃ c t', insertAt T temporal sz t i e = .ok (c, t') ∧ Allocs T Rep U t temporal sz c t' := by
  obtain ⟨L, hH⟩ := h.entry_holds hi
  rcases hH.mark hT (h.not_empty hi) temporal hfit with hnull |
    ⟨p, n, b, U', L', hmark, hp0, hcov, hS, hH', hn⟩
  · have hset := h.replace hT hi (b := e.sheet.book) hH (fun _ _ => rfl) fun _ _ => rfl
    refine ⟨.null, (t.setSheet i e.sheet).markExhausted i, ?_, frames_setSheet hi e.sheet.book, rfl,
      rfl, Or.inl ⟨rfl, hset.congr rfl rfl⟩⟩
    simp [insertAt, hnull, Chunk.null, bind, Except.bind]
  · have hset := h.replace hT hi hH' (fun q hq => hS.of_ne fun he => hq (he ▸ hcov)) fun c hc => by
      obtain ⟨-, m, hm, -⟩ := h.cached c hc
      rw [hS.mono hm, hm]
    refine ⟨⟨p, n - 32⟩, { t.setSheet i { e.sheet with book := b } with lastHit := i }, ?_,
      frames_setSheet hi b, rfl, rfl, Or.inr ⟨n, U', hp0, rfl, hS, hset.congr rfl rfl, ?_, hn⟩⟩
    · simp [insertAt, hmark, hp0, bind, Except.bind]
    · refine ⟨{ e with sheet := { e.sheet with book := b } }, ?_, hcov⟩
      show (t.setSheet i { e.sheet with book := b }).idx[i]? = _
      rw [setSheet_getElem? hi, if_pos rfl]

theorem scanWord_spec (temporal : Bool) (hT : Refines T.book fits Rep) (hfit : fits sz = true)
    (w : ℕ) :
    ∀ (bits : List ℕ) {t : Tier σ}, t.Inv T Rep U →
      ∃ c t', scanWord T temporal sz w bits t = .ok (c, t') ∧
        Allocs T Rep U t temporal sz c t' := by
  intro bits
  induction bits with
  | nil =>
    intro t h
    exact ⟨_, t, rfl, .null h⟩
  | cons bit bits ih =>
    intro t h
    simp only [scanWord]
    cases hi : t.idx[64 * w + bit]? with
    | none => exact ⟨_, t, rfl, .null h⟩
    | some e =>
      obtain ⟨c, t₁, h₁, hA⟩ := insertAt_spec temporal hT h hi hfit
      simp only [h₁, bind, Except.bind]
      by_cases hc : c.ptr = 0
      · obtain ⟨c', t₂, h₂, hA'⟩ := ih (hA.inv hc)
        exact ⟨c', t₂, by simp [hc, h₂], hA.trans hA'⟩
      · exact ⟨c, t₁, by simp [hc], hA⟩

theorem scanWords_spec (temporal : Bool) (hT : Refines T.book fits Rep) (hfit : fits sz = true) :
    ∀ (ws : List ℕ) {t : Tier σ}, t.Inv T Rep U →
      ∃ c t', scanWords T temporal sz ws t = .ok (c, t') ∧ Allocs T Rep U t temporal sz c t' := by
  intro ws
  induction ws with
  | nil =>
    intro t h
    exact ⟨_, t, rfl, .null h⟩
  | cons w ws ih =>
    intro t h
    obtain ⟨c, t₁, h₁, hA⟩ := scanWord_spec temporal hT hfit w
      ((List.range 64).filter fun j => (t.spaceMask w).getLsbD j) h
    simp only [scanWords, h₁, bind, Except.bind]
    by_cases hc : c.ptr = 0
    · obtain ⟨c', t₂, h₂, hA'⟩ := ih (hA.inv hc)
      exact ⟨c', t₂, by simp [hc, h₂], hA.trans hA'⟩
    · exact ⟨c, t₁, by simp [hc], hA⟩

theorem insertLastHit_spec (temporal : Bool) (hT : Refines T.book fits Rep)
    (hfit : fits sz = true) (h : t.Inv T Rep U) :
    ∃ c t', insertLastHit T temporal t sz = .ok (c, t') ∧ Allocs T Rep U t temporal sz c t' := by
  unfold insertLastHit
  cases hi : t.idx[t.lastHit]? with
  | none => exact ⟨_, t, rfl, .null h⟩
  | some e =>
    by_cases hm : t.maskGet t.lastHit = true
    · simp only [hm, if_true]
      exact insertAt_spec temporal hT h hi hfit
    · simp only [hm]
      exact ⟨_, t, rfl, .null h⟩

theorem bucketInsert_spec (temporal : Bool) (hT : Refines T.book fits Rep)
    (hfit : fits sz = true) (h : t.Inv T Rep U) :
    ∃ c t', bucketInsert T temporal t sz = .ok (c, t') ∧ Allocs T Rep U t temporal sz c t' := by
  obtain ⟨c, t₁, h₁, hA⟩ := insertLastHit_spec temporal hT hfit h
  unfold bucketInsert
  rw [h₁]
  simp only [bind, Except.bind]
  by_cases hc : c.ptr = 0
  · obtain ⟨c', t₂, h₂, hA'⟩ := scanWords_spec temporal hT hfit
      (List.range (detailWords T)) (hA.inv hc)
    exact ⟨c', t₂, by simp [hc, h₂], hA.trans hA'⟩
  · exact ⟨c, t₁, by simp [hc], hA⟩

/-! ## The free cache -/

/-- A parked block leaves the cache; its recorded size passed the test `fit`. -/
structure Unparks (U : Active) (t : Tier σ) (fit : ℕ → Bool) (c : Chunk) (t' : Tier σ) : Prop where
  rest : ((c.ptr, c.len) :: t'.cache).Perm t.cache
  same : t' = { t with cache := t'.cache }
  active : ∃ n, U c.ptr = some (n, false) ∧ c.len + 32 ≤ n
  fits : fit c.len = true

theorem probe_eq_some {fit : ℕ → Bool} {c : Cache} (h : c.probe fit = some i) :
    i < c.length ∧ fit (c.getD i (0, 0)).2 = true := by
  unfold Cache.probe at h
  have hlt : i < c.length := by
    have := List.mem_of_find?_eq_some h
    simpa using this
  have hfit := List.find?_some h
  rw [List.getElem?_eq_getElem hlt, Option.any_some] at hfit
  rw [List.getD_eq_getElem _ _ hlt]
  exact ⟨hlt, hfit⟩

theorem Inv.popAt (h : t.Inv T Rep U) {fit : ℕ → Bool} (hi : t.cache.probe fit = some i) :
    let c : Chunk := ⟨(t.cache.popAt i).1.1, (t.cache.popAt i).1.2⟩
    let t' := { t with cache := (t.cache.popAt i).2 }
    c.ptr ≠ 0 ∧ Unparks U t fit c t' ∧ t'.Inv T Rep U := by
  obtain ⟨hlt, hfit⟩ := probe_eq_some hi
  have hperm : ((t.cache.getD i (0, 0)) :: (t.cache.popAt i).2).Perm t.cache :=
    swapRemove_perm (0, 0) (0, 0) hlt
  have hmem : t.cache.getD i (0, 0) ∈ t.cache := hperm.subset List.mem_cons_self
  obtain ⟨⟨f, hf, hcov⟩, n, hn, hle⟩ := h.cached _ hmem
  have hnd : ((t.cache.getD i (0, 0) :: (t.cache.popAt i).2).map Prod.fst).Nodup :=
    (hperm.map _).nodup_iff.2 h.nodup
  refine ⟨?_, ⟨hperm, rfl, ⟨n, hn, hle⟩, hfit⟩, h.good, h.sorted, h.sheets, ?_, ?_, ?_⟩
  · have h₁ := (h.good f hf).pos
    have h₂ : f.lo ≤ (t.cache.getD i (0, 0)).1 := hcov.1
    show (t.cache.getD i (0, 0)).1 ≠ 0
    omega
  · intro c hc
    exact h.cached c (hperm.subset (List.mem_cons_of_mem _ hc))
  · rw [List.map_cons, List.nodup_cons] at hnd
    exact hnd.2
  · have h₁ := hperm.length_eq
    rw [List.length_cons] at h₁
    have h₂ := h.room
    show (t.cache.popAt i).2.length ≤ T.cacheSlots
    omega

/-- `__cache_pop_or_insert` serves from the cache or from a sheet. -/
theorem cachePopOrInsert_spec (hT : Refines T.book fits Rep) (hfit : fits sz = true)
    (h : t.Inv T Rep U) (cfg : Config) :
    ∃ c t', cachePopOrInsert T cfg t sz = .ok (c, t') ∧
      (Allocs T Rep U t false sz c t' ∨
        c.ptr ≠ 0 ∧ Unparks U t (cacheFit cfg sz) c t' ∧ t'.Inv T Rep U) := by
  unfold cachePopOrInsert
  cases hi : t.cache.probe (cacheFit cfg sz) with
  | none =>
    obtain ⟨c, t', hb, hA⟩ := bucketInsert_spec false hT hfit h
    exact ⟨c, t', hb, Or.inl hA⟩
  | some i => exact ⟨_, _, rfl, Or.inr (h.popAt hi)⟩

end Tier
end AbcMalloc.Arena
