import AbcMalloc.Arena.Sheets

/-! The index of a tier: its entries are sorted and disjoint, its sheets hold their part of the
active blocks, and its cache parks active blocks that are not temporal. -/
namespace AbcMalloc.Arena
open Function Foundation

variable {σ : Type*} {T : Params σ} {fits : ℕ → Bool} {Rep : σ → Ledger → Prop} {U U' : Active}
  {t t' : Tier σ} {e e' : Entry σ} {L : Ledger} {i j p : ℕ}

structure Tier.Inv (T : Params σ) (Rep : σ → Ledger → Prop) (U : Active) (t : Tier σ) : Prop where
  good : ∀ f ∈ t.frames, f.Good
  sorted : t.frames.Pairwise fun f g => f.stop ≤ g.lo
  sheets : ∀ e ∈ t.idx, ∃ L, e.Holds T Rep U L
  cached : ∀ c ∈ t.cache, (∃ f ∈ t.frames, f.Covers c.1) ∧
    ∃ n, U c.1 = some (n, false) ∧ c.2 + 32 ≤ n
  nodup : (t.cache.map Prod.fst).Nodup
  room : t.cache.length ≤ T.cacheSlots

namespace Tier

theorem mem_frames (he : e ∈ t.idx) : e.frame ∈ t.frames := List.mem_map_of_mem he

theorem exists_entry {f : Frame} (hf : f ∈ t.frames) : ∃ (i : ℕ) (e : Entry σ), t.idx[i]? = some e ∧
    e.frame = f := by
  obtain ⟨e, he, rfl⟩ := List.mem_map.1 hf
  obtain ⟨i, hi⟩ := List.mem_iff_getElem?.1 he
  exact ⟨i, e, hi, rfl⟩

theorem setSheet_getElem? (hi : t.idx[i]? = some e) (s : Sheet σ) (j : ℕ) :
    (t.setSheet i s).idx[j]? = if j = i then some { e with sheet := s } else t.idx[j]? := by
  unfold setSheet
  rw [List.getElem?_modify]
  by_cases hj : j = i
  · subst hj
    simp [hi]
  · have hne : ¬i = j := fun h => hj h.symm
    simp [hj, hne]

theorem frames_setSheet (hi : t.idx[i]? = some e) (b : σ) :
    (t.setSheet i { e.sheet with book := b }).frames = t.frames := by
  apply List.ext_getElem?
  intro j
  unfold frames
  rw [List.getElem?_map, List.getElem?_map, setSheet_getElem? hi]
  by_cases hj : j = i
  · subst hj
    rw [if_pos rfl, hi]
    rfl
  · rw [if_neg hj]

namespace Inv

/-- The invariant reads the index and the cache only. -/
theorem congr (h : t.Inv T Rep U) (hi : t'.idx = t.idx) (hc : t'.cache = t.cache) :
    t'.Inv T Rep U := by
  have hf : t'.frames = t.frames := by rw [frames, frames, hi]
  constructor
  · rw [hf]
    exact h.good
  · rw [hf]
    exact h.sorted
  · rw [hi]
    exact h.sheets
  · rw [hf, hc]
    exact h.cached
  · rw [hc]
    exact h.nodup
  · rw [hc]
    exact h.room

theorem entry_good (h : t.Inv T Rep U) (hi : t.idx[i]? = some e) : e.frame.Good :=
  h.good _ (mem_frames (List.mem_of_getElem? hi))

theorem entry_holds (h : t.Inv T Rep U) (hi : t.idx[i]? = some e) : ∃ L, e.Holds T Rep U L :=
  h.sheets e (List.mem_of_getElem? hi)

theorem not_empty (h : t.Inv T Rep U) (hi : t.idx[i]? = some e) : e.sheet.empty = false := by
  have hg := h.entry_good hi
  have h₁ : e.sheet.mem.ptr = e.lo := hg.ptr
  have h₂ : 0 < e.lo := hg.pos
  unfold Sheet.empty
  rw [decide_eq_false_iff_not]
  omega

theorem order (h : t.Inv T Rep U) (hi : t.idx[i]? = some e) (hj : t.idx[j]? = some e')
    (hij : i < j) : e.frame.stop ≤ e'.lo := by
  obtain ⟨hi', rfl⟩ := List.getElem?_eq_some_iff.1 hi
  obtain ⟨hj', rfl⟩ := List.getElem?_eq_some_iff.1 hj
  have := List.pairwise_iff_getElem.1 h.sorted i j (by simpa [frames] using hi')
    (by simpa [frames] using hj') hij
  simp only [frames, List.getElem_map] at this
  exact this

theorem unique (h : t.Inv T Rep U) (hi : t.idx[i]? = some e) (hj : t.idx[j]? = some e')
    (hp : e.frame.Covers p) (hp' : e'.frame.Covers p) : i = j := by
  have h₁ : e.lo ≤ p ∧ p < e.hi := hp
  have h₂ : e'.lo ≤ p ∧ p < e'.hi := hp'
  have h₃ : e.hi ≤ e.frame.stop := (h.entry_good hi).hi_le
  have h₄ : e'.hi ≤ e'.frame.stop := (h.entry_good hj).hi_le
  rcases lt_trichotomy i j with hlt | heq | hgt
  · have := h.order hi hj hlt
    omega
  · exact heq
  · have := h.order hj hi hgt
    omega

theorem loAt_eq (hi : t.idx[i]? = some e) : t.loAt i = e.lo := by
  simp [loAt, hi]

theorem hiAt_eq (hi : t.idx[i]? = some e) : t.hiAt i = e.hi := by
  simp [hiAt, hi]

/-- The binary search finds the entry that covers an address. -/
theorem findRange_eq_some (h : t.Inv T Rep U) :
    t.findRange p = some i ↔ ∃ e, t.idx[i]? = some e ∧ e.frame.Covers p := by
  have hat : ∀ i < t.idx.length, ∃ e, t.idx[i]? = some e := fun i hi =>
    ⟨_, List.getElem?_eq_getElem hi⟩
  unfold findRange
  rw [searchInterval_eq_some]
  · constructor
    · rintro ⟨hi, h₁, h₂⟩
      obtain ⟨e, he⟩ := hat i hi
      rw [loAt_eq he] at h₁
      rw [hiAt_eq he] at h₂
      exact ⟨e, he, h₁, h₂⟩
    · rintro ⟨e, he, h₁, h₂⟩
      refine ⟨(List.getElem?_eq_some_iff.1 he).1, ?_, ?_⟩
      · rw [loAt_eq he]
        exact h₁
      · rw [hiAt_eq he]
        exact h₂
  · intro i hi
    obtain ⟨e, he⟩ := hat i hi
    rw [loAt_eq he, hiAt_eq he]
    exact (h.entry_good he).lt
  · intro i j hij hj
    obtain ⟨e, he⟩ := hat i (by omega)
    obtain ⟨e', he'⟩ := hat j hj
    rw [hiAt_eq he, loAt_eq he']
    exact (h.entry_good he).hi_le.trans (h.order he he' hij)

theorem findRange_isSome (h : t.Inv T Rep U) :
    (t.findRange p).isSome ↔ ∃ f ∈ t.frames, f.Covers p := by
  rw [Option.isSome_iff_exists]
  constructor
  · rintro ⟨i, hi⟩
    obtain ⟨e, he, hp⟩ := h.findRange_eq_some.1 hi
    exact ⟨e.frame, mem_frames (List.mem_of_getElem? he), hp⟩
  · rintro ⟨f, hf, hp⟩
    obtain ⟨i, e, he, rfl⟩ := exists_entry hf
    exact ⟨i, h.findRange_eq_some.2 ⟨e, he, hp⟩⟩

/-- The invariant only depends on the active blocks in the ranges of the tier. -/
theorem agree (hT : Refines T.book fits Rep) (h : t.Inv T Rep U)
    (hU : ∀ f ∈ t.frames, ∀ p, f.Covers p → U' p = U p) : t.Inv T Rep U' where
  good := h.good
  sorted := h.sorted
  sheets e he := by
    obtain ⟨L, hL⟩ := h.sheets e he
    exact ⟨L, hL.congr hT (hU _ (mem_frames he))⟩
  cached c hc := by
    obtain ⟨⟨f, hf, hp⟩, n, hn, hle⟩ := h.cached c hc
    exact ⟨⟨f, hf, hp⟩, n, (hU f hf _ hp).trans hn, hle⟩
  nodup := h.nodup
  room := h.room

/-- The list of one sheet changes, and with it the active blocks in the range of the sheet,
those in the cache excepted. -/
theorem replace (hT : Refines T.book fits Rep) (h : t.Inv T Rep U) (hi : t.idx[i]? = some e) {b : σ}
    (hH : Entry.Holds T Rep U' { e with sheet := { e.sheet with book := b } } L)
    (hU : ∀ p, ¬e.frame.Covers p → U' p = U p) (hc : ∀ c ∈ t.cache, U' c.1 = U c.1) :
    (t.setSheet i { e.sheet with book := b }).Inv T Rep U' := by
  have hf := frames_setSheet hi b
  constructor
  · rw [hf]
    exact h.good
  · rw [hf]
    exact h.sorted
  · intro x hx
    obtain ⟨j, hj⟩ := List.mem_iff_getElem?.1 hx
    rw [setSheet_getElem? hi] at hj
    by_cases hji : j = i
    · rw [if_pos hji] at hj
      obtain rfl := Option.some.inj hj
      exact ⟨L, hH⟩
    · rw [if_neg hji] at hj
      obtain ⟨L', hL'⟩ := h.entry_holds hj
      refine ⟨L', hL'.congr hT ?_⟩
      intro q hq
      exact hU q fun hq' => hji (h.unique hj hi hq hq')
  · rw [hf]
    intro c hcm
    obtain ⟨hcov, n, hn, hle⟩ := h.cached c hcm
    exact ⟨hcov, n, (hc c hcm).trans hn, hle⟩
  · exact h.nodup
  · exact h.room

end Inv

/-! ## Dropping a sheet -/

theorem Inv.unregister (h : t.Inv T Rep U) (hi : t.idx[i]? = some e)
    (hnone : ∀ p, e.frame.Covers p → U p = none) : (t.unregister T i).Inv T Rep U := by
  have hsub : (t.unregister T i).idx.Sublist t.idx := List.eraseIdx_sublist _ _
  have hfs : (t.unregister T i).frames.Sublist t.frames := hsub.map _
  constructor
  · intro f hf
    exact h.good f (hfs.subset hf)
  · exact h.sorted.sublist hfs
  · intro x hx
    exact h.sheets x (hsub.subset hx)
  · intro c hc
    obtain ⟨⟨f, hf, hp⟩, n, hn, hle⟩ := h.cached c hc
    refine ⟨⟨f, ?_, hp⟩, n, hn, hle⟩
    obtain ⟨j, x, hj, rfl⟩ := exists_entry hf
    have hji : j ≠ i := by
      rintro rfl
      rw [hi] at hj
      obtain rfl := Option.some.inj hj
      rw [hnone _ hp] at hn
      exact absurd hn (by simp)
    have hmem : x ∈ (t.unregister T i).idx := List.mem_eraseIdx_iff_getElem?.2 ⟨j, hji, hj⟩
    exact mem_frames hmem
  · exact h.nodup
  · exact h.room

/-- What giving back drained sheets leaves: fewer frames, and every active block covered as
before. -/
structure Shrinks (U : Active) (t t' : Tier σ) : Prop where
  frames : t'.frames.Sublist t.frames
  cache : t'.cache = t.cache
  built : t'.built = t.built
  kept : ∀ f ∈ t.frames, ∀ p, f.Covers p → U p ≠ none → f ∈ t'.frames

theorem Shrinks.refl (U : Active) (t : Tier σ) : Shrinks U t t :=
  ⟨List.Sublist.refl _, rfl, rfl, fun _ hf _ _ _ => hf⟩

theorem Shrinks.trans {t'' : Tier σ} (h : Shrinks U t t') (h' : Shrinks U t' t'') :
    Shrinks U t t'' where
  frames := h'.frames.trans h.frames
  cache := h'.cache.trans h.cache
  built := h'.built.trans h.built
  kept f hf p hp hU := h'.kept f (h.kept f hf p hp hU) p hp hU

theorem unregister_shrinks (hi : t.idx[i]? = some e)
    (hnone : ∀ p, e.frame.Covers p → U p = none) : Shrinks U t (t.unregister T i) where
  frames := (List.eraseIdx_sublist _ _).map _
  cache := rfl
  built := rfl
  kept f hf p hp hU := by
    obtain ⟨j, x, hj, rfl⟩ := exists_entry hf
    have hji : j ≠ i := by
      rintro rfl
      rw [hi] at hj
      obtain rfl := Option.some.inj hj
      exact hU (hnone p hp)
    have hmem : x ∈ (t.unregister T i).idx := List.mem_eraseIdx_iff_getElem?.2 ⟨j, hji, hj⟩
    exact mem_frames hmem

end Tier
end AbcMalloc.Arena
