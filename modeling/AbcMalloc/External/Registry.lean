import AbcMalloc.External.Model
import AbcMalloc.Foundation.IntervalSet

/-! The registry holds a set of disjoint intervals: what its loops find in the tables, and what
writing or vacating an entry does to the ranges held. -/
namespace AbcMalloc.External
open Function Foundation

/-! ## The ranges held -/

def held (ranges : ℕ → Range) (h : ℕ) : List Range :=
  ((List.range h).map ranges).filter fun x => x.base ≠ 0

def Page.live (page : Page) : List Range := held page.ranges page.highWater

def Registry.live (r : Registry) : List Range := r.pages.flatMap Page.live

section Tables
variable {f : ℕ → Range} {h i : ℕ} {x : Range}

theorem mem_held : x ∈ held f h ↔ x.base ≠ 0 ∧ ∃ i < h, f i = x := by
  simp only [held, List.mem_filter, List.mem_map, List.mem_range, decide_eq_true_eq]
  exact and_comm

theorem held_succ : held f (h + 1) = held f h ++ if (f h).base = 0 then [] else [f h] := by
  unfold held
  rw [List.range_succ, List.map_append, List.filter_append]
  split_ifs with h0 <;> simp [h0]

theorem held_congr {g : ℕ → Range} (hfg : ∀ j < h, g j = f j) : held g h = held f h := by
  unfold held
  congr 1
  exact List.map_congr_left fun j hj => hfg j (List.mem_range.1 hj)

theorem held_place (hi : i < h) (hf : (f i).base = 0) (hx : x.base ≠ 0) :
    (held (update f i x) h).Perm (x :: held f h) := by
  induction h with
  | zero => omega
  | succ h ih =>
    rw [held_succ, held_succ]
    by_cases hih : i = h
    · subst hih
      have hsame : held (update f i x) i = held f i :=
        held_congr fun j hj => update_of_ne (by omega) _ _
      rw [hsame, update_self, if_neg hx, if_pos hf, List.append_nil]
      exact List.perm_append_singleton x _
    · rw [update_of_ne (Ne.symm hih)]
      exact (ih (by omega)).append_right _

theorem held_vacate (hi : i < h) (hf : (f i).base ≠ 0) :
    (held f h).Perm (f i :: held (update f i .vacant) h) := by
  have hback : update (update f i Range.vacant) i (f i) = f := by
    rw [update_idem, update_eq_self]
  have hplace := held_place (f := update f i Range.vacant) (x := f i) hi
    (by rw [update_self]; rfl) hf
  rwa [hback] at hplace

theorem lowerWater_le : lowerWater f h ≤ h := by
  induction h with
  | zero => exact le_rfl
  | succ h ih =>
    simp only [lowerWater]
    split_ifs
    · omega
    · exact le_rfl

/-- Lowering the mark skips vacant entries only. -/
theorem vacant_of_lowerWater (hi : lowerWater f h ≤ i) (hih : i < h) : (f i).base = 0 := by
  induction h with
  | zero => omega
  | succ h ih =>
    simp only [lowerWater] at hi
    split_ifs at hi with h0
    · by_cases hlast : i = h
      · rw [hlast, h0]
      · exact ih hi (by omega)
    · omega

theorem held_lowerWater : held f (lowerWater f h) = held f h := by
  induction h with
  | zero => rfl
  | succ h ih =>
    simp only [lowerWater]
    split_ifs with h0
    · rw [ih, held_succ, if_pos h0, List.append_nil]
    · rfl

end Tables

structure Page.Ok (page : Page) : Prop where
  pos : 0 < page.capacity
  room : page.highWater ≤ page.capacity
  above : ∀ i, page.highWater ≤ i → (page.ranges i).base = 0
  used : page.used = page.live.length

namespace Page.Ok
variable {page : Page} {i : ℕ} {x : Range}

theorem place (hp : page.Ok) (hi : i < page.highWater) (h0 : (page.ranges i).base = 0)
    (hx : x.base ≠ 0) : (page.place i x).Ok ∧ (page.place i x).live.Perm (x :: page.live) := by
  have hperm : (page.place i x).live.Perm (x :: page.live) := held_place hi h0 hx
  refine ⟨⟨hp.pos, hp.room, fun j hj => ?_, ?_⟩, hperm⟩
  · have hj : page.highWater ≤ j := hj
    show (update page.ranges i x j).base = 0
    rw [update_of_ne (by omega)]
    exact hp.above j hj
  · rw [hperm.length_eq, List.length_cons, ← hp.used]
    rfl

theorem raise (hp : page.Ok) (hroom : page.highWater < page.capacity) :
    { page with highWater := page.highWater + 1 }.Ok ∧
      ({ page with highWater := page.highWater + 1 } : Page).live = page.live := by
  have hlive : ({ page with highWater := page.highWater + 1 } : Page).live = page.live := by
    show held page.ranges (page.highWater + 1) = _
    rw [held_succ, if_pos (hp.above _ le_rfl), List.append_nil]
    rfl
  refine ⟨⟨hp.pos, hroom, fun j hj => ?_, ?_⟩, hlive⟩
  · have hj : page.highWater + 1 ≤ j := hj
    exact hp.above j (by omega)
  · rw [hlive]
    exact hp.used

theorem vacate (hp : page.Ok) (hi : i < page.highWater) (hne : (page.ranges i).base ≠ 0) :
    (page.vacate i).Ok ∧ page.live.Perm (page.ranges i :: (page.vacate i).live) := by
  have hlive : (page.vacate i).live = held (update page.ranges i .vacant) page.highWater := by
    unfold Page.live Page.vacate
    dsimp only
    split_ifs
    · exact held_lowerWater
    · rfl
  have hperm : page.live.Perm (page.ranges i :: (page.vacate i).live) := by
    rw [hlive]
    exact held_vacate hi hne
  have hle : (page.vacate i).highWater ≤ page.highWater := by
    unfold Page.vacate
    dsimp only
    split_ifs
    · exact lowerWater_le
    · exact le_rfl
  refine ⟨⟨hp.pos, hle.trans hp.room, fun j hj => ?_, ?_⟩, hperm⟩
  · by_cases hlow : page.highWater ≤ j
    · show (update page.ranges i Range.vacant j).base = 0
      rw [update_of_ne (by omega)]
      exact hp.above j hlow
    · unfold Page.vacate at hj ⊢
      dsimp only at hj ⊢
      split_ifs at hj
      · exact vacant_of_lowerWater hj (by omega)
      · omega
  · have hlen := hperm.length_eq
    rw [List.length_cons, ← hp.used] at hlen
    show page.used - 1 = _
    omega

end Page.Ok

/-! ## The loops -/

section Loops
variable {lo hi base k i : ℕ} {page : Page} {pages : List Page} {is : List ℕ}
  {v v' : Option (ℕ × ℕ)} {t t' : Option ℕ}

theorem scanRanges_eq_none :
    scanRanges lo hi k page is v = none ↔ ∃ i ∈ is, overlap lo hi (page.ranges i) = true := by
  induction is generalizing v with
  | nil => simp [scanRanges]
  | cons i is ih =>
    simp only [scanRanges, List.mem_cons, exists_eq_or_imp]
    by_cases hov : overlap lo hi (page.ranges i) = true
    · rw [if_pos hov]
      exact iff_of_true rfl (Or.inl hov)
    · rw [if_neg hov, ih]
      exact (or_iff_right hov).symm

theorem scanRanges_some (h : scanRanges lo hi k page is v = some v') :
    v' = v ∨ ∃ i ∈ is, v' = some (k, i) ∧ (page.ranges i).base = 0 := by
  induction is generalizing v with
  | nil =>
    simp only [scanRanges, Option.some.injEq] at h
    exact Or.inl h.symm
  | cons i is ih =>
    simp only [scanRanges] at h
    split_ifs at h with hov hfirst
    · rcases ih h with rfl | ⟨j, hj, hv, hb⟩
      · exact Or.inr ⟨i, List.mem_cons_self, rfl, hfirst.2⟩
      · exact Or.inr ⟨j, List.mem_cons_of_mem _ hj, hv, hb⟩
    · rcases ih h with rfl | ⟨j, hj, hv, hb⟩
      · exact Or.inl rfl
      · exact Or.inr ⟨j, List.mem_cons_of_mem _ hj, hv, hb⟩

theorem scanPages_eq_none : scanPages lo hi k pages v t = none ↔
    ∃ page ∈ pages, ∃ i < page.highWater, overlap lo hi (page.ranges i) = true := by
  induction pages generalizing k v t with
  | nil => simp [scanPages]
  | cons page pages ih =>
    simp only [scanPages]
    cases hscan : scanRanges lo hi k page (List.range page.highWater) v with
    | none =>
      obtain ⟨i, hi, hov⟩ := scanRanges_eq_none.1 hscan
      simp only [Option.bind_eq_bind, Option.bind_none, true_iff]
      exact ⟨page, List.mem_cons_self, i, List.mem_range.1 hi, hov⟩
    | some v₁ =>
      simp only [Option.bind_eq_bind, Option.bind_some]
      rw [ih]
      constructor
      · rintro ⟨p, hp, hov⟩
        exact ⟨p, List.mem_cons_of_mem _ hp, hov⟩
      · rintro ⟨p, hp, i, hi', hov⟩
        rcases List.mem_cons.1 hp with rfl | hp
        · have hnone : scanRanges lo hi k p (List.range p.highWater) v = none :=
            scanRanges_eq_none.2 ⟨i, List.mem_range.2 hi', hov⟩
          rw [hscan] at hnone
          exact absurd hnone (by simp)
        · exact ⟨p, hp, i, hi', hov⟩

/-- What the outer loop names: a vacant entry below a mark, and a page with room above it. -/
theorem scanPages_some (h : scanPages lo hi k pages v t = some (v', t')) :
    (v' = v ∨ ∃ j p i, pages[j]? = some p ∧ v' = some (k + j, i) ∧ i < p.highWater ∧
        (p.ranges i).base = 0) ∧
      (t' = t ∨ ∃ j p, pages[j]? = some p ∧ t' = some (k + j) ∧ p.highWater < p.capacity) := by
  induction pages generalizing k v t with
  | nil =>
    simp only [scanPages, Option.some.injEq, Prod.mk.injEq] at h
    exact ⟨Or.inl h.1.symm, Or.inl h.2.symm⟩
  | cons page pages ih =>
    obtain ⟨v₁, hscan, h⟩ := Option.bind_eq_some_iff.1 h
    obtain ⟨hv, ht⟩ := ih h
    constructor
    · rcases hv with rfl | ⟨j, p, i, hp, rfl, hi, hb⟩
      · rcases scanRanges_some hscan with rfl | ⟨i, hi, rfl, hb⟩
        · exact Or.inl rfl
        · exact Or.inr ⟨0, page, i, rfl, rfl, List.mem_range.1 hi, hb⟩
      · exact Or.inr ⟨j + 1, p, i, hp, by rw [Nat.add_right_comm k 1 j, Nat.add_assoc], hi, hb⟩
    · rcases ht with rfl | ⟨j, p, hp, rfl, hroom⟩
      · split_ifs with hfirst
        · exact Or.inr ⟨0, page, rfl, rfl, hfirst.2.2⟩
        · exact Or.inl rfl
      · exact Or.inr ⟨j + 1, p, hp, by rw [Nat.add_right_comm k 1 j, Nat.add_assoc], hroom⟩

theorem locateIn_eq_none : locateIn base page is = none ↔
    ∀ i ∈ is, (page.ranges i).base ≠ base := by
  induction is with
  | nil => simp [locateIn]
  | cons i is ih =>
    simp only [locateIn]
    split_ifs with hb
    · simp [hb]
    · rw [ih]
      simp [hb]

theorem locateIn_some (h : locateIn base page is = some i) : i ∈ is ∧
    (page.ranges i).base = base := by
  induction is with
  | nil => simp [locateIn] at h
  | cons j is ih =>
    simp only [locateIn] at h
    split_ifs at h with hb
    · obtain rfl := Option.some.inj h
      exact ⟨List.mem_cons_self, hb⟩
    · obtain ⟨hi, hb⟩ := ih h
      exact ⟨List.mem_cons_of_mem _ hi, hb⟩

theorem locate_eq_none : locate base k pages = none ↔
    ∀ page ∈ pages, ∀ i < page.highWater, (page.ranges i).base ≠ base := by
  induction pages generalizing k with
  | nil => simp [locate]
  | cons page pages ih =>
    simp only [locate, List.mem_cons, forall_eq_or_imp]
    cases hin : locateIn base page (List.range page.highWater) with
    | none =>
      simp only [locateIn_eq_none, List.mem_range] at hin
      simp only [ih]
      exact (and_iff_right hin).symm
    | some i =>
      obtain ⟨hi, hb⟩ := locateIn_some hin
      simp only [reduceCtorEq, false_iff, not_and]
      intro hall
      exact absurd hb (hall i (List.mem_range.1 hi))

theorem locate_some {k' : ℕ} (h : locate base k pages = some (k', i)) :
    ∃ j p, k' = k + j ∧ pages[j]? = some p ∧ i < p.highWater ∧ (p.ranges i).base = base := by
  induction pages generalizing k with
  | nil => simp [locate] at h
  | cons page pages ih =>
    simp only [locate] at h
    cases hin : locateIn base page (List.range page.highWater) with
    | none =>
      rw [hin] at h
      obtain ⟨j, p, rfl, hp, hi, hb⟩ := ih h
      exact ⟨j + 1, p, by omega, hp, hi, hb⟩
    | some i' =>
      rw [hin] at h
      simp only [Option.some.injEq, Prod.mk.injEq] at h
      obtain ⟨rfl, rfl⟩ := h
      obtain ⟨hi, hb⟩ := locateIn_some hin
      exact ⟨0, page, rfl, rfl, List.mem_range.1 hi, hb⟩

end Loops

/-! ## One page of many -/

theorem modify_split {pages : List Page} {k : ℕ} {page : Page} (h : pages[k]? = some page) :
    ∃ l₁ l₂, pages = l₁ ++ page :: l₂ ∧ ∀ f, pages.modify k f = l₁ ++ f page :: l₂ := by
  induction pages generalizing k with
  | nil => simp at h
  | cons q pages ih =>
    cases k with
    | zero =>
      obtain rfl : q = page := by simpa using h
      exact ⟨[], pages, rfl, fun f => rfl⟩
    | succ k =>
      obtain ⟨l₁, l₂, rfl, hf⟩ := ih (by simpa using h)
      exact ⟨q :: l₁, l₂, rfl, fun f => by rw [List.modify_succ_cons, hf, List.cons_append]⟩

end AbcMalloc.External
