import AbcMalloc.External.Registry

/-! The registry refines a set of disjoint intervals, call by call and over any sequence of
calls. -/
namespace AbcMalloc.External
open Function Foundation

/-! ## The abstract registry -/

/-- Disjoint ranges of addresses: a finite map from bases to lengths and provenances. -/
abbrev Ranges := IntervalSet Range.base Range.len (2 ^ 64)

def Ranges.register (S : Ranges) (x : Range) : Bool × Ranges :=
  if h : S.Admits x then (true, S.add x h) else (false, S)

def Ranges.unregister (S : Ranges) (base len : ℕ) : Bool × Ranges :=
  if ∃ x ∈ S.members, x.base = base ∧ x.len = len then
    (true, S.remove fun x => x.base = base ∧ x.len = len)
  else (false, S)

def Ranges.call (S : Ranges) : Call → Bool × Ranges
  | .register base len provenance => S.register ⟨base, len, provenance⟩
  | .unregister base len => S.unregister base len

/-! ## One call -/

/-- The registry holds the ranges of `S`, each in one entry, and its bookkeeping is right. -/
structure Rep (r : Registry) (S : Ranges) : Prop where
  pages : ∀ page ∈ r.pages, page.Ok
  nodup : r.live.Nodup
  mem : ∀ x, x ∈ r.live ↔ x ∈ S.members
  count : r.count = r.live.length

theorem rep_empty : Rep .empty .empty where
  pages := by simp [Registry.empty]
  nodup := List.nodup_nil
  mem := by simp [Registry.empty, Registry.live, IntervalSet.empty]
  count := rfl

theorem mem_live {r : Registry} {x : Range} :
    x ∈ r.live ↔ ∃ page ∈ r.pages, x.base ≠ 0 ∧ ∃ i < page.highWater, page.ranges i = x := by
  simp only [Registry.live, List.mem_flatMap, Page.live, mem_held]

/-- The range of a call passes `__external_bounds` exactly if it is proper. -/
theorem bounds_eq (base len : ℕ) (p : Provenance) :
    bounds base len = if Proper Range.base Range.len (2 ^ 64) ⟨base, len, p⟩ then
      some (base, base + len) else none := by
  have hiff : Proper Range.base Range.len (2 ^ 64) ⟨base, len, p⟩ ↔
      0 < base ∧ 0 < len ∧ base + len < 2 ^ 64 := Iff.rfl
  unfold bounds
  by_cases hp : Proper Range.base Range.len (2 ^ 64) ⟨base, len, p⟩
  · rw [if_pos hp]
    rw [hiff] at hp
    rw [if_neg (by omega), if_neg (by omega), Nat.mod_eq_of_lt (by omega)]
    exact if_pos (by omega)
  · rw [if_neg hp]
    rw [hiff] at hp
    by_cases h0 : base = 0 ∨ len = 0
    · exact if_pos h0
    · rw [if_neg h0]
      exact if_pos (by omega)

theorem overlap_eq {S : Ranges} {x y : Range} (hy : y ∈ S.members) :
    overlap x.base (x.base + x.len) y = true ↔ Meets Range.base Range.len x y := by
  obtain ⟨h₁, h₂, h₃⟩ := S.proper y hy
  unfold overlap Meets
  rw [if_neg (by omega), Nat.mod_eq_of_lt h₃, Bool.and_eq_true, decide_eq_true_eq,
    decide_eq_true_eq]

section Calls
variable {r r' : Registry} {S : Ranges} {x : Range} {pageSize : ℕ}

theorem Rep.add (hR : Rep r S) (h : S.Admits x) (hp : ∀ page ∈ r'.pages, page.Ok)
    (hperm : r'.live.Perm (x :: r.live)) (hc : r'.count = r.count + 1) : Rep r' (S.add x h) where
  pages := hp
  nodup := by
    rw [hperm.nodup_iff, List.nodup_cons, hR.mem]
    exact ⟨h.not_mem, hR.nodup⟩
  mem y := by
    rw [hperm.mem_iff, List.mem_cons, hR.mem]
    exact Finset.mem_insert.symm
  count := by rw [hc, hR.count, hperm.length_eq, List.length_cons]

theorem Rep.remove (hR : Rep r S) (hx : x ∈ r.live) (hp : ∀ page ∈ r'.pages, page.Ok)
    (hperm : r.live.Perm (x :: r'.live)) (hc : r'.count = r.count - 1) :
    Rep r' (S.remove fun y => y.base = x.base ∧ y.len = x.len) where
  pages := hp
  nodup := (List.nodup_cons.1 (hperm.nodup_iff.1 hR.nodup)).2
  mem y := by
    have hnot := (List.nodup_cons.1 (hperm.nodup_iff.1 hR.nodup)).1
    have hmem : ∀ y, y ∈ S.members ↔ y = x ∨ y ∈ r'.live := by
      intro y
      rw [← hR.mem, hperm.mem_iff, List.mem_cons]
    simp only [IntervalSet.remove, Finset.mem_filter, hmem]
    constructor
    · intro hy
      refine ⟨Or.inr hy, fun heq => hnot ?_⟩
      have hyx : y = x := S.eq_of_lo ((hmem y).2 (Or.inr hy)) ((hmem x).2 (Or.inl rfl)) heq.1
      exact hyx ▸ hy
    · rintro ⟨rfl | hy, hne⟩
      · exact absurd ⟨rfl, rfl⟩ hne
      · exact hy
  count := by
    have hlen := hperm.length_eq
    rw [List.length_cons, ← hR.count] at hlen
    omega

/-- Changing one page so that it holds one more range. -/
theorem Rep.grow (hR : Rep r S) (h : S.Admits x) {k : ℕ} {page : Page}
    (hk : r.pages[k]? = some page)
    {f : Page → Page} (hok : (f page).Ok) (hlive : (f page).live.Perm (x :: page.live)) :
    Rep ⟨r.pages.modify k f, r.count + 1⟩ (S.add x h) := by
  obtain ⟨l₁, l₂, hl, hf⟩ := modify_split hk
  refine hR.add h (fun p hp => ?_) ?_ rfl
  · have hold : ∀ q ∈ l₁ ++ page :: l₂, q.Ok := hl ▸ hR.pages
    simp only [hf, List.mem_append, List.mem_cons] at hp
    rcases hp with hp | rfl | hp
    · exact hold p (by simp [hp])
    · exact hok
    · exact hold p (by simp [hp])
  · unfold Registry.live
    rw [hf, hl, List.flatMap_append, List.flatMap_append, List.flatMap_cons, List.flatMap_cons]
    exact ((hlive.append_right _).append_left _).trans List.perm_middle

theorem Rep.shrink (hR : Rep r S) {k : ℕ} {page : Page} (hk : r.pages[k]? = some page)
    {f : Page → Page} (hok : (f page).Ok) (hlive : page.live.Perm (x :: (f page).live)) :
    Rep ⟨r.pages.modify k f, r.count - 1⟩
      (S.remove fun y => y.base = x.base ∧ y.len = x.len) := by
  obtain ⟨l₁, l₂, hl, hf⟩ := modify_split hk
  have hperm : r.live.Perm (x :: Registry.live ⟨r.pages.modify k f, r.count - 1⟩) := by
    unfold Registry.live
    rw [hf, hl, List.flatMap_append, List.flatMap_append, List.flatMap_cons, List.flatMap_cons]
    exact ((hlive.append_right _).append_left _).trans List.perm_middle
  refine hR.remove (hperm.mem_iff.2 List.mem_cons_self) (fun p hp => ?_) hperm rfl
  have hold : ∀ q ∈ l₁ ++ page :: l₂, q.Ok := hl ▸ hR.pages
  simp only [hf, List.mem_append, List.mem_cons] at hp
  rcases hp with hp | rfl | hp
  · exact hold p (by simp [hp])
  · exact hok
  · exact hold p (by simp [hp])

theorem newPage_eq : newPage pageSize true = some
    { capacity := ((if pageSize < 32 + 24 then 32 + 24 else pageSize) - 32) / 24, used := 0
      highWater := 1, ranges := fun _ => .vacant } := rfl

theorem place_newPage {page : Page} (h : newPage pageSize true = some page) (hx : x.base ≠ 0) :
    (page.place 0 x).Ok ∧ (page.place 0 x).live = [x] := by
  rw [newPage_eq, Option.some.injEq] at h
  subst h
  have hlive : Page.live (Page.place
      { capacity := ((if pageSize < 32 + 24 then 32 + 24 else pageSize) - 32) / 24, used := 0
        highWater := 1, ranges := fun _ => .vacant } 0 x) = [x] := by
    show held (update (fun _ => Range.vacant) 0 x) (0 + 1) = [x]
    rw [held_succ, update_self, if_neg hx]
    rfl
  have hcap : 1 ≤ ((if pageSize < 32 + 24 then 32 + 24 else pageSize) - 32) / 24 := by
    split_ifs <;> omega
  refine ⟨⟨hcap, hcap, fun i hi => ?_, ?_⟩, hlive⟩
  · have hi : 1 ≤ i := hi
    show (update (fun _ => Range.vacant) 0 x i).base = 0
    rw [update_of_ne (by omega)]
    rfl
  · rw [hlive]
    rfl

/-- `__external_register_slow` adds a range that meets no other one. -/
theorem Rep.registerSlow (hR : Rep r S) (hp : Proper Range.base Range.len (2 ^ 64) x) :
    (registerSlow pageSize true r x x.base (x.base + x.len)).1 = (S.register x).1 ∧
      Rep (registerSlow pageSize true r x x.base (x.base + x.len)).2 (S.register x).2 := by
  have hx : x.base ≠ 0 := Nat.pos_iff_ne_zero.1 hp.1
  have hmeet : (∃ page ∈ r.pages, ∃ i < page.highWater,
      overlap x.base (x.base + x.len) (page.ranges i) = true) ↔
        ∃ y ∈ S.members, Meets Range.base Range.len x y := by
    constructor
    · rintro ⟨page, hpage, i, hi, hov⟩
      have hne : (page.ranges i).base ≠ 0 := by
        intro h0
        simp [overlap, h0] at hov
      have hy := (hR.mem _).1 (mem_live.2 ⟨page, hpage, hne, i, hi, rfl⟩)
      exact ⟨_, hy, (overlap_eq hy).1 hov⟩
    · rintro ⟨y, hy, hm⟩
      obtain ⟨page, hpage, -, i, hi, rfl⟩ := mem_live.1 ((hR.mem y).2 hy)
      exact ⟨page, hpage, i, hi, (overlap_eq hy).2 hm⟩
  unfold Ranges.register
  cases hscan : scanPages x.base (x.base + x.len) 0 r.pages none none with
  | none =>
    have hbad : ¬S.Admits x := by
      intro hadm
      obtain ⟨y, hy, hm⟩ := hmeet.1 (scanPages_eq_none.1 hscan)
      exact hadm.2 y hy hm
    rw [dif_neg hbad, External.registerSlow, hscan]
    exact ⟨rfl, hR⟩
  | some vt =>
    obtain ⟨v, t⟩ := vt
    have hadm : S.Admits x := by
      refine ⟨hp, fun y hy hm => ?_⟩
      have hnone := (scanPages_eq_none (k := 0) (v := none) (t := none)).2 (hmeet.2 ⟨y, hy, hm⟩)
      rw [hscan] at hnone
      exact absurd hnone (by simp)
    obtain ⟨hv, ht⟩ := scanPages_some hscan
    rw [dif_pos hadm, External.registerSlow, hscan]
    rcases hv with rfl | ⟨k, page, i, hk, rfl, hi, hb⟩
    · rcases ht with rfl | ⟨k, page, hk, rfl, hroom⟩
      · have hnew : newPage pageSize true = some _ := newPage_eq
        obtain ⟨hok, hlive⟩ := place_newPage hnew hx
        refine ⟨rfl, hR.add hadm ?_ ?_ rfl⟩
        · intro p hp
          rcases List.mem_cons.1 hp with rfl | hp
          · exact hok
          · exact hR.pages p hp
        · simp only [newPage_eq, Registry.live, List.flatMap_cons, hlive]
          exact List.Perm.refl _
      · have hpage := hR.pages page (List.mem_of_getElem? hk)
        obtain ⟨hok, hlive⟩ := hpage.raise hroom
        obtain ⟨hok', hlive'⟩ := hok.place (i := page.highWater) (Nat.lt_succ_self _)
          (hpage.above _ le_rfl) hx
        rw [hlive] at hlive'
        rw [Nat.zero_add]
        exact ⟨rfl, hR.grow hadm hk hok' hlive'⟩
    · have hpage := hR.pages page (List.mem_of_getElem? hk)
      obtain ⟨hok, hlive⟩ := hpage.place hi hb hx
      rw [Nat.zero_add]
      exact ⟨rfl, hR.grow hadm hk hok hlive⟩

/-- Without ranges, any range can be added. -/
theorem Rep.reuseFirst (hR : Rep r S) {page : Page} {pages : List Page} (h0 : r.count = 0)
    (hpages : r.pages = page :: pages) (h : S.Admits x) :
    Rep ⟨{ page with ranges := update page.ranges 0 x, used := 1, highWater := 1 } :: pages, 1⟩
      (S.add x h) := by
  have hx : x.base ≠ 0 := Nat.pos_iff_ne_zero.1 h.1.1
  have hnone : r.live = [] := List.eq_nil_of_length_eq_zero (hR.count.symm.trans h0)
  have hfirst : page ∈ r.pages := by simp [hpages]
  have hvacant : ∀ i, (page.ranges i).base = 0 := by
    intro i
    by_cases hi : i < page.highWater
    · by_contra hne
      have hmem := mem_live.2 ⟨page, hfirst, hne, i, hi, rfl⟩
      rw [hnone] at hmem
      exact absurd hmem List.not_mem_nil
    · exact (hR.pages page hfirst).above i (not_lt.1 hi)
  have hrest : pages.flatMap Page.live = [] := by
    have hall : r.live = page.live ++ pages.flatMap Page.live := by
      rw [Registry.live, hpages, List.flatMap_cons]
    rw [hnone] at hall
    exact (List.append_eq_nil_iff.1 hall.symm).2
  have hlive : Page.live { page with ranges := update page.ranges 0 x, used := 1, highWater := 1 } =
      [x] := by
    show held (update page.ranges 0 x) (0 + 1) = [x]
    rw [held_succ, update_self, if_neg hx]
    rfl
  refine hR.add h (fun p hp => ?_) ?_ (by rw [h0])
  · rcases List.mem_cons.1 hp with rfl | hp
    · have hpos := (hR.pages page hfirst).pos
      refine ⟨hpos, hpos, fun i hi => ?_, ?_⟩
      · have hi : 1 ≤ i := hi
        show (update page.ranges 0 x i).base = 0
        rw [update_of_ne (by omega)]
        exact hvacant i
      · rw [hlive]
        rfl
    · exact hR.pages p (by simp [hpages, hp])
  · rw [hnone, Registry.live, List.flatMap_cons, hlive, hrest]
    exact List.Perm.refl _

/-- `register_external` adds the range if it is proper and meets no other one. -/
theorem Rep.registerExternal (hR : Rep r S) (base len : ℕ) (p : Provenance) :
    (registerExternal pageSize true r base len p).1 = (S.register ⟨base, len, p⟩).1 ∧
      Rep (registerExternal pageSize true r base len p).2 (S.register ⟨base, len, p⟩).2 := by
  unfold External.registerExternal
  rw [bounds_eq base len p]
  by_cases hp : Proper Range.base Range.len (2 ^ 64) ⟨base, len, p⟩
  · rw [if_pos hp]
    dsimp only
    split
    next page pages hc hpages =>
      have hadm : S.Admits ⟨base, len, p⟩ := by
        refine ⟨hp, fun y hy => ?_⟩
        have hnone : r.live = [] := List.eq_nil_of_length_eq_zero (hR.count.symm.trans hc)
        rw [← hR.mem, hnone] at hy
        exact absurd hy List.not_mem_nil
      rw [Ranges.register, dif_pos hadm]
      exact ⟨rfl, hR.reuseFirst hc hpages hadm⟩
    next => exact hR.registerSlow hp
  · have hbad : ¬S.Admits ⟨base, len, p⟩ := fun hadm => hp hadm.1
    rw [if_neg hp, Ranges.register, dif_neg hbad]
    exact ⟨rfl, hR⟩

/-- The entry that `locate` names holds the only range with its base. -/
theorem Rep.locate_some (hR : Rep r S) {base k i : ℕ} (hb : base ≠ 0)
    (h : locate base 0 r.pages = some (k, i)) :
    ∃ page, r.pages[k]? = some page ∧ i < page.highWater ∧ r.entry k i = page.ranges i ∧
      (page.ranges i).base = base ∧ page.ranges i ∈ S.members := by
  obtain ⟨j, page, rfl, hj, hi, hbase⟩ := External.locate_some h
  rw [Nat.zero_add]
  have hmem := mem_live.2 ⟨page, List.mem_of_getElem? hj, hbase ▸ hb, i, hi, rfl⟩
  refine ⟨page, hj, hi, ?_, hbase, (hR.mem _).1 hmem⟩
  unfold Registry.entry
  rw [hj]

theorem Rep.locate_none (hR : Rep r S) {base : ℕ} (h : locate base 0 r.pages = none) :
    ∀ x ∈ S.members, x.base ≠ base := by
  intro x hx
  obtain ⟨page, hpage, -, i, hi, rfl⟩ := mem_live.1 ((hR.mem x).2 hx)
  exact locate_eq_none.1 h page hpage i hi

theorem Rep.unregisterSlow (hR : Rep r S) {base : ℕ} (len : ℕ) (hb : base ≠ 0) :
    (unregisterSlow r base len).1 = (S.unregister base len).1 ∧
      Rep (unregisterSlow r base len).2 (S.unregister base len).2 := by
  unfold External.unregisterSlow Ranges.unregister
  cases hloc : locate base 0 r.pages with
  | none =>
    have habsent : ¬∃ x ∈ S.members, x.base = base ∧ x.len = len := by
      rintro ⟨x, hx, hxb, -⟩
      exact hR.locate_none hloc x hx hxb
    rw [if_neg habsent]
    exact ⟨rfl, hR⟩
  | some p =>
    obtain ⟨k, i⟩ := p
    obtain ⟨page, hk, hi, hentry, hbase, hmem⟩ := hR.locate_some hb hloc
    dsimp only
    rw [hentry]
    by_cases hlen : (page.ranges i).len = len
    · rw [if_neg (not_not.2 hlen), if_pos ⟨_, hmem, hbase, hlen⟩]
      obtain ⟨hok, hlive⟩ := (hR.pages page (List.mem_of_getElem? hk)).vacate hi (hbase ▸ hb)
      have hrep := hR.shrink (f := fun page => page.vacate i) hk hok hlive
      rw [hbase, hlen] at hrep
      exact ⟨rfl, hrep⟩
    · have habsent : ¬∃ x ∈ S.members, x.base = base ∧ x.len = len := by
        rintro ⟨x, hx, hxb, hxl⟩
        rw [S.eq_of_lo hx hmem (hxb.trans hbase.symm)] at hxl
        exact hlen hxl
      rw [if_pos hlen, if_neg habsent]
      exact ⟨rfl, hR⟩

/-- The path for the first entry does what the loop does. -/
theorem unregisterExternal_eq (r : Registry) {base len : ℕ} (hb : base ≠ 0) (hl : len ≠ 0) :
    unregisterExternal r base len = unregisterSlow r base len := by
  unfold unregisterExternal
  rw [if_neg (by omega)]
  obtain ⟨pages, count⟩ := r
  cases pages with
  | nil => rfl
  | cons page pages =>
    dsimp only
    by_cases hfirst : page.highWater ≠ 0 ∧ (page.ranges 0).base = base
    · have hloc : locate base 0 (page :: pages) = some (0, 0) := by
        obtain ⟨h, hh⟩ : ∃ h, page.highWater = h + 1 := ⟨page.highWater - 1, by omega⟩
        rw [locate, hh, List.range_succ_eq_map, locateIn, if_pos hfirst.2]
      have hentry : Registry.entry ⟨page :: pages, count⟩ 0 0 = page.ranges 0 := rfl
      have hlow : (if page.highWater = 1 then 0 else page.highWater) =
          if 0 + 1 = page.highWater then lowerWater (update page.ranges 0 .vacant) page.highWater
            else page.highWater := by
        by_cases h1 : page.highWater = 1
        · rw [if_pos h1, if_pos (by omega), h1]
          rfl
        · rw [if_neg h1, if_neg (by omega)]
      rw [if_pos hfirst, External.unregisterSlow, hloc]
      dsimp only
      rw [hentry, hlow]
      rfl
    · rw [if_neg hfirst]

theorem Rep.unregisterExternal (hR : Rep r S) (base len : ℕ) :
    (unregisterExternal r base len).1 = (S.unregister base len).1 ∧
      Rep (unregisterExternal r base len).2 (S.unregister base len).2 := by
  by_cases h0 : base = 0 ∨ len = 0
  · have habsent : ¬∃ x ∈ S.members, x.base = base ∧ x.len = len := by
      rintro ⟨x, hx, rfl, rfl⟩
      have hpx := S.proper x hx
      unfold Proper at hpx
      omega
    rw [External.unregisterExternal, if_pos h0, Ranges.unregister, if_neg habsent]
    exact ⟨rfl, hR⟩
  · rw [unregisterExternal_eq r (by omega) (by omega)]
    exact hR.unregisterSlow len (by omega)

/-- A call acts on the registry as on the set, with the same result. -/
theorem Rep.call (hR : Rep r S) (c : Call) :
    (r.call pageSize true c).1 = (S.call c).1 ∧ Rep (r.call pageSize true c).2 (S.call c).2 := by
  cases c with
  | register base len p => exact hR.registerExternal base len p
  | unregister base len => exact hR.unregisterExternal base len

end Calls

/-- A refused call changes nothing, whether or not the kernel grants a page. -/
theorem call_refused {r : Registry} {pageSize : ℕ} {mapped : Bool} {c : Call}
    (h : (r.call pageSize mapped c).1 = false) : (r.call pageSize mapped c).2 = r := by
  have hslow : ∀ {x : Range} {lo hi : ℕ}, (registerSlow pageSize mapped r x lo hi).1 = false →
      (registerSlow pageSize mapped r x lo hi).2 = r := by
    intro x lo hi h
    unfold registerSlow at h ⊢
    split at h
    · rfl
    · exact absurd h (by simp)
    · exact absurd h (by simp)
    · split at h
      · rfl
      · exact absurd h (by simp)
  have hunslow : ∀ {base len : ℕ}, (unregisterSlow r base len).1 = false →
      (unregisterSlow r base len).2 = r := by
    intro base len h
    unfold unregisterSlow at h ⊢
    split at h
    · rfl
    · split_ifs at h ⊢
      rfl
  cases c with
  | register base len p =>
    simp only [Registry.call, registerExternal] at h ⊢
    split at h
    · rfl
    · split at h
      · exact absurd h (by simp)
      · exact hslow h
  | unregister base len =>
    simp only [Registry.call] at h ⊢
    by_cases h0 : base = 0 ∨ len = 0
    · rw [unregisterExternal, if_pos h0]
    · rw [unregisterExternal_eq r (by omega) (by omega)] at h ⊢
      exact hunslow h

/-! ## Queries -/

section Queries
variable {r : Registry} {S : Ranges}

theorem Rep.find_eq_some (hR : Rep r S) (a : ℕ) (x : Range) :
    r.find a = some x ↔ x ∈ S.members ∧ x.base = a := by
  unfold Registry.find
  by_cases ha : a = 0
  · rw [if_pos ha]
    simp only [reduceCtorEq, false_iff, not_and]
    intro hx
    have hpx := (S.proper x hx).1
    omega
  · rw [if_neg ha]
    cases hloc : locate a 0 r.pages with
    | none =>
      simp only [Option.map_none, reduceCtorEq, false_iff, not_and]
      exact hR.locate_none hloc x
    | some p =>
      obtain ⟨k, i⟩ := p
      obtain ⟨page, -, -, hentry, hbase, hmem⟩ := hR.locate_some ha hloc
      simp only [Option.map_some, Option.some.injEq, hentry]
      constructor
      · rintro rfl
        exact ⟨hmem, hbase⟩
      · rintro ⟨hx, hxa⟩
        exact S.eq_of_lo hmem hx (hbase.trans hxa.symm)

theorem Rep.find_eq_none (hR : Rep r S) (a : ℕ) :
    r.find a = none ↔ ∀ x ∈ S.members, x.base ≠ a := by
  rw [Option.eq_none_iff_forall_ne_some]
  constructor
  · intro h x hx hxa
    exact h x ((hR.find_eq_some a x).2 ⟨hx, hxa⟩)
  · intro h x hx
    obtain ⟨hmem, hxa⟩ := (hR.find_eq_some a x).1 hx
    exact h x hmem hxa

theorem Rep.isPresent (hR : Rep r S) (a : ℕ) :
    externalIsPresent r a = true ↔ ∃ x ∈ S.members, x.base = a := by
  unfold externalIsPresent
  rw [Option.isSome_iff_exists]
  exact exists_congr fun x => hR.find_eq_some a x

theorem Rep.within (hR : Rep r S) (a : ℕ) :
    externalWithin r a = true ↔ ∃ x ∈ S.members, x.base ≤ a ∧ a < x.base + x.len := by
  simp only [externalWithin, Bool.and_eq_true, decide_eq_true_eq, List.any_eq_true, List.mem_range]
  constructor
  · rintro ⟨-, page, hpage, i, hi, hne, hle, hlt⟩
    exact ⟨_, (hR.mem _).1 (mem_live.2 ⟨page, hpage, hne, i, hi, rfl⟩), hle, by omega⟩
  · rintro ⟨x, hx, hle, hlt⟩
    have hpx := S.proper x hx
    obtain ⟨page, hpage, hne, i, hi, rfl⟩ := mem_live.1 ((hR.mem x).2 hx)
    exact ⟨by unfold Proper at hpx; omega, page, hpage, i, hi, hne, hle, by omega⟩

end Queries

/-! ## Sequences of calls -/

def registryAfter (pageSize : ℕ) (calls : List Call) : Registry :=
  calls.foldl (fun r c => (r.call pageSize true c).2) .empty

def rangesAfter (calls : List Call) : Ranges := calls.foldl (fun S c => (S.call c).2) .empty

theorem rep_after (pageSize : ℕ) (calls : List Call) :
    Rep (registryAfter pageSize calls) (rangesAfter calls) := by
  unfold registryAfter rangesAfter
  have hrun : ∀ (r : Registry) (S : Ranges), Rep r S →
      Rep (calls.foldl (fun r c => (r.call pageSize true c).2) r)
        (calls.foldl (fun S c => (S.call c).2) S) := by
    induction calls with
    | nil => exact fun _ _ hR => hR
    | cons c calls ih => exact fun r S hR => ih _ _ (hR.call c).2
  exact hrun _ _ rep_empty

/-- After any calls, the next one succeeds exactly if it does on the set of disjoint ranges, a
refused call changes nothing, every query answers as the set does, and the counters are the
numbers of ranges, none of which lies at a `high_water` or above. -/
theorem registry_refines (pageSize : ℕ) (calls : List Call) :
    (∀ c, ((registryAfter pageSize calls).call pageSize true c).1 = ((rangesAfter calls).call c).1 ∧
        (((rangesAfter calls).call c).1 = false →
          ((registryAfter pageSize calls).call pageSize true c).2 = registryAfter pageSize calls)) ∧
      (∀ a, (externalIsPresent (registryAfter pageSize calls) a = true ↔
          ∃ x ∈ (rangesAfter calls).members, x.base = a) ∧
        (externalWithin (registryAfter pageSize calls) a = true ↔
          ∃ x ∈ (rangesAfter calls).members, x.base ≤ a ∧ a < x.base + x.len) ∧
        (∀ x ∈ (rangesAfter calls).members, x.base = a →
          externalQuerySize (registryAfter pageSize calls) a = x.len ∧
            externalQueryProvenance (registryAfter pageSize calls) a = x.provenance) ∧
        ((∀ x ∈ (rangesAfter calls).members, x.base ≠ a) →
          externalQuerySize (registryAfter pageSize calls) a = 0 ∧
            externalQueryProvenance (registryAfter pageSize calls) a = .none)) ∧
      ((registryAfter pageSize calls).count = (rangesAfter calls).members.card ∧
        (registryAfter pageSize calls).count < 2 ^ 64) ∧
      ∀ page ∈ (registryAfter pageSize calls).pages,
        page.used = ((List.range page.capacity).filter fun i => (page.ranges i).base ≠ 0).length ∧
          ∀ i, page.highWater ≤ i → (page.ranges i).base = 0 := by
  have hR := rep_after pageSize calls
  generalize registryAfter pageSize calls = r at hR ⊢
  generalize rangesAfter calls = S at hR ⊢
  refine ⟨fun c => ?_, fun a => ⟨hR.isPresent a, hR.within a, ?_, ?_⟩, ?_, fun page hpage => ?_⟩
  · have hc : (r.call pageSize true c).1 = (S.call c).1 := (hR.call c).1
    exact ⟨hc, fun hfalse => call_refused (hc.trans hfalse)⟩
  · intro x hx hxa
    have hfind := (hR.find_eq_some a x).2 ⟨hx, hxa⟩
    rw [externalQuerySize, externalQueryProvenance, hfind]
    exact ⟨rfl, rfl⟩
  · intro hnone
    rw [externalQuerySize, externalQueryProvenance, (hR.find_eq_none a).2 hnone]
    exact ⟨rfl, rfl⟩
  · have hset : S.members = r.live.toFinset := by
      ext x
      rw [List.mem_toFinset, hR.mem]
    have hcard : r.count = S.members.card := by
      rw [hR.count, hset, List.toFinset_card_of_nodup hR.nodup]
    exact ⟨hcard, hcard ▸ IntervalSet.card_lt (by norm_num)⟩
  · have hok := hR.pages page hpage
    refine ⟨?_, hok.above⟩
    -- entries between the mark and the end of the page are vacant
    have hall : ∀ n, page.highWater ≤ n → (held page.ranges n) = page.live := by
      intro n hn
      induction n, hn using Nat.le_induction with
      | base => rfl
      | succ n hn ih => rw [held_succ, if_pos (hok.above n hn), List.append_nil, ih]
    rw [hok.used, ← hall _ hok.room, held, List.filter_map, List.length_map]
    rfl

end AbcMalloc.External
