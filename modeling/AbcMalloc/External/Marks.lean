import AbcMalloc.External.Process

/-! Marked ranges and sheets. `mark_at` looks at the first address of its range only, and at the
user tiers only: a range that begins outside of every sheet may run into one. -/
namespace AbcMalloc.External
open Function Foundation Va Owner
open Arena (Tiers TierId Config Halt Grant World Apart Layout)

variable {α : Type*} {c : VaConfig} {x y : α} {m d : Chunk}

/-! ## The owner table over many sheets -/

section Owners
variable {s : Owners α} {l : List Chunk}

theorem placed_congr {s' : Owners α} (h : s'.base = s.base) : Placed c s' m ↔ Placed c s m := by
  unfold Placed Beyond
  rw [Within.congr h, h]

theorem registerAll_base (x : α) (l : List Chunk) (s : Owners α) :
    (l.foldl (fun s m => s.sheetRegister c x m) s).base = s.base := by
  induction l generalizing s with
  | nil => rfl
  | cons m l ih => rw [List.foldl_cons, ih, sheetRegister_base]

theorem unregisterAll_base (l : List Chunk) (s : Owners α) :
    (l.foldl (fun s m => s.sheetUnregister c m) s).base = s.base := by
  induction l generalizing s with
  | nil => rfl
  | cons m l ih => rw [List.foldl_cons, ih, sheetUnregister_base]

def Clear (c : VaConfig) (s : Owners α) (d : Chunk) (l : List Chunk) : Prop :=
  ∀ m ∈ l, Placed c s m ∧ 0 < m.len ∧ Apart m d

theorem Clear.congr {s' : Owners α} (h : Clear c s d l) (hbase : s'.base = s.base) :
    Clear c s' d l := fun m hm =>
  ⟨(placed_congr hbase).2 (h m hm).1, (h m hm).2⟩

theorem names_registerAll (hl : Clear c s d l) (h : s.Names c y d) :
    (l.foldl (fun s m => s.sheetRegister c x m) s).Names c y d := by
  induction l generalizing s with
  | nil => exact h
  | cons m l ih =>
    obtain ⟨hm, hpos, hapart⟩ := hl m List.mem_cons_self
    have hrest : Clear c s d l := fun q hq => hl q (List.mem_cons_of_mem _ hq)
    exact ih (hrest.congr (sheetRegister_base c s x m)) (h.register hm hpos hapart)

theorem names_unregisterAll (hl : Clear c s d l) (h : s.Names c y d) :
    (l.foldl (fun s m => s.sheetUnregister c m) s).Names c y d := by
  induction l generalizing s with
  | nil => exact h
  | cons m l ih =>
    obtain ⟨hm, hpos, hapart⟩ := hl m List.mem_cons_self
    have hrest : Clear c s d l := fun q hq => hl q (List.mem_cons_of_mem _ hq)
    exact ih (hrest.congr (sheetUnregister_base c s m)) (h.unregister hm hpos hapart)

/-- Sheets that are registered together are all named. -/
theorem names_registerAll_self (hl : ∀ m ∈ l, Placed c s m ∧ 0 < m.len) (hp : l.Pairwise Apart)
    (hd : d ∈ l) : (l.foldl (fun s m => s.sheetRegister c x m) s).Names c x d := by
  induction l generalizing s with
  | nil => exact absurd hd List.not_mem_nil
  | cons m l ih =>
    have hbase := sheetRegister_base c s x m
    have hrest : ∀ q ∈ l, Placed c (s.sheetRegister c x m) q ∧ 0 < q.len := fun q hq =>
      ⟨(placed_congr hbase).2 (hl q (List.mem_cons_of_mem _ hq)).1,
        (hl q (List.mem_cons_of_mem _ hq)).2⟩
    obtain ⟨hfirst, hp⟩ := List.pairwise_cons.1 hp
    rcases List.mem_cons.1 hd with rfl | hd
    · rw [List.foldl_cons]
      apply names_registerAll
      · exact fun q hq => ⟨(hrest q hq).1, (hrest q hq).2, (hfirst q hq).symm⟩
      · exact .register_self (hl d List.mem_cons_self).2
    · exact ih hrest hp hd

end Owners

/-! ## Sheets of one arena -/

section Sheets
variable {a a' : Tiers} {Of : Chunk → Prop} {gs : List Grant}

theorem mem_sheetsOf : m ∈ sheetsOf a ↔ ∃ t, ∃ f ∈ (a t).frames, f.mem = m := by
  unfold sheetsOf
  rw [List.mem_flatMap]
  constructor
  · rintro ⟨t, -, hm⟩
    obtain ⟨f, hf, rfl⟩ := List.mem_map.1 hm
    exact ⟨t, f, hf, rfl⟩
  · rintro ⟨t, f, hf, rfl⟩
    exact ⟨t, t.mem_all, List.mem_map_of_mem hf⟩

theorem Layout.sheets_apart (h : Layout Of gs a) (hm : m ∈ sheetsOf a) (hd : d ∈ sheetsOf a)
    (hne : m ≠ d) : Apart m d := by
  obtain ⟨t, f, hf, rfl⟩ := mem_sheetsOf.1 hm
  obtain ⟨s, g, hg, rfl⟩ := mem_sheetsOf.1 hd
  have hfp := (h.good t f hf).ptr
  have hgp := (h.good s g hg).ptr
  have hsep : f.stop ≤ g.lo ∨ g.stop ≤ f.lo := by
    by_cases hts : t = s
    · subst hts
      obtain ⟨i, hi, rfl⟩ := List.mem_iff_getElem.1 hf
      obtain ⟨j, hj, rfl⟩ := List.mem_iff_getElem.1 hg
      have hsorted := List.pairwise_iff_getElem.1 (h.sorted t)
      rcases lt_trichotomy i j with hij | rfl | hij
      · exact Or.inl (hsorted i j hi hj hij)
      · exact absurd rfl hne
      · exact Or.inr (hsorted j i hj hi hij)
    · exact h.apart hts f hf g hg
  unfold Apart
  rw [hfp, hgp]
  unfold Arena.Frame.stop at hsep
  omega

theorem Layout.of_sheet (h : Layout Of gs a) (hm : m ∈ sheetsOf a) : Of m := by
  obtain ⟨t, f, hf, rfl⟩ := mem_sheetsOf.1 hm
  exact h.of t f hf

/-- With no mapping to come, only the sheets count. -/
theorem Layout.mono {Of' : Chunk → Prop} (h : Layout Of gs a) (hof : ∀ m, Of m → Of' m) :
    Layout Of' [] a where
  good := h.good
  sorted := h.sorted
  apart := h.apart
  of t f hf := hof _ (h.of t f hf)
  grants _ hg := absurd hg List.not_mem_nil
  pairwise := List.Pairwise.nil

end Sheets

/-! ## The invariant -/

variable {cfg : Config} {pageSize : ℕ} {w w' : Process α} {S : Ranges} {p : ℕ}

theorem mem_sheets : m ∈ w.sheets x ↔ m ∈ sheetsOf (w.arenas x).arena ∨ m ∈ w.metadata x :=
  List.mem_append

/-- Sheets and external ranges lie apart, and the owner table names the arenas of the sheets in
the reservation. -/
structure Space (c : VaConfig) (w : Process α) (S : Ranges) : Prop where
  rep : Rep w.external S
  layout : ∀ x, Layout (fun _ => True) [] (w.arenas x).arena
  placed : ∀ x, ∀ m ∈ w.sheets x, Placed c w.owners m ∧ 0 < m.len
  across : ∀ {x y}, x ≠ y → ∀ m ∈ w.sheets x, ∀ d ∈ w.sheets y, Apart m d
  inside : ∀ x, ∀ m ∈ sheetsOf (w.arenas x).arena, ∀ d ∈ w.metadata x, Apart m d
  external : ∀ x, ∀ m ∈ w.sheets x, ∀ r ∈ S.members, Apart m ⟨r.base, r.len⟩
  names : ∀ x, ∀ m ∈ w.sheets x, w.owners.Names c x m

theorem space_init (c : VaConfig) : Space c (Process.init α) .empty where
  rep := rep_empty
  layout x := by
    refine ⟨?_, fun t => List.Pairwise.nil, ?_, ?_, ?_, List.Pairwise.nil⟩
    · exact fun t f hf => absurd hf List.not_mem_nil
    · exact fun _ f hf => absurd hf List.not_mem_nil
    · exact fun t f hf => absurd hf List.not_mem_nil
    · exact fun g hg => absurd hg List.not_mem_nil
  placed x m hm := absurd hm List.not_mem_nil
  across _ m hm := absurd hm List.not_mem_nil
  inside x m hm := absurd hm List.not_mem_nil
  external x m hm := absurd hm List.not_mem_nil
  names x m hm := absurd hm List.not_mem_nil

namespace Space

theorem withExternal {r : Registry} {S' : Ranges} (h : Space c w S) (hrep : Rep r S')
    (hext : ∀ x, ∀ m ∈ w.sheets x, ∀ q ∈ S'.members, Apart m ⟨q.base, q.len⟩) :
    Space c { w with external := r } S' :=
  ⟨hrep, h.layout, h.placed, h.across, h.inside, hext, h.names⟩

/-- The reservation is made away from the sheets that are there already. -/
theorem reserve (h : Space c w S) {base : ℕ}
    (hout : ∀ x, ∀ m ∈ w.sheets x, m.ptr + m.len ≤ base ∨ base + c.reservation ≤ m.ptr) :
    Space c { w with owners := { w.owners with base := base } } S where
  rep := h.rep
  layout := h.layout
  placed x m hm := ⟨Or.inr (Or.inr (hout x m hm)), (h.placed x m hm).2⟩
  across := h.across
  inside := h.inside
  external := h.external
  names x m hm := by
    intro hw
    have hlen := (h.placed x m hm).2
    have hptr : base ≤ m.ptr := hw.ptr
    have htop : m.ptr + m.len ≤ base + c.reservation := hw.top
    rcases hout x m hm with h₁ | h₁ <;> omega

variable [DecidableEq α]

theorem sheets_settle (w : Process α) (x : α) (a : World) (grown granted : List Chunk) :
    (w.settle c x a grown granted).sheets x = sheetsOf a.arena ++ (w.metadata x ++ grown) := by
  show sheetsOf (update w.arenas x a x).arena ++ update w.metadata x (w.metadata x ++ grown) x = _
  rw [update_self, update_self]

theorem sheets_settle_of_ne (w : Process α) {x y : α} (hyx : y ≠ x) (a : World)
    (grown granted : List Chunk) : (w.settle c x a grown granted).sheets y = w.sheets y := by
  show sheetsOf (update w.arenas x a y).arena ++ update w.metadata x (w.metadata x ++ grown) y = _
  rw [update_of_ne hyx, update_of_ne hyx]
  rfl

theorem apart_of_pairwise {l : List Chunk} (hp : l.Pairwise Apart) (hm : m ∈ l) (hd : d ∈ l)
    (hne : m ≠ d) : Apart m d := by
  obtain ⟨i, hi, rfl⟩ := List.mem_iff_getElem.1 hm
  obtain ⟨j, hj, rfl⟩ := List.mem_iff_getElem.1 hd
  rcases lt_trichotomy i j with hij | rfl | hij
  · exact List.pairwise_iff_getElem.1 hp i j hi hj hij
  · exact absurd rfl hne
  · exact (List.pairwise_iff_getElem.1 hp j i hj hi hij).symm

theorem settle_base (w : Process α) (x : α) (a : World) (grown granted : List Chunk) :
    (w.settle c x a grown granted).owners.base = w.owners.base := by
  unfold Process.settle
  dsimp only
  rw [unregisterAll_base, registerAll_base]

section Settle
variable {a : World} {grown granted : List Chunk} {gs : List Grant}

/-- A sheet after the call was there before, or it lies on a mapping of the call. -/
theorem settle_cases (hnew : ∀ m ∈ sheetsOf a.arena, m ∈ sheetsOf (w.arenas x).arena ∨ m ∈ granted)
    {y : α} (hm : m ∈ (w.settle c x a grown granted).sheets y) :
    m ∈ w.sheets y ∨ (y = x ∧ m ∈ grown ++ granted) := by
  by_cases hyx : y = x
  · subst hyx
    rw [sheets_settle, List.mem_append, List.mem_append] at hm
    rcases hm with hm | hm | hm
    · rcases hnew m hm with hm | hm
      · exact Or.inl (mem_sheets.2 (Or.inl hm))
      · exact Or.inr ⟨rfl, List.mem_append_right _ hm⟩
    · exact Or.inl (mem_sheets.2 (Or.inr hm))
    · exact Or.inr ⟨rfl, List.mem_append_left _ hm⟩
  · rw [sheets_settle_of_ne w hyx] at hm
    exact Or.inl hm

theorem settle_inside (h : Space c w S) (hmap : w.Mapped c (grown ++ granted))
    (hnew : ∀ m ∈ sheetsOf a.arena, m ∈ sheetsOf (w.arenas x).arena ∨ m ∈ granted) {y : α}
    (hm : m ∈ sheetsOf ((w.settle c x a grown granted).arenas y).arena)
    (hd : d ∈ (w.settle c x a grown granted).metadata y) : Apart m d := by
  obtain ⟨hfresh, hpair⟩ := hmap
  replace hm : m ∈ sheetsOf (update w.arenas x a y).arena := hm
  replace hd : d ∈ update w.metadata x (w.metadata x ++ grown) y := hd
  by_cases hyx : y = x
  · subst hyx
    rw [update_self] at hm
    rw [update_self, List.mem_append] at hd
    rcases hnew m hm with hm | hm
    · rcases hd with hd | hd
      · exact h.inside y m hm d hd
      · exact ((hfresh d (List.mem_append_left _ hd)).2.2.1 y m (mem_sheets.2 (Or.inl hm))).symm
    · rcases hd with hd | hd
      · exact (hfresh m (List.mem_append_right _ hm)).2.2.1 y d (mem_sheets.2 (Or.inr hd))
      · exact ((List.pairwise_append.1 hpair).2.2 d hd m hm).symm
  · rw [update_of_ne hyx] at hm hd
    exact h.inside y m hm d hd

/-- A mapping of the call that was given back at once lies apart from the sheets that stay. -/
theorem granted_apart (hmap : w.Mapped c (grown ++ granted))
    (hnew : ∀ m ∈ sheetsOf a.arena, m ∈ sheetsOf (w.arenas x).arena ∨ m ∈ granted) {y : α}
    (hm : m ∈ granted) (hgone : m ∉ sheetsOf a.arena)
    (hd : d ∈ (w.settle c x a grown granted).sheets y) : Apart m d := by
  obtain ⟨hfresh, hpair⟩ := hmap
  have hmg : m ∈ grown ++ granted := List.mem_append_right _ hm
  rcases settle_cases hnew hd with hd' | ⟨hy, hd'⟩
  · exact (hfresh m hmg).2.2.1 y d hd'
  · by_cases hmd : m = d
    · subst hy hmd
      rw [sheets_settle, List.mem_append, List.mem_append] at hd
      rcases hd with hd | hd | hd
      · exact absurd hd hgone
      · exact (hfresh m hmg).2.2.1 y m (mem_sheets.2 (Or.inr hd))
      · exact (List.pairwise_append.1 hpair).2.2 m hd m hm
    · exact apart_of_pairwise hpair hmg hd' hmd

/-- A sheet that was given back lies apart from the sheets that stay. -/
theorem released_apart (h : Space c w S) (hmap : w.Mapped c (grown ++ granted))
    (hnew : ∀ m ∈ sheetsOf a.arena, m ∈ sheetsOf (w.arenas x).arena ∨ m ∈ granted) {y : α}
    (hm : m ∈ sheetsOf (w.arenas x).arena) (hgone : m ∉ sheetsOf a.arena)
    (hd : d ∈ (w.settle c x a grown granted).sheets y) : Apart m d := by
  have hmx : m ∈ w.sheets x := mem_sheets.2 (Or.inl hm)
  by_cases hyx : y = x
  · subst hyx
    rw [sheets_settle, List.mem_append, List.mem_append] at hd
    rcases hd with hd | hd | hd
    · rcases hnew d hd with hd' | hd'
      · exact Layout.sheets_apart (h.layout y) hm hd' fun heq => hgone (heq ▸ hd)
      · exact ((hmap.1 d (List.mem_append_right _ hd')).2.2.1 y m hmx).symm
    · exact h.inside y m hm d hd
    · exact ((hmap.1 d (List.mem_append_left _ hd)).2.2.1 y m hmx).symm
  · rw [sheets_settle_of_ne w hyx] at hd
    exact h.across (Ne.symm hyx) m hmx d hd

/-- The stores of the call leave the granules of every sheet that stays with its arena. -/
theorem settle_names (h : Space c w S) (hmap : w.Mapped c (grown ++ granted))
    (hnew : ∀ m ∈ sheetsOf a.arena, m ∈ sheetsOf (w.arenas x).arena ∨ m ∈ granted) {y : α}
    (hd : d ∈ (w.settle c x a grown granted).sheets y) :
    (w.settle c x a grown granted).owners.Names c y d := by
  obtain ⟨hfresh, hpair⟩ := hmap
  have hbuilt : ∀ m ∈ grown ++ granted, Placed c w.owners m ∧ 0 < m.len := fun m hm =>
    ⟨(hfresh m hm).2.1, by have := (hfresh m hm).1; omega⟩
  apply names_unregisterAll
  · intro m hm
    obtain ⟨hm, hgone⟩ := List.mem_filter.1 hm
    have hgone : m ∉ sheetsOf a.arena := by simpa using hgone
    rw [placed_congr (registerAll_base x _ w.owners)]
    rcases List.mem_append.1 hm with hmg | hmo
    · obtain ⟨hplaced, hlen⟩ := hbuilt m (List.mem_append_right _ hmg)
      exact ⟨hplaced, hlen, granted_apart ⟨hfresh, hpair⟩ hnew hmg hgone hd⟩
    · obtain ⟨hplaced, hlen⟩ := h.placed x m (mem_sheets.2 (Or.inl hmo))
      exact ⟨hplaced, hlen, h.released_apart ⟨hfresh, hpair⟩ hnew hmo hgone hd⟩
  · rcases settle_cases hnew hd with hd' | ⟨hy, hd'⟩
    · apply names_registerAll
      · exact fun m hm => ⟨(hbuilt m hm).1, (hbuilt m hm).2, (hfresh m hm).2.2.1 y d hd'⟩
      · exact h.names y d hd'
    · rw [hy]
      exact names_registerAll_self hbuilt hpair hd'

/-- A call that builds sheets on fresh mappings and gives back sheets of its own arena. -/
theorem settle (h : Space c w S) (hmap : w.Mapped c (grown ++ granted))
    (hL : Layout (fun m => m ∈ sheetsOf (w.arenas x).arena ∨ m ∈ granted) gs a.arena) :
    Space c (w.settle c x a grown granted) S := by
  have hfresh := hmap.1
  have hnew : ∀ m ∈ sheetsOf a.arena, m ∈ sheetsOf (w.arenas x).arena ∨ m ∈ granted :=
    fun m hm => Layout.of_sheet hL hm
  refine ⟨h.rep, ?_, ?_, ?_, fun y m hm d hd => h.settle_inside hmap hnew hm hd, ?_,
    fun y d hd => h.settle_names hmap hnew hd⟩
  · intro y
    by_cases hyx : y = x
    · subst hyx
      show Layout _ [] (update w.arenas y a y).arena
      rw [update_self]
      exact Layout.mono hL fun _ _ => trivial
    · show Layout _ [] (update w.arenas x a y).arena
      rw [update_of_ne hyx]
      exact h.layout y
  · intro y m hm
    rw [placed_congr (settle_base w x a grown granted)]
    rcases settle_cases hnew hm with hm | ⟨-, hm⟩
    · exact h.placed y m hm
    · obtain ⟨hval, hplaced, -⟩ := hfresh m hm
      exact ⟨hplaced, by omega⟩
  · intro y z hyz m hm d hd
    rcases settle_cases hnew hm with hm' | ⟨hy, hm'⟩
    · rcases settle_cases hnew hd with hd' | ⟨-, hd'⟩
      · exact h.across hyz m hm' d hd'
      · exact ((hfresh d hd').2.2.1 y m hm').symm
    · rcases settle_cases hnew hd with hd' | ⟨hz, -⟩
      · exact (hfresh m hm').2.2.1 z d hd'
      · exact absurd (hy.trans hz.symm) hyz
  · intro y m hm r hr
    rcases settle_cases hnew hm with hm | ⟨-, hm⟩
    · exact h.external y m hm r hr
    · exact (hfresh m hm).2.2.2 r ((h.rep.mem r).2 hr)

end Settle

theorem call (h : Space c w S) {x : α} {op : Arena.Op} {grown : List Chunk} {a : World}
    (hlegal : w.Legal c (.call x op grown)) (hrun : (w.arenas x).next cfg op = some a) :
    Space c (w.settle c x a grown (op.grants.map Grant.chunk)) S := by
  obtain ⟨hop, hmap⟩ := hlegal
  obtain ⟨hfresh, hpair⟩ := hmap
  have hL := h.layout x
  have hbefore : Layout (fun m => m ∈ sheetsOf (w.arenas x).arena ∨ m ∈ op.grants.map Grant.chunk)
      op.grants (w.arenas x).arena := by
    refine ⟨hL.good, hL.sorted, hL.apart, ?_, ?_, ?_⟩
    · exact fun t f hf => Or.inl (mem_sheetsOf.2 ⟨t, f, hf, rfl⟩)
    · intro g hg
      have hg' := List.mem_map_of_mem (f := Grant.chunk) hg
      obtain ⟨hval, -, hsheets, -⟩ := hfresh _ (List.mem_append_right grown hg')
      refine ⟨hval, Or.inr hg', fun t f hf => hsheets x f.mem (mem_sheets.2 (Or.inl ?_))⟩
      exact mem_sheetsOf.2 ⟨t, f, hf, rfl⟩
    · exact List.pairwise_map.1 (List.pairwise_append.1 hpair).2.1
  obtain ⟨gs, hafter⟩ := hbefore.step hop (Arena.next_eq_some.1 hrun)
  exact h.settle ⟨hfresh, hpair⟩ hafter

theorem create (h : Space c w S) {x : α} {g₁ g₂ g₃ : Grant} {grown : List Chunk} {a : Tiers}
    (hlegal : w.Legal c (.create x g₁ g₂ g₃ grown)) (hrun : Arena.start g₁ g₂ g₃ = some a) :
    Space c (w.settle c x (World.init a) grown [g₁.chunk, g₂.chunk, g₃.chunk]) S := by
  obtain ⟨-, hmap⟩ := hlegal
  have hmem : ∀ g ∈ [g₁, g₂, g₃], g.chunk ∈ grown ++ [g₁.chunk, g₂.chunk, g₃.chunk] := fun g hg =>
    List.mem_append_right _ (List.mem_map_of_mem (f := Grant.chunk) hg)
  have hvalid : ∀ g ∈ [g₁, g₂, g₃], g.Valid := fun g hg => (hmap.1 _ (hmem g hg)).1
  have hpair := (List.pairwise_append.1 hmap.2).2.1
  simp only [List.pairwise_cons, List.mem_cons, List.not_mem_nil, or_false, forall_eq_or_imp,
    forall_eq] at hpair
  have hdistinct : Arena.Distinct g₁ g₂ g₃ := by
    refine ⟨⟨hvalid g₁ ?_, hvalid g₂ ?_, hvalid g₃ ?_⟩, hpair.1.1, hpair.1.2, hpair.2.1⟩
    all_goals simp
  obtain ⟨gs, hafter⟩ : ∃ gs, Layout (fun m => m ∈ sheetsOf (w.arenas x).arena ∨
      m ∈ [g₁.chunk, g₂.chunk, g₃.chunk]) gs a :=
    Layout.start hdistinct (fun g hg => Or.inr (List.mem_map_of_mem (f := Grant.chunk) hg)) hrun
  exact h.settle hmap hafter

end Space

/-! ## Marks -/

/-- Registration succeeds for a range that meets no other one, or it changes nothing. -/
theorem Rep.registerExternal_any {r : Registry} (hR : Rep r S) (pageSize : ℕ) (mapped : Bool)
    (base len : ℕ) (prov : Provenance) :
    External.registerExternal pageSize mapped r base len prov = (false, r) ∨
      ∃ h : S.Admits ⟨base, len, prov⟩,
        (External.registerExternal pageSize mapped r base len prov).1 = true ∧
          Rep (External.registerExternal pageSize mapped r base len prov).2 (S.add _ h) := by
  have hmapped : ∀ mapped, External.registerExternal pageSize mapped r base len prov = (false, r) ∨
      External.registerExternal pageSize mapped r base len prov =
        External.registerExternal pageSize true r base len prov := by
    intro mapped
    cases mapped with
    | true => exact Or.inr rfl
    | false =>
      unfold External.registerExternal External.registerSlow
      split
      · exact Or.inl rfl
      · split
        · exact Or.inr rfl
        · split
          · exact Or.inl rfl
          · exact Or.inr rfl
          · exact Or.inr rfl
          · exact Or.inl rfl
  rcases hmapped mapped with heq | heq
  · exact Or.inl heq
  · have hok : (External.registerExternal pageSize true r base len prov).1 =
        (S.register ⟨base, len, prov⟩).1 := (hR.registerExternal base len prov).1
    have hrep : Rep (External.registerExternal pageSize true r base len prov).2
        (S.register ⟨base, len, prov⟩).2 := (hR.registerExternal base len prov).2
    rw [heq]
    by_cases hadm : S.Admits ⟨base, len, prov⟩
    · rw [Ranges.register, dif_pos hadm] at hok hrep
      exact Or.inr ⟨hadm, hok, hrep⟩
    · rw [Ranges.register, dif_neg hadm] at hok
      left
      have hsame : (External.registerExternal pageSize true r base len prov).2 = r :=
        call_refused (c := .register base len prov) hok
      exact Prod.ext hok hsame

namespace Space

section Marks
variable {me : α} {ptr size : ℕ} {mapped : Bool}

/-- An address in the index of a user tier leads to its arena. -/
theorem queryArena_eq (h : Space c w S) {t : TierId} {f : Arena.Frame}
    (hf : f ∈ ((w.arenas y).arena t).frames) (hcov : f.Covers ptr)
    (hout : w.owners.vaContains c ptr = false → w.queryArena c me ptr = y) :
    w.queryArena c me ptr = y := by
  by_cases hin : w.owners.vaContains c ptr = true
  · have hm : f.mem ∈ w.sheets y := mem_sheets.2 (Or.inl (mem_sheetsOf.2 ⟨t, f, hf, rfl⟩))
    have hgood := (h.layout y).good t f hf
    have hlo : f.mem.ptr ≤ ptr := hgood.ptr ▸ hcov.1
    have hhi : ptr < f.mem.ptr + f.mem.len := lt_of_lt_of_le hcov.2 hgood.hi_le
    have hw : Within c w.owners f.mem := by
      rcases (h.placed y f.mem hm).1 with hw | hb
      · exact hw
      · rw [hb.not_contains hlo hhi] at hin
        exact absurd hin (by decide)
    unfold Process.queryArena Owners.ownerOf
    rw [if_pos hin, h.names y f.mem hm hw ptr hlo hhi]
    rfl
  · exact hout (by simpa using hin)

/-- A range that `mark_at` accepts meets no sheet, provided that it is spotted, and no external
range. -/
theorem markAt_apart (h : Space c w S) (hs : w.Spotted c (.markAt me ptr size mapped))
    (hok : (w.markAt c pageSize mapped me ptr size).1 = some ptr) :
    (∀ x, ∀ m ∈ w.sheets x, Apart ⟨ptr, size⟩ m) ∧
      ∃ hadm : S.Admits ⟨ptr, size, .caller⟩,
        Rep (w.markAt c pageSize mapped me ptr size).2.external (S.add _ hadm) := by
  unfold Process.markAt at hok ⊢
  by_cases h0 : ptr = 0 ∨ size = 0
  · rw [if_pos h0] at hok
    exact absurd hok (by simp)
  rw [if_neg h0] at hok ⊢
  by_cases hprov : hasProvenance (w.arenas (w.queryArena c me ptr)).arena ptr = true
  · rw [if_pos hprov] at hok
    exact absurd hok (by simp)
  rw [if_neg hprov] at hok ⊢
  constructor
  · by_contra hmeets
    push Not at hmeets
    obtain ⟨x, m, hm, hmeet⟩ := hmeets
    obtain ⟨y, t, f, hf, hcov, hout⟩ := hs ⟨x, m, hm, hmeet⟩
    apply hprov
    rw [h.queryArena_eq hf hcov hout]
    unfold hasProvenance
    rw [Bool.and_eq_true, decide_eq_true_eq]
    exact ⟨by omega, (h.layout y).dispatch_isSome.2 ⟨t, f, hf, hcov⟩⟩
  · rcases h.rep.registerExternal_any pageSize mapped ptr size .caller with hno | hyes
    · rw [hno] at hok
      exact absurd hok (by simp)
    · obtain ⟨hadm, -, hrep⟩ := hyes
      exact ⟨hadm, hrep⟩

theorem markAt_refused (h : Space c w S)
    (hno : (w.markAt c pageSize mapped me ptr size).1 ≠ some ptr) :
    (w.markAt c pageSize mapped me ptr size).2 = w := by
  unfold Process.markAt at hno ⊢
  split_ifs at hno ⊢
  · rfl
  · rfl
  · rcases h.rep.registerExternal_any pageSize mapped ptr size .caller with heq | hyes
    · rw [heq]
    · obtain ⟨-, hok, -⟩ := hyes
      exact absurd (if_pos hok) hno

theorem markAt (h : Space c w S) (hs : w.Spotted c (.markAt me ptr size mapped)) :
    ∃ S', Space c (w.markAt c pageSize mapped me ptr size).2 S' := by
  by_cases hok : (w.markAt c pageSize mapped me ptr size).1 = some ptr
  · obtain ⟨hsheets, hadm, hrep⟩ := h.markAt_apart hs hok
    have hsame : (w.markAt c pageSize mapped me ptr size).2 =
        { w with external := (w.markAt c pageSize mapped me ptr size).2.external } := by
      unfold Process.markAt
      split_ifs <;> rfl
    rw [hsame]
    refine ⟨_, h.withExternal hrep fun x m hm q hq => ?_⟩
    rcases Finset.mem_insert.1 hq with rfl | hq
    · exact (hsheets x m hm).symm
    · exact h.external x m hm q hq
  · rw [h.markAt_refused hok]
    exact ⟨S, h⟩

theorem unmarkAt (h : Space c w S) (ptr size : ℕ) : ∃ S', Space c (w.unmarkAt ptr size).2 S' := by
  unfold Process.unmarkAt
  split_ifs
  · exact ⟨S, h⟩
  · exact ⟨S, h⟩
  · refine ⟨_, h.withExternal (h.rep.unregisterExternal ptr size).2 fun x m hm q hq => ?_⟩
    apply h.external x m hm q
    unfold Ranges.unregister at hq
    split_ifs at hq
    · exact Finset.mem_of_mem_filter q hq
    · exact hq

end Marks

theorem step [DecidableEq α] (h : Space c w S) {e : Event α} (hlegal : w.Legal c e)
    (hs : w.Spotted c e) (hstep : w.step c cfg pageSize e = some w') : ∃ S', Space c w' S' := by
  cases e with
  | reserve base =>
    obtain rfl := Option.some.inj hstep
    exact ⟨S, h.reserve hlegal.2.2⟩
  | create x g₁ g₂ g₃ grown =>
    rw [Process.step, Option.map_eq_some_iff] at hstep
    obtain ⟨a, ha, rfl⟩ := hstep
    exact ⟨S, h.create hlegal ha⟩
  | call x op grown =>
    rw [Process.step, Option.map_eq_some_iff] at hstep
    obtain ⟨a, ha, rfl⟩ := hstep
    exact ⟨S, h.call hlegal ha⟩
  | markAt me ptr size mapped =>
    obtain rfl := Option.some.inj hstep
    exact h.markAt hs
  | unmarkAt ptr size =>
    obtain rfl := Option.some.inj hstep
    exact h.unmarkAt ptr size

/-- No address of a sheet is external. -/
theorem not_external (h : Space c w S) (hm : m ∈ w.sheets x) (hp : m.ptr ≤ p)
    (hlt : p < m.ptr + m.len) : externalWithin w.external p = false := by
  rw [← Bool.not_eq_true, h.rep.within]
  rintro ⟨r, hr, hlo, hhi⟩
  have hapart := h.external x m hm r hr
  unfold Apart at hapart
  simp only at hapart
  omega

theorem unanswered (h : Space c w S) (hm : m ∈ w.sheets x) (hp : m.ptr ≤ p)
    (hlt : p < m.ptr + m.len) :
    externalIsPresent w.external p = false ∧ externalQuerySize w.external p = 0 := by
  have hnone : ∀ r ∈ S.members, r.base ≠ p := by
    rintro r hr rfl
    have hproper := S.proper r hr
    have hin := (h.rep.within r.base).2 ⟨r, hr, le_rfl, by unfold Proper at hproper; omega⟩
    rw [h.not_external hm hp hlt] at hin
    exact absurd hin (by decide)
  have hfind := (h.rep.find_eq_none p).2 hnone
  constructor
  · rw [externalIsPresent, hfind]
    rfl
  · rw [externalQuerySize, hfind]
    rfl

end Space

/-! ## Runs -/

def Process.Untracked (w : Process α) (ptr size : ℕ) : Prop :=
  ∀ p, ptr ≤ p → p < ptr + size →
    (∀ x, ∀ m ∈ w.sheets x, ¬(m.ptr ≤ p ∧ p < m.ptr + m.len)) ∧ externalWithin w.external p = false

/-- No address of a sheet is external, and no query of one is answered by the registry. -/
def Process.Separate (c : VaConfig) (cfg : Config) (w : Process α) : Prop :=
  ∀ x, ∀ m ∈ w.sheets x, ∀ p, m.ptr ≤ p → p < m.ptr + m.len →
    externalWithin w.external p = false ∧
    ∀ me, w.isPresent c cfg me p =
        Arena.present cfg (w.arenas (w.queryArena c me p)).arena p ∧
      w.within c me p = hasProvenance (w.arenas (w.queryArena c me p)).arena p ∧
      w.querySize c cfg me p =
        if p = 0 then 0 else Arena.sizeOfAlloc cfg (w.arenas (w.queryArena c me p)).arena p

theorem Space.separate (h : Space c w S) (cfg : Config) : w.Separate c cfg := by
  intro x m hm p hp hlt
  have hext := h.not_external hm hp hlt
  obtain ⟨hpresent, hsize⟩ := h.unanswered hm hp hlt
  refine ⟨hext, fun me => ⟨?_, ?_, ?_⟩⟩
  · rw [Process.isPresent, hpresent]
    rfl
  · rw [Process.within, hext]
    rfl
  · rw [Process.querySize, hsize]
    rfl

/-- In every run in which each marked range that meets a sheet is spotted by its first address,
marked ranges meet neither a sheet nor an external range, and the registry never answers for an
address of a sheet. -/
theorem marked_ranges_untracked [DecidableEq α] (c : VaConfig) (cfg : Config) (pageSize : ℕ)
    {events : List (Event α)} {w : Process α}
    (hrun : Run (fun w e => w.Legal c e ∧ w.Spotted c e) (Process.step c cfg pageSize)
      (Process.init α) events w) :
    w.Separate c cfg ∧ ∀ me ptr size mapped, w.Spotted c (.markAt me ptr size mapped) →
      (w.markAt c pageSize mapped me ptr size).1 = some ptr → w.Untracked ptr size := by
  have hinv : ∃ S, Space c w S := by
    refine hrun.invariant (fun w => ∃ S, Space c w S) ?_ ⟨_, space_init c⟩
    rintro w e w' ⟨S, hS⟩ ⟨hlegal, hspotted⟩ hstep
    exact hS.step hlegal hspotted hstep
  obtain ⟨S, hS⟩ := hinv
  refine ⟨hS.separate cfg, fun me ptr size mapped hspotted hok p hp hlt => ?_⟩
  obtain ⟨hsheets, ⟨-, hapart⟩, -⟩ := hS.markAt_apart hspotted hok
  constructor
  · intro x m hm hin
    have := hsheets x m hm
    unfold Apart at this
    simp only at this
    omega
  · rw [← Bool.not_eq_true, hS.rep.within]
    rintro ⟨r, hr, hlo, hhi⟩
    apply hapart r hr
    show ptr < r.base + r.len ∧ r.base < ptr + size
    omega

/-- An arena in the reservation serves a request, and ranges next to its sheets and inside of them
are marked. -/
def markedAround : List (Event Bool) :=
  [.reserve (2 ^ 40), .create false (Arena.clearGrant (2 ^ 40) (2 ^ 21))
    (Arena.clearGrant (2 ^ 40 + 2 ^ 21) (2 ^ 21)) (Arena.clearGrant (2 ^ 40 + 2 ^ 22) (2 ^ 21))
    [⟨2 ^ 40 + 2 ^ 23, 2 ^ 21⟩], .markAt true (2 ^ 40 - 4096) 4096 true,
    .call false (.push 100 []) [], .markAt true (2 ^ 40 + 64) 100 true,
    .unmarkAt (2 ^ 40 - 4096) 4096]

theorem marked_ranges_untracked_around : ∃ w : Process Bool,
    Run (fun w e => w.Legal va64 e ∧ w.Spotted va64 e) (Process.step va64 .default 4096)
      (Process.init Bool) markedAround w ∧
    w.Separate va64 .default ∧ w.Untracked (2 ^ 40 - 4096) 4096 := by
  obtain ⟨w, hrun, hw⟩ := exists_run_of_exec (fun w e => w.Legal va64 e ∧ w.Spotted va64 e)
    (Process.step va64 .default 4096) (s := Process.init Bool) (l := markedAround)
    (P := fun w => decide (w.Spotted va64 (.markAt true (2 ^ 40 - 4096) 4096 true)) &&
      (w.markAt va64 4096 true true (2 ^ 40 - 4096) 4096).1 = some (2 ^ 40 - 4096))
    (by decide +kernel)
  rw [Bool.and_eq_true, decide_eq_true_eq, decide_eq_true_eq] at hw
  obtain ⟨hseparate, hmarks⟩ := marked_ranges_untracked va64 .default 4096 hrun
  exact ⟨w, hrun, hseparate, hmarks true _ _ true hw.1 hw.2⟩

/-- A range that starts in front of a sheet and runs into it is accepted. -/
theorem marked_range_straddles : ¬∀ (c : VaConfig) (cfg : Config) (pageSize : ℕ)
    (events : List (Event Bool)) (w : Process Bool),
    Run (fun w e => w.Legal c e) (Process.step c cfg pageSize) (Process.init Bool) events w →
      w.Separate c cfg ∧ ∀ me ptr size mapped,
        (w.markAt c pageSize mapped me ptr size).1 = some ptr → w.Untracked ptr size := by
  intro hall
  obtain ⟨w, hrun, hw⟩ := exists_run_of_exec (fun w e => w.Legal va64 e)
    (Process.step va64 .default 4096) (s := Process.init Bool)
    (l := [.create false (Arena.clearGrant 65536 8192) (Arena.clearGrant 131072 8192)
      (Arena.clearGrant 262144 65536) []])
    (P := fun w => (w.markAt va64 4096 true true 65520 32).1 = some 65520 &&
      (w.sheets false).contains ⟨65536, 8192⟩)
    (by decide +kernel)
  rw [Bool.and_eq_true, decide_eq_true_eq, List.contains_iff_mem] at hw
  have huntracked := (hall va64 .default 4096 _ w hrun).2 true 65520 32 true hw.1
  exact (huntracked 65536 (by decide) (by decide)).1 false _ hw.2 ⟨le_rfl, by decide⟩

end AbcMalloc.External
