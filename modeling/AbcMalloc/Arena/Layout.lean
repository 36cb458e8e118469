import AbcMalloc.Arena.Presence
import AbcMalloc.Arena.Routes

/-! Where the sheets of an arena lie, whatever its clients do: calls keep the sheets apart and
build new ones only on the mappings that they are given. Nothing here assumes that frees name
blocks in use or that clients write inside their blocks. -/
namespace AbcMalloc.Arena
open Function Foundation

/-! ## One tier -/

namespace Tier
variable {σ : Type*} {T : Params σ} {t t' : Tier σ} {e : Entry σ} {pos p sz : ℕ} {c : Chunk}
  {temporal ok : Bool} {cfg : Config}

/-- Requests and frees leave the chunk of a sheet alone. -/
theorem frames_setSheet_of (hi : t.idx[pos]? = some e) {s : Sheet σ} (hmem : s.mem = e.sheet.mem)
    (hguard : s.guard = e.sheet.guard) : (t.setSheet pos s).frames = t.frames := by
  have hs : s = { e.sheet with book := s.book } := by
    obtain ⟨mem, guard, book⟩ := s
    simp only at hmem hguard
    rw [hmem, hguard]
  rw [hs]
  exact frames_setSheet hi s.book

theorem bucketInsert_frames (hrun : bucketInsert T temporal t sz = .ok (c, t')) :
    t'.frames = t.frames := by
  refine bucketInsert_invariant (I := fun x => x.frames = t.frames)
    (fun {x x' pos e c} h hpos hat => ?_) rfl hrun
  unfold insertAt at hat
  cases hm : e.sheet.mark T temporal sz with
  | error y =>
    rw [hm] at hat
    exact absurd hat (by simp [bind, Except.bind])
  | ok r =>
    have hsame : r.2.mem = e.sheet.mem ∧ r.2.guard = e.sheet.guard := by
      unfold Sheet.mark at hm
      split at hm
      · obtain rfl := Except.ok.inj hm
        exact ⟨rfl, rfl⟩
      · split at hm
        · exact absurd hm (by simp)
        · obtain rfl := Except.ok.inj hm
          exact ⟨rfl, rfl⟩
    simp only [hm, bind, Except.bind, Except.ok.injEq, Prod.mk.injEq] at hat
    obtain ⟨-, rfl⟩ := hat
    rw [← h, ← frames_setSheet_of hpos hsame.1 hsame.2]
    split_ifs <;> rfl

theorem cachePopOrInsert_frames (hrun : cachePopOrInsert T cfg t sz = .ok (c, t')) :
    t'.frames = t.frames := by
  unfold cachePopOrInsert at hrun
  split at hrun
  · simp only [Except.ok.injEq, Prod.mk.injEq] at hrun
    rw [← hrun.2]
    rfl
  · exact bucketInsert_frames hrun

theorem unregister_frames (t : Tier σ) (pos : ℕ) : (t.unregister T pos).frames.Sublist t.frames :=
  (List.eraseIdx_sublist _ _).map _

theorem sweepBelow_frames : ∀ (n : ℕ) (t : Tier σ), (sweepBelow T n t).frames.Sublist t.frames := by
  intro n
  induction n with
  | zero => exact fun t => List.Sublist.refl _
  | succ n ih =>
    intro t
    simp only [sweepBelow]
    refine (ih _).trans ?_
    split_ifs
    · exact unregister_frames t n
    · exact List.Sublist.refl _

theorem tombstoneAccounting_frames (t : Tier σ) (pos : ℕ) :
    (t.tombstoneAccounting T pos).frames.Sublist t.frames := by
  simp only [tombstoneAccounting]
  split_ifs
  · exact unregister_frames t pos
  · exact sweepBelow_frames _ _
  · exact List.Sublist.refl _

theorem tryReclaimEmpty_frames (t : Tier σ) (pos : ℕ) :
    (t.tryReclaimEmpty T pos).frames.Sublist t.frames := by
  unfold tryReclaimEmpty
  split_ifs
  · exact unregister_frames t pos
  · exact List.Sublist.refl _

theorem removeImpl_frames {force sized : Bool}
    (hrun : t.removeImpl T cfg force sized pos p = .ok (ok, t')) : t'.frames.Sublist t.frames := by
  obtain ⟨x, r, hx, hr, ht'⟩ := removeImpl_outcome hrun
  have hsame : r.2.mem = x.sheet.mem ∧ r.2.guard = x.sheet.guard := by
    unfold Sheet.tryRemove at hr
    split at hr
    · exact absurd hr (by simp)
    · obtain rfl := Except.ok.inj hr
      exact ⟨rfl, rfl⟩
  have hset : (t.setSheet pos r.2).frames = t.frames := frames_setSheet_of hx hsame.1 hsame.2
  rcases ht' with rfl | rfl | rfl
  · rw [← hset]
    exact tombstoneAccounting_frames _ pos
  · rw [← hset]
    exact tryReclaimEmpty_frames _ pos
  · rw [hset]

theorem removeAt_frames (hrun : t.removeAt T cfg pos p = .ok (ok, t')) :
    t'.frames.Sublist t.frames := by
  rcases removeAt_outcome hrun with rfl | ⟨e, m, d, -, -, -, rfl⟩ | ⟨-, hrun⟩
  · exact List.Sublist.refl _
  · exact List.Sublist.refl _
  · exact removeImpl_frames hrun

theorem cachePushOrRemove_frames (hrun : t.cachePushOrRemove T cfg pos c = .ok (ok, t')) :
    t'.frames.Sublist t.frames := by
  rcases cachePushOrRemove_outcome hrun with rfl | ⟨e, m, d, -, -, -, rfl⟩ | ⟨-, hrun⟩
  · exact List.Sublist.refl _
  · exact List.Sublist.refl _
  · exact removeImpl_frames hrun

end Tier

instance : Fintype TierId := ⟨⟨TierId.all, by decide⟩, TierId.mem_all⟩

/-! ## Layouts -/

/-- The sheets of an arena lie apart, and all of them in memory that `Of` admits; so do the
mappings that are still to come. -/
structure Layout (Of : Chunk → Prop) (gs : List Grant) (a : Tiers) : Prop where
  good : ∀ t, ∀ f ∈ (a t).frames, f.Good
  sorted : ∀ t, (a t).frames.Pairwise fun f g => f.stop ≤ g.lo
  apart : ∀ {t s}, t ≠ s → ∀ f ∈ (a t).frames, ∀ g ∈ (a s).frames, f.stop ≤ g.lo ∨ g.stop ≤ f.lo
  of : ∀ t, ∀ f ∈ (a t).frames, Of f.mem
  grants : ∀ g ∈ gs, g.Valid ∧ Of g.chunk ∧ ∀ t, ∀ f ∈ (a t).frames, Apart g.chunk f.mem
  pairwise : gs.Pairwise fun g g' => Apart g.chunk g'.chunk

def Shrinks (a a' : Tiers) : Prop := ∀ t, (a' t).frames.Sublist (a t).frames

section Arenas
variable {cfg : Config} {a a' a'' : Tiers} {Of : Chunk → Prop} {gs : List Grant} {g : Grant}
  {t : TierId} {sz p : ℕ}

theorem Shrinks.refl (a : Tiers) : Shrinks a a := fun _ => List.Sublist.refl _

theorem Shrinks.trans (h : Shrinks a a') (h' : Shrinks a' a'') : Shrinks a a'' := fun t =>
  (h' t).trans (h t)

theorem Shrinks.update {x : Tier t.Heap} (hx : x.frames.Sublist (a t).frames) :
    Shrinks a (update a t x) := by
  intro s
  by_cases hs : s = t
  · subst hs
    rwa [update_self]
  · rw [update_of_ne hs]

theorem Shrinks.onTier {α : Type} {f : Tier t.Heap → Except Halt (α × Tier t.Heap)} {r : α}
    (hf : ∀ {x}, f (a t) = .ok (r, x) → x.frames.Sublist (a t).frames)
    (hrun : onTier a t f = .ok (r, a')) : Shrinks a a' := by
  obtain ⟨x, hx, rfl⟩ := onTier_split hrun
  exact .update (hf hx)

theorem vmapAlloc_shrinks {c : Chunk} (hrun : vmapAlloc cfg a sz = .ok (c, a')) : Shrinks a a' :=
  .onTier (fun hx => (Tier.cachePopOrInsert_frames hx).symm ▸ List.Sublist.refl _) hrun

theorem vmapLaunder_shrinks {c : Chunk} (hrun : vmapLaunder a sz = .ok (c, a')) : Shrinks a a' :=
  .onTier (fun hx => (Tier.bucketInsert_frames hx).symm ▸ List.Sublist.refl _) hrun

theorem failState_shrinks {ok : Bool} (hrun : failState cfg a = .ok (ok, a')) : Shrinks a a' := by
  unfold failState at hrun
  split_ifs at hrun
  simp only [Except.ok.injEq, Prod.mk.injEq] at hrun
  rw [← hrun.2]
  exact .refl a

theorem pop_shrinks {len : Option ℕ} {intact ok : Bool}
    (hrun : pop cfg a p len intact = .ok (ok, a')) :
    Shrinks a a' := by
  unfold pop popWith vmapRemove at hrun
  split_ifs at hrun
  · simp only [Except.ok.injEq, Prod.mk.injEq] at hrun
    rw [← hrun.2]
    exact .refl a
  · exact failState_shrinks hrun
  · split at hrun
    · simp only [Except.ok.injEq, Prod.mk.injEq] at hrun
      rw [← hrun.2]
      exact .refl a
    · next t pos hd =>
      split at hrun
      · exact failState_shrinks hrun
      · refine .onTier (fun {x} hx => ?_) hrun
        cases len with
        | none => exact Tier.removeAt_frames hx
        | some n => exact Tier.cachePushOrRemove_frames hx

theorem tsPop_shrinks {len : Option ℕ} {intact ok : Bool}
    (hrun : tsPop cfg a p len intact = .ok (ok, a')) : Shrinks a a' := by
  unfold tsPop tsPopWith vmapTombstone at hrun
  split_ifs at hrun
  · simp only [Except.ok.injEq, Prod.mk.injEq] at hrun
    rw [← hrun.2]
    exact .refl a
  · exact failState_shrinks hrun
  · split at hrun
    · simp only [Except.ok.injEq, Prod.mk.injEq] at hrun
      rw [← hrun.2]
      exact .refl a
    · next t pos hd =>
      split_ifs at hrun
      · exact failState_shrinks hrun
      · exact .onTier Tier.removeImpl_frames hrun

theorem store_shrinks (cfg : Config) (a : Tiers) (p i : ℕ) (v : Cell) :
    Shrinks a (store cfg a p i v) := by
  unfold store
  split
  · exact .refl a
  · next t pos hd =>
    -- a write changes the list of one sheet and no entry of the index
    have hframes : Tier.frames { a t with idx := (a t).idx.modify pos fun e =>
        { e with sheet := { e.sheet with
            book := t.params.book.store e.sheet.book (blockPtr cfg t p + 32 * i) v } } } =
        (a t).frames := by
      unfold Tier.frames
      apply List.ext_getElem?
      intro j
      rw [List.getElem?_map, List.getElem?_map, List.getElem?_modify]
      cases (a t).idx[j]? with
      | none => rfl
      | some x =>
        simp only [Option.map_eq_map, Option.map_some]
        split_ifs <;> rfl
    apply Shrinks.update
    rw [hframes]

theorem copyCells_shrinks (cfg : Config) (a : Tiers) (p : ℕ) (data : ℕ → Cell) :
    ∀ n, Shrinks a (copyCells cfg p data n a) := by
  intro n
  induction n with
  | zero => exact .refl a
  | succ n ih => exact ih.trans (store_shrinks cfg _ p n (data n))

theorem freeze_shrinks (a : Tiers) (p : ℕ) : Shrinks a (freeze a p) := by
  unfold freeze
  split
  · exact .refl a
  · exact .update (List.Sublist.refl _)

namespace Layout

theorem shrink (h : Layout Of gs a) (hs : Shrinks a a') : Layout Of gs a' where
  good t f hf := h.good t f ((hs t).subset hf)
  sorted t := (h.sorted t).sublist (hs t)
  apart hts f hf g hg := h.apart hts f ((hs _).subset hf) g ((hs _).subset hg)
  of t f hf := h.of t f ((hs t).subset hf)
  grants g hg := by
    obtain ⟨hv, ho, ha⟩ := h.grants g hg
    exact ⟨hv, ho, fun t f hf => ha t f ((hs t).subset hf)⟩
  pairwise := h.pairwise

theorem tail (h : Layout Of gs a) : Layout Of gs.tail a where
  good := h.good
  sorted := h.sorted
  apart := h.apart
  of := h.of
  grants g hg := h.grants g (List.mem_of_mem_tail hg)
  pairwise := h.pairwise.sublist (List.tail_sublist gs)

theorem addSheet (h : Layout Of (g :: gs) a) {head : Bool} {guard : ℕ} (hguard : guard ≤ 4096)
    {x : Tier t.Heap} (hx : (a t).addSheet t.params head guard g.mem g.tags g.chunk = some x) :
    Layout Of gs (update a t x) := by
  obtain ⟨⟨hpos, hlen, htop⟩, hof, hfresh⟩ := h.grants g List.mem_cons_self
  obtain ⟨l₁, l₂, hold, hnew, hlow, hhigh⟩ := Tier.frames_addSheet hx
  have hgood : (newFrame g.chunk head guard).Good :=
    newFrame_good head hpos htop (by omega)
  have hframes : ∀ s, ∀ f ∈ (update a t x s).frames,
      (s = t ∧ f = newFrame g.chunk head guard) ∨ f ∈ (a s).frames := by
    intro s f hf
    by_cases hs : s = t
    · subst hs
      rw [update_self, hnew] at hf
      rw [hold]
      simp only [List.mem_append, List.mem_cons] at hf ⊢
      tauto
    · rw [update_of_ne hs] at hf
      exact Or.inr hf
  have hapart : ∀ s, ∀ f ∈ (a s).frames, g.chunk.ptr + g.chunk.len ≤ f.lo ∨
    f.stop ≤ g.chunk.ptr := by
    intro s f hf
    have hptr := (h.good s f hf).ptr
    rcases hfresh s f hf with hf | hf
    · left
      rwa [← hptr]
    · exact Or.inr hf
  refine ⟨?_, ?_, ?_, ?_, ?_, ?_⟩
  · intro s f hf
    rcases hframes s f hf with ⟨rfl, rfl⟩ | hf
    · exact hgood
    · exact h.good s f hf
  · intro s
    by_cases hs : s = t
    · subst hs
      rw [update_self, hnew]
      exact Frame.pairwise_insert hgood (hold ▸ h.good s) (hold ▸ h.sorted s) hlow hhigh
        fun f hf => (hapart s f (hold ▸ hf)).symm
    · rw [update_of_ne hs]
      exact h.sorted s
  · intro s r hsr f hf f' hf'
    rcases hframes s f hf with ⟨hs, rfl⟩ | hold₁
    · rcases hframes r f' hf' with ⟨hr, rfl⟩ | hold₂
      · exact absurd (hs.trans hr.symm) hsr
      · exact hapart r f' hold₂
    · rcases hframes r f' hf' with ⟨hr, rfl⟩ | hold₂
      · exact (hapart s f hold₁).symm
      · exact h.apart hsr f hold₁ f' hold₂
  · intro s f hf
    rcases hframes s f hf with ⟨rfl, rfl⟩ | hf
    · exact hof
    · exact h.of s f hf
  · intro g' hg'
    obtain ⟨hv', hof', hfresh'⟩ := h.grants g' (List.mem_cons_of_mem _ hg')
    refine ⟨hv', hof', fun s f hf => ?_⟩
    rcases hframes s f hf with ⟨rfl, rfl⟩ | hf
    · exact ((List.pairwise_cons.1 h.pairwise).1 g' hg').symm
    · exact hfresh' s f hf
  · exact (List.pairwise_cons.1 h.pairwise).2

theorem guard_le (t : TierId) : t.params.guard ≤ 4096 := by
  cases t <;> decide

theorem bufExpand (h : Layout Of gs a) {b : Bool} (hrun : bufExpand a sz gs.head? = .ok (b, a')) :
    Layout Of gs.tail a' := by
  unfold Arena.bufExpand at hrun
  cases gs with
  | nil =>
    simp only [List.head?_nil] at hrun
    split_ifs at hrun
    simp only [Except.ok.injEq, Prod.mk.injEq] at hrun
    rw [← hrun.2]
    exact h.tail
  | cons g gs =>
    simp only [List.head?_cons] at hrun
    split at hrun
    · simp only [Except.ok.injEq, Prod.mk.injEq] at hrun
      rw [← hrun.2]
      exact h.tail
    · next x hx =>
      simp only [Except.ok.injEq, Prod.mk.injEq] at hrun
      rw [← hrun.2]
      refine h.addSheet ?_ hx
      split_ifs
      · exact Nat.zero_le _
      · exact guard_le _

theorem attempt {alloc : Tiers → Except Halt (Chunk × Tiers)}
    (hal : ∀ {a a' c}, alloc a = .ok (c, a') → Shrinks a a') :
    ∀ (n : ℕ) {gs : List Grant} {a a' : Tiers} {o : Option Chunk}, Layout Of gs a →
      attempt alloc sz n gs a = .ok (o, a') → ∃ gs', Layout Of gs' a' := by
  intro n
  induction n with
  | zero =>
    intro gs a a' o h hrun
    unfold Arena.attempt at hrun
    cases hc : alloc a with
    | error x =>
      rw [hc] at hrun
      exact absurd hrun (by simp [bind, Except.bind])
    | ok r =>
      simp only [hc, bind, Except.bind] at hrun
      split_ifs at hrun
      all_goals
        simp only [Except.ok.injEq, Prod.mk.injEq] at hrun
        rw [← hrun.2]
        exact ⟨gs, h.shrink (hal hc)⟩
  | succ n ih =>
    intro gs a a' o h hrun
    unfold Arena.attempt at hrun
    cases hc : alloc a with
    | error x =>
      rw [hc] at hrun
      exact absurd hrun (by simp [bind, Except.bind])
    | ok r =>
      have h₁ := h.shrink (hal hc)
      simp only [hc, bind, Except.bind] at hrun
      split_ifs at hrun
      · simp only [Except.ok.injEq, Prod.mk.injEq] at hrun
        rw [← hrun.2]
        exact ⟨gs, h₁⟩
      · cases hexp : Arena.bufExpand r.2 sz gs.head? with
        | error x =>
          rw [hexp] at hrun
          exact absurd hrun (by simp)
        | ok q =>
          have h₂ := h₁.bufExpand hexp
          simp only [hexp] at hrun
          split_ifs at hrun
          · exact ih h₂ hrun
          · simp only [Except.ok.injEq, Prod.mk.injEq] at hrun
            rw [← hrun.2]
            exact ⟨_, h₂⟩

theorem push {o : Option Chunk} (h : Layout Of gs a) (hrun : push cfg a sz gs = .ok (o, a')) :
    ∃ gs', Layout Of gs' a' := by
  unfold Arena.push at hrun
  split_ifs at hrun
  simp only at hrun
  cases hatt : Arena.attempt (fun a => vmapAlloc cfg a (rzInflate cfg sz))
    (rzInflate cfg sz) 2 gs a with
  | error y =>
    rw [hatt] at hrun
    exact absurd hrun (by simp [bind, Except.bind])
  | ok r =>
    simp only [hatt, bind, Except.bind, Except.ok.injEq, Prod.mk.injEq] at hrun
    rw [← hrun.2]
    exact attempt vmapAlloc_shrinks 2 h hatt

theorem launder {o : Option Chunk} (h : Layout Of gs a)
    (hrun : launder cfg a sz gs = .ok (o, a')) : ∃ gs', Layout Of gs' a' := by
  unfold Arena.launder at hrun
  split_ifs at hrun
  simp only at hrun
  cases hatt : Arena.attempt (fun a => vmapLaunder a (rzInflate cfg sz))
    (rzInflate cfg sz) 2 gs a with
  | error y =>
    rw [hatt] at hrun
    exact absurd hrun (by simp [bind, Except.bind])
  | ok r =>
    simp only [hatt, bind, Except.bind, Except.ok.injEq, Prod.mk.injEq] at hrun
    rw [← hrun.2]
    exact attempt vmapLaunder_shrinks 2 h hatt

theorem resize {newSz : ℕ} {data : ℕ → Cell} {o : Option Chunk} (h : Layout Of gs a)
    (hrun : resize cfg a p newSz data gs = .ok (o, a')) : ∃ gs', Layout Of gs' a' := by
  unfold Arena.resize at hrun
  simp only at hrun
  split_ifs at hrun
  · simp only [Except.ok.injEq, Prod.mk.injEq] at hrun
    exact ⟨gs, hrun.2 ▸ h⟩
  · simp only [Except.ok.injEq, Prod.mk.injEq] at hrun
    exact ⟨gs, hrun.2 ▸ h⟩
  · simp only [Except.ok.injEq, Prod.mk.injEq] at hrun
    exact ⟨gs, hrun.2 ▸ h⟩
  · cases hp : Arena.push cfg a newSz gs with
    | error x =>
      simp only [hp, bind, Except.bind] at hrun
      exact absurd hrun (by simp)
    | ok r =>
      obtain ⟨c, a₁⟩ := r
      obtain ⟨gs₁, h₁⟩ := h.push hp
      cases c with
      | none =>
        simp only [hp, bind, Except.bind, Except.ok.injEq, Prod.mk.injEq] at hrun
        exact ⟨gs₁, hrun.2 ▸ h₁⟩
      | some c =>
        simp only [hp, bind, Except.bind] at hrun
        have h₂ := h₁.shrink (copyCells_shrinks cfg a₁ c.ptr data (sizeOfAlloc cfg a₁ c.ptr / 32))
        split at hrun
        · exact absurd hrun (by simp)
        · next r hr =>
          simp only [Except.ok.injEq, Prod.mk.injEq] at hrun
          rw [← hrun.2]
          exact ⟨gs₁, h₂.shrink (pop_shrinks hr)⟩

theorem dispatch_isSome (h : Layout Of gs a) :
    (dispatch a p).isSome = true ↔ ∃ t, ∃ f ∈ (a t).frames, f.Covers p := by
  have hfind : ∀ t, ((a t).findRange p).isSome = true ↔ ∃ f ∈ (a t).frames, f.Covers p := by
    intro t
    have hat : ∀ i < (a t).idx.length, ∃ e, (a t).idx[i]? = some e := fun i hi =>
      ⟨_, List.getElem?_eq_getElem hi⟩
    have hlt : ∀ i < (a t).idx.length, (a t).loAt i < (a t).hiAt i := by
      intro i hi
      obtain ⟨e, he⟩ := hat i hi
      rw [Tier.Inv.loAt_eq he, Tier.Inv.hiAt_eq he]
      exact (h.good t _ (Tier.mem_frames (List.mem_of_getElem? he))).lt
    have hord : ∀ i j, i < j → j < (a t).idx.length → (a t).hiAt i ≤ (a t).loAt j := by
      intro i j hij hj
      obtain ⟨e, he⟩ := hat i (by omega)
      obtain ⟨e', he'⟩ := hat j hj
      rw [Tier.Inv.hiAt_eq he, Tier.Inv.loAt_eq he']
      have hstop := List.pairwise_iff_getElem.1 (h.sorted t) i j
        (by simp only [Tier.frames, List.length_map]; omega)
        (by simp only [Tier.frames, List.length_map]; omega) hij
      simp only [Tier.frames, List.getElem_map] at hstop
      rw [← (List.getElem?_eq_some_iff.1 he).2, ← (List.getElem?_eq_some_iff.1 he').2]
      have hle := (h.good t _ (Tier.mem_frames (List.mem_of_getElem? he))).hi_le
      rw [← (List.getElem?_eq_some_iff.1 he).2] at hle
      exact le_trans hle hstop
    rw [Option.isSome_iff_exists]
    unfold Tier.findRange
    constructor
    · rintro ⟨i, hi⟩
      obtain ⟨hi, h₁, h₂⟩ := (searchInterval_eq_some hlt hord).1 hi
      obtain ⟨e, he⟩ := hat i hi
      rw [Tier.Inv.loAt_eq he] at h₁
      rw [Tier.Inv.hiAt_eq he] at h₂
      exact ⟨e.frame, Tier.mem_frames (List.mem_of_getElem? he), h₁, h₂⟩
    · rintro ⟨f, hf, hcov⟩
      obtain ⟨i, e, he, rfl⟩ := Tier.exists_entry hf
      refine ⟨i, (searchInterval_eq_some hlt hord).2 ⟨(List.getElem?_eq_some_iff.1 he).1, ?_, ?_⟩⟩
      · rw [Tier.Inv.loAt_eq he]
        exact hcov.1
      · rw [Tier.Inv.hiAt_eq he]
        exact hcov.2
  unfold dispatch
  rw [List.findSome?_isSome_iff]
  constructor
  · rintro ⟨t, -, ht⟩
    rw [Option.isSome_map] at ht
    exact ⟨t, (hfind t).1 ht⟩
  · rintro ⟨t, hf⟩
    refine ⟨t, t.mem_all, ?_⟩
    rw [Option.isSome_map]
    exact (hfind t).2 hf

end Layout

/-- Allocations, frees and writes, as opposed to giving a page back by force. -/
def Op.ordinary : Op → Bool
  | .resetPage _ => false
  | _ => true

/-- Every call keeps the layout: its new sheets lie on the mappings it was given. -/
theorem Layout.step {w w' : World} {op : Op} (h : Layout Of op.grants w.arena)
    (hop : op.ordinary = true) (hstep : w.step cfg op = .ok w') :
    ∃ gs', Layout Of gs' w'.arena := by
  cases op with
  | push sz gs =>
    obtain ⟨o, hr⟩ := World.step_push_arena hstep
    exact h.push hr
  | launder sz gs =>
    obtain ⟨o, hr⟩ := World.step_launder_arena hstep
    exact h.launder hr
  | pop p len intact =>
    obtain ⟨r, hr, rfl⟩ := World.step_pop hstep
    exact ⟨[], h.shrink (pop_shrinks hr)⟩
  | tsPop p len intact =>
    obtain ⟨r, hr, rfl⟩ := World.step_tsPop hstep
    exact ⟨[], h.shrink (tsPop_shrinks hr)⟩
  | resize p newSz data gs =>
    obtain ⟨o, hr⟩ := World.step_resize_arena hstep
    exact h.resize hr
  | freeze p =>
    obtain rfl := Except.ok.inj hstep
    exact ⟨[], h.shrink (freeze_shrinks _ p)⟩
  | resetPage p => exact absurd hop Bool.false_ne_true
  | write p i c =>
    obtain rfl := Except.ok.inj hstep
    exact ⟨[], h.shrink (store_shrinks cfg _ p i c)⟩

theorem Layout.start {g₁ g₂ g₃ : Grant} (hg : Distinct g₁ g₂ g₃)
    (hof : ∀ g ∈ [g₁, g₂, g₃], Of g.chunk) (ha : start g₁ g₂ g₃ = some a) :
    ∃ gs', Layout Of gs' a := by
  obtain ⟨⟨hv₁, hv₂, hv₃⟩, h₁₂, h₁₃, h₂₃⟩ := hg
  simp only [Arena.start, Option.bind_eq_bind, Option.bind_eq_some_iff] at ha
  obtain ⟨x, hx, y, hy, z, hz, ha⟩ := ha
  obtain rfl := Option.some.inj ha
  have h₀ : Layout Of [g₁, g₂, g₃] fun t => Tier.fresh t.params := by
    refine ⟨?_, fun t => List.Pairwise.nil, ?_, ?_, fun g hg => ⟨?_, hof g hg, ?_⟩, ?_⟩
    · exact fun t f hf => absurd hf List.not_mem_nil
    · exact fun _ f hf => absurd hf List.not_mem_nil
    · exact fun t f hf => absurd hf List.not_mem_nil
    · simp only [List.mem_cons, List.not_mem_nil, or_false] at hg
      rcases hg with rfl | rfl | rfl
      · exact hv₁
      · exact hv₂
      · exact hv₃
    · exact fun t f hf => absurd hf List.not_mem_nil
    · simp [h₁₂, h₁₃, h₂₃]
  have h₁ := h₀.addSheet (Nat.zero_le _) (t := .precise) hx
  have h₂ := h₁.addSheet (Nat.zero_le _) (t := .small) hy
  exact ⟨[], h₂.addSheet (Nat.zero_le _) (t := .medium) hz⟩

end Arenas
end AbcMalloc.Arena
