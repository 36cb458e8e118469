import AbcMalloc.Arena.Steps

/-! The operations of an arena: what `push`, `launder`, `pop`, `ts_pop`, `resize` and a write of
a client do to the active blocks and to the free caches. -/
namespace AbcMalloc.Arena
open Function Foundation

variable {cfg : Config} {a a' : Tiers} {U U' : Active} {t : TierId} {e : Entry t.Heap}
  {sz p q n i : ℕ} {k : Bool} {c : Chunk}

/-! ## Requests -/

theorem push_spec (h : Inv a U) (cfg : Config) {sz : ℕ} {gs : List Grant} (hgs : Mapped a gs) :
    Ends (push cfg a sz gs) fun r =>
      match r.1 with
      | none => Inv r.2 U ∧ SameCaches a r.2 ∧ Grows a r.2
      | some u => ∃ c U', u = rzApply cfg sz c ∧
          Given a U false (.ofSize (rzInflate cfg sz)) (rzInflate cfg sz) c r.2 U' := by
  unfold push
  split_ifs
  · exact Or.inl rfl
  · have hloop :=
      attempt_spec (U := U) (fun {a U} h => vmapAlloc_spec h cfg (rzInflate cfg sz)) 2 h hgs
    apply hloop.bind
    rintro ⟨o, a₁⟩ hr
    refine Ends.of_ok ⟨_, rfl, ?_⟩
    cases o with
    | none => exact hr
    | some c =>
      obtain ⟨U', hG⟩ := hr
      exact ⟨c, U', rfl, hG⟩

theorem launder_spec (h : Inv a U) (cfg : Config) {sz : ℕ} {gs : List Grant} (hgs : Mapped a gs) :
    Ends (launder cfg a sz gs) fun r =>
      match r.1 with
      | none => Inv r.2 U ∧ SameCaches a r.2 ∧ Grows a r.2
      | some u => ∃ c U', u = rzApply cfg sz c ∧
          Given a U true (.ofLaunder (rzInflate cfg sz)) (rzInflate cfg sz) c r.2 U' := by
  unfold launder
  split_ifs
  · exact Or.inl rfl
  · have hloop :=
      attempt_spec (U := U) (fun {a U} h => vmapLaunder_spec h (rzInflate cfg sz)) 2 h hgs
    apply hloop.bind
    rintro ⟨o, a₁⟩ hr
    refine Ends.of_ok ⟨_, rfl, ?_⟩
    cases o with
    | none => exact hr
    | some c =>
      obtain ⟨U', hG⟩ := hr
      exact ⟨c, U', rfl, hG⟩

/-! ## Frees -/

/-- The active block at `b` was freed: it is parked, or it is gone. -/
structure Freed (a : Tiers) (U : Active) (b : ℕ) (a' : Tiers) (U' : Active) : Prop where
  inv : Inv a' U'
  others : ∀ q, q ≠ b → U' q = U q
  frames : ∀ s, ∀ f ∈ (a' s).frames, f ∈ (a s).frames
  outcome : (U' = U ∧ ∀ q, Parked a' q ↔ Parked a q ∨ q = b) ∨ (U' b = none ∧ SameCaches a a')

/-- What a free of one tier means for the arena. -/
theorem Inv.frees (h : Inv a U) (he : (a t).idx[i]? = some e) (hp : e.frame.Covers p)
    {x : Tier t.Heap} (hF : Tier.Frees t.params t.Rep U U' (a t) p x) :
    Freed a U p (update a t x) U' := by
  have hmem : e.frame ∈ (a t).frames := Tier.mem_frames (List.mem_of_getElem? he)
  rcases hF with ⟨rfl, hI, m, hx⟩ | ⟨rfl, hI, hS⟩
  · have hidx : x.frames = (a t).frames := by rw [hx]; rfl
    have hcache : x.cache = (a t).cache ++ [(p, m)] := by rw [hx]
    refine ⟨?_, fun _ _ => rfl, fun s f hf => by rwa [frames_update hidx s] at hf,
      Or.inl ⟨rfl, fun q => ⟨?_, ?_⟩⟩⟩
    · exact h.set hI (fun f hf => by rwa [hidx] at hf) (fun _ hp => absurd rfl hp)
        fun f hf _ _ _ => by rwa [hidx]
    · rintro ⟨s, y, hy, rfl⟩
      by_cases hs : s = t
      · subst hs
        rw [update_self, hcache] at hy
        rcases List.mem_append.1 hy with hy | hy
        · exact Or.inl ⟨s, y, hy, rfl⟩
        · rw [List.mem_singleton.1 hy]
          exact Or.inr rfl
      · rw [update_of_ne hs] at hy
        exact Or.inl ⟨s, y, hy, rfl⟩
    · rintro (⟨s, y, hy, rfl⟩ | rfl)
      · by_cases hs : s = t
        · subst hs
          refine ⟨s, y, ?_, rfl⟩
          rw [update_self, hcache]
          exact List.mem_append_left _ hy
        · exact ⟨s, y, by rw [update_of_ne hs]; exact hy, rfl⟩
      · refine ⟨t, (q, m), ?_, rfl⟩
        rw [update_self, hcache]
        simp
  · refine ⟨?_, fun q hq => update_of_ne hq _ _, fun s f hf => ?_, Or.inr ⟨update_self _ _ _,
      sameCaches_update hS.cache⟩⟩
    swap
    · by_cases hs : s = t
      · subst hs
        rw [update_self] at hf
        exact hS.frames.subset hf
      · rwa [update_of_ne hs] at hf
    apply h.set hI fun f hf => hS.frames.subset hf
    · intro q hq
      by_cases hqp : q = p
      · subst hqp
        exact ⟨e.frame, hmem, hp⟩
      · exact absurd (update_of_ne hqp _ _) hq
    · exact hS.kept

theorem onTier_ok {α : Type} {f : Tier t.Heap → Except Halt (α × Tier t.Heap)} {r : α}
    {x : Tier t.Heap} (h : f (a t) = .ok (r, x)) : onTier a t f = .ok (r, update a t x) := by
  simp [onTier, h, bind, Except.bind]

theorem contains_eq_false (hp : ¬Parked a p) : (a t).cache.contains p = false := by
  unfold Cache.contains
  simp only [List.any_eq_false, decide_eq_true_eq]
  intro x hx hxp
  exact hp ⟨t, x, hx, hxp⟩

/-- Frees of temporal blocks that keep the cache and the rings apart. -/
def Spares (a : Tiers) (t : TierId) (len : Option ℕ) : Prop :=
  t.params.tomb = false ∧ (len.isSome = true → t.params.cacheSlots ≤ (a t).cache.length)

theorem ptr_ne_zero (h : Inv a U) (hd : dispatch a p = some (t, i)) : p ≠ 0 := by
  rintro rfl
  obtain ⟨e, he, hcov⟩ := h.dispatch_eq_some.1 hd
  have h₁ := ((h.tiers t).entry_good he).pos
  have h₂ := hcov.1
  omega

theorem popWith_eq (cfg : Config) {p : ℕ} (null : Bool) {adm : Option ℕ} (len : Option ℕ)
    (intact : Bool) (hp : p ≠ 0) (hadm : freeAdmit p adm = true) :
    popWith cfg a null adm p len intact = vmapRemove cfg a p len intact := by
  rw [popWith, if_neg hp, hadm]
  rfl

theorem tsPopWith_eq (cfg : Config) {p : ℕ} {adm : Option ℕ} (sized intact : Bool) (hp : p ≠ 0)
    (hadm : freeAdmit p adm = true) :
    tsPopWith cfg a adm p sized intact = vmapTombstone cfg a p sized intact := by
  rw [tsPopWith, if_neg hp, hadm]
  rfl

theorem vmapRemove_ok (h : Inv a U) (cfg : Config) {p : ℕ} (len : Option ℕ) (intact : Bool)
    (hd : dispatch a p = some (t, i)) (he : (a t).idx[i]? = some e)
    (hcov : e.frame.Covers (blockPtr cfg t p)) (hU : U (blockPtr cfg t p) = some (n, k))
    (hpark : ¬Parked a (blockPtr cfg t p)) (hk : k = true → Spares a t len)
    (hcan : (canaries cfg t && !intact) = false) :
    ∃ a' U', vmapRemove cfg a p len intact = .ok (true, a') ∧
      Freed a U (blockPtr cfg t p) a' U' := by
  have hc := contains_eq_false (t := t) hpark
  unfold vmapRemove
  rw [hd]
  simp only [hcan, Bool.false_eq_true, if_false]
  cases len with
  | none =>
    obtain ⟨x, U', hrun, hF⟩ := Tier.removeAt_spec t.refines (h.tiers t) cfg he hcov hU
      (fun hkt => (hk hkt).1) hc
    exact ⟨update a t x, U', onTier_ok hrun, h.frees he hcov hF⟩
  | some m =>
    obtain ⟨x, U', hrun, hF⟩ := Tier.cachePushOrRemove_spec t.refines (h.tiers t) cfg he hcov hU
      (fun hkt => ⟨(hk hkt).1, (hk hkt).2 rfl⟩) hc
      (if canaries cfg t then (m + 32) % 2 ^ 64 else m)
    exact ⟨update a t x, U', onTier_ok hrun, h.frees he hcov hF⟩

theorem pop_ok (h : Inv a U) (cfg : Config) {p : ℕ} (len : Option ℕ) (intact : Bool)
    (hd : dispatch a p = some (t, i)) (he : (a t).idx[i]? = some e)
    (hcov : e.frame.Covers (blockPtr cfg t p)) (hU : U (blockPtr cfg t p) = some (n, k))
    (hpark : ¬Parked a (blockPtr cfg t p)) (hk : k = true → Spares a t len)
    (hadm : freeAdmit p len = true) (hcan : (canaries cfg t && !intact) = false) :
    ∃ a' U', pop cfg a p len intact = .ok (true, a') ∧ Freed a U (blockPtr cfg t p) a' U' := by
  rw [pop, popWith_eq cfg _ len intact (ptr_ne_zero h hd) hadm]
  exact vmapRemove_ok h cfg len intact hd he hcov hU hpark hk hcan

theorem failState_ends (cfg : Config) (a : Tiers) :
    Ends (failState cfg a) fun r => r.1 = false ∧ r.2 = a := by
  unfold failState
  split_ifs
  · exact Or.inl rfl
  · exact Ends.of_ok ⟨_, rfl, rfl, rfl⟩

/-- `pop` of an active block that is not parked: it is refused, or the block is freed. -/
theorem pop_spec (h : Inv a U) (cfg : Config) {p : ℕ} (len : Option ℕ) (intact : Bool)
    (hd : dispatch a p = some (t, i)) (he : (a t).idx[i]? = some e)
    (hcov : e.frame.Covers (blockPtr cfg t p)) (hU : U (blockPtr cfg t p) = some (n, k))
    (hpark : ¬Parked a (blockPtr cfg t p)) (hk : k = true → Spares a t len) :
    Ends (pop cfg a p len intact) fun r =>
      (r.1 = false ∧ r.2 = a) ∨ (r.1 = true ∧ ∃ U', Freed a U (blockPtr cfg t p) r.2 U') := by
  have hfail := (failState_ends cfg a).mono fun r hr => Or.inl (b :=
    r.1 = true ∧ ∃ U', Freed a U (blockPtr cfg t p) r.2 U') hr
  by_cases hadm : freeAdmit p len = true
  · by_cases hcan : (canaries cfg t && !intact) = true
    · unfold pop popWith vmapRemove
      rw [if_neg (ptr_ne_zero h hd), hadm, hd]
      simp only [hcan, Bool.not_true, Bool.false_eq_true, if_false, if_true]
      exact hfail
    · obtain ⟨a', U', hrun, hF⟩ := pop_ok h cfg len intact hd he hcov hU hpark hk hadm
        (Bool.not_eq_true _ ▸ hcan)
      exact Ends.of_ok ⟨_, hrun, Or.inr ⟨rfl, U', hF⟩⟩
  · unfold pop popWith vmapRemove
    rw [if_neg (ptr_ne_zero h hd)]
    simp only [hadm, Bool.not_false, if_true]
    exact hfail

/-- The tombstone of an active block that is neither parked nor temporal. -/
theorem vmapTombstone_ok (h : Inv a U) (cfg : Config) {p : ℕ} (sized intact : Bool)
    (hd : dispatch a p = some (t, i)) (he : (a t).idx[i]? = some e)
    (hcov : e.frame.Covers (blockPtr cfg t p)) (hU : U (blockPtr cfg t p) = some (n, false))
    (hpark : ¬Parked a (blockPtr cfg t p)) (hcan : (canaries cfg t && !intact) = false) :
    ∃ a' U', vmapTombstone cfg a p sized intact = .ok (true, a') ∧
      Freed a U (blockPtr cfg t p) a' U' ∧ U' (blockPtr cfg t p) = none := by
  obtain ⟨x, hrun, hI, hS⟩ := Tier.removeImpl_spec t.refines (h.tiers t) cfg true sized he
    hcov hU (by simp) (contains_eq_false hpark)
  unfold vmapTombstone
  rw [hd]
  simp only [hcan, Bool.false_eq_true, if_false]
  exact ⟨update a t x, _, onTier_ok hrun, h.frees he hcov (Or.inr ⟨rfl, hI, hS⟩),
    update_self _ _ _⟩

theorem tsPop_ok (h : Inv a U) (cfg : Config) {p : ℕ} (len : Option ℕ) (intact : Bool)
    (hd : dispatch a p = some (t, i)) (he : (a t).idx[i]? = some e)
    (hcov : e.frame.Covers (blockPtr cfg t p)) (hU : U (blockPtr cfg t p) = some (n, false))
    (hpark : ¬Parked a (blockPtr cfg t p)) (hadm : freeAdmit p len = true)
    (hcan : (canaries cfg t && !intact) = false) :
    ∃ a' U', tsPop cfg a p len intact = .ok (true, a') ∧ Freed a U (blockPtr cfg t p) a' U' ∧
      U' (blockPtr cfg t p) = none := by
  rw [tsPop, tsPopWith_eq cfg _ intact (ptr_ne_zero h hd) hadm]
  exact vmapTombstone_ok h cfg len.isSome intact hd he hcov hU hpark hcan

theorem tsPop_spec (h : Inv a U) (cfg : Config) {p : ℕ} (len : Option ℕ) (intact : Bool)
    (hd : dispatch a p = some (t, i)) (he : (a t).idx[i]? = some e)
    (hcov : e.frame.Covers (blockPtr cfg t p)) (hU : U (blockPtr cfg t p) = some (n, false))
    (hpark : ¬Parked a (blockPtr cfg t p)) :
    Ends (tsPop cfg a p len intact) fun r =>
      (r.1 = false ∧ r.2 = a) ∨ (r.1 = true ∧ ∃ U', Freed a U (blockPtr cfg t p) r.2 U' ∧
        U' (blockPtr cfg t p) = none) := by
  have hfail := (failState_ends cfg a).mono fun r hr => Or.inl (b := r.1 = true ∧
    ∃ U', Freed a U (blockPtr cfg t p) r.2 U' ∧ U' (blockPtr cfg t p) = none) hr
  by_cases hadm : freeAdmit p len = true
  · by_cases hcan : (canaries cfg t && !intact) = true
    · unfold tsPop tsPopWith vmapTombstone
      rw [if_neg (ptr_ne_zero h hd), hadm, hd]
      simp only [hcan, Bool.not_true, Bool.false_eq_true, if_false, if_true]
      exact hfail
    · obtain ⟨a', U', hrun, hF, hnone⟩ := tsPop_ok h cfg len intact hd he hcov hU hpark hadm
        (Bool.not_eq_true _ ▸ hcan)
      exact Ends.of_ok ⟨_, hrun, Or.inr ⟨rfl, U', hF, hnone⟩⟩
  · unfold tsPop tsPopWith vmapTombstone
    rw [if_neg (ptr_ne_zero h hd)]
    simp only [hadm, Bool.not_false, if_true]
    exact hfail

/-! ## Writes of a client -/

theorem modify_eq_setSheet (he : (a t).idx[i]? = some e) (f : Sheet t.Heap → Sheet t.Heap) :
    { a t with idx := (a t).idx.modify i fun e => { e with sheet := f e.sheet } } =
      (a t).setSheet i (f e.sheet) := by
  have hidx : ((a t).idx.modify i fun e => { e with sheet := f e.sheet }) =
      (a t).idx.modify i fun x => { x with sheet := f e.sheet } := by
    apply List.ext_getElem?
    intro j
    rw [List.getElem?_modify, List.getElem?_modify]
    by_cases hj : i = j
    · subst hj
      simp [he]
    · simp [hj]
  rw [hidx]
  rfl

theorem store_spec (h : Inv a U) (cfg : Config) {p : ℕ} (c : Cell) {j : ℕ}
    (hd : dispatch a p = some (t, i)) (he : (a t).idx[i]? = some e)
    (hcov : e.frame.Covers (blockPtr cfg t p)) (hU : U (blockPtr cfg t p) = some (n, k))
    (hj : 32 * j + 32 ≤ n - 32) :
    Inv (store cfg a p j c) U ∧ SameCaches a (store cfg a p j c) ∧
      ∀ s, (store cfg a p j c s).frames = (a s).frames ∧
        (store cfg a p j c s).lastHit = (a s).lastHit := by
  obtain ⟨L, hL⟩ := (h.tiers t).entry_holds he
  obtain ⟨b, f, hb, hu, -, -⟩ := hL.used t.refines hcov hU
  have hrep := t.refines.store c hL.rep (x := blockPtr cfg t p + 32 * j)
    ⟨b, n, f, j, hu, by rw [hb], hj⟩
  have hset := (h.tiers t).replace t.refines he (b := t.params.book.store e.sheet.book
    (blockPtr cfg t p + 32 * j) c) ⟨hrep, hL.balanced, hL.lo_le, hL.le_hi, hL.active, hL.ring⟩
    (fun _ _ => rfl) fun _ _ => rfl
  have hrun : store cfg a p j c = update a t ((a t).setSheet i { e.sheet with
      book := t.params.book.store e.sheet.book (blockPtr cfg t p + 32 * j) c }) := by
    unfold store
    rw [hd]
    simp only
    rw [modify_eq_setSheet he fun s => { s with
      book := t.params.book.store s.book (blockPtr cfg t p + 32 * j) c }]
  have hf :=
    Tier.frames_setSheet he (t.params.book.store e.sheet.book (blockPtr cfg t p + 32 * j) c)
  rw [hrun]
  refine ⟨h.set hset (fun f hff => by rwa [hf] at hff) (fun _ hp => absurd rfl hp)
    fun f hff _ _ _ => by rwa [hf], sameCaches_update rfl, fun s => ⟨frames_update hf s, ?_⟩⟩
  by_cases hs : s = t
  · subst hs
    rw [update_self]
    rfl
  · rw [update_of_ne hs]

/-! ## Copies -/

/-- What copying into an active block leaves as it was. -/
structure Untouched (a : Tiers) (U : Active) (a' : Tiers) : Prop where
  inv : Inv a' U
  caches : SameCaches a a'
  frames : ∀ s, (a' s).frames = (a s).frames
  lastHit : ∀ s, (a' s).lastHit = (a s).lastHit

theorem Given.untouched {a'' : Tiers} {temporal : Bool} (hg : Given a U temporal t sz c a' U')
    (hu : Untouched a' U' a'') : Given a U temporal t sz c a'' U' where
  ptr := hg.ptr
  inv := hu.inv
  active := hg.active
  others := hg.others
  before := hg.before
  parked q := by
    rw [hu.caches.parked]
    exact hg.parked q
  enough := hg.enough
  grows := hg.grows.trans (.of_frames hu.frames)
  home := by
    rcases hg.home with hp | ⟨e, he, hcov⟩
    · exact Or.inl hp
    · right
      have hf : (a' t).frames[(a' t).lastHit]? = some e.frame := by
        rw [Tier.frames, List.getElem?_map, he]
        rfl
      rw [← hu.frames, ← hu.lastHit, Tier.frames, List.getElem?_map] at hf
      obtain ⟨e', he', hee⟩ := Option.map_eq_some_iff.1 hf
      exact ⟨e', he', by rw [hee]; exact hcov⟩

theorem isCached_eq_false (hpark : ¬Parked a p) : isCached a p = false := by
  unfold isCached
  cases dispatch a p with
  | none => rfl
  | some r => exact contains_eq_false hpark

theorem canaries_eq_false (hoff : cfg.redzone = false) (t : TierId) : canaries cfg t = false := by
  simp [canaries, hoff]

theorem blockPtr_eq (hoff : cfg.redzone = false) (t : TierId) (p : ℕ) : blockPtr cfg t p = p := by
  simp [blockPtr, canaries_eq_false hoff]

end AbcMalloc.Arena
