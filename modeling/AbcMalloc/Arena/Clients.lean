import AbcMalloc.Arena.World

/-! What a client holds. A live pointer names an active block that is not parked, with the
canaries around it when the tier has them; steps of a client keep this. -/
namespace AbcMalloc.Arena
open Function Foundation

def userPtr (cfg : Config) (t : TierId) (b : ℕ) : ℕ := if canaries cfg t then b + 16 else b

/-- The block `b` of the tier `t` behind a live pointer `p`. -/
structure Handle (cfg : Config) (a : Tiers) (U : Active) (p : ℕ) (h : Held) (t : TierId) (b n : ℕ) :
    Prop where
  ptr : p = userPtr cfg t b
  covered : ∃ f ∈ (a t).frames, f.Covers b
  active : U b = some (n, h.temporal)
  /-- Behind the client's bytes there is room for the trailing canary. -/
  within : p + h.len + (p - b) + 32 ≤ b + n
  out : ¬Parked a b

structure Sound (cfg : Config) (w : World) (U : Active) : Prop where
  inv : Inv w.arena U
  held : ∀ {p h}, w.live p = some h → ∃ t b n, Handle cfg w.arena U p h t b n

section Handles
variable {cfg : Config} {a a' : Tiers} {U U' : Active} {t s : TierId} {p q b b' n m sz : ℕ}
  {h h' : Held} {c : Chunk} {temporal : Bool}

@[simp] theorem blockPtr_userPtr (cfg : Config) (t : TierId) (b : ℕ) :
    blockPtr cfg t (userPtr cfg t b) = b := by
  unfold blockPtr userPtr
  split_ifs <;> omega

theorem le_userPtr (cfg : Config) (t : TierId) (b : ℕ) : b ≤ userPtr cfg t b := by
  unfold userPtr
  split_ifs <;> omega

theorem userPtr_sub (cfg : Config) (t : TierId) (b : ℕ) :
    userPtr cfg t b = b ∨ userPtr cfg t b - b = 16 := by
  unfold userPtr
  split_ifs
  · right
    omega
  · exact Or.inl rfl

/-- The frame that covers an address is unique. -/
theorem Inv.frame_unique (hI : Inv a U) {f g : Frame} (hf : f ∈ (a t).frames)
    (hg : g ∈ (a s).frames) (hfb : f.Covers b) (hgb : g.Covers b) : t = s ∧ f = g := by
  obtain rfl := hI.tier_unique hf hg hfb hgb
  obtain ⟨i, e, he, rfl⟩ := Tier.exists_entry hf
  obtain ⟨j, e', he', rfl⟩ := Tier.exists_entry hg
  obtain rfl := (hI.tiers t).unique he he' hfb hgb
  rw [he] at he'
  obtain rfl := Option.some.inj he'
  exact ⟨rfl, rfl⟩

namespace Handle

theorem blockPtr_eq (hh : Handle cfg a U p h t b n) : blockPtr cfg t p = b := by
  rw [hh.ptr, blockPtr_userPtr]

theorem frame (hI : Inv a U) (hh : Handle cfg a U p h t b n) :
    ∃ f ∈ (a t).frames, f.Covers b ∧ f.Covers p ∧ b + (n - 32) ≤ f.hi := by
  obtain ⟨f, hf, hfb⟩ := hh.covered
  obtain ⟨i, e, he, rfl⟩ := Tier.exists_entry hf
  obtain ⟨L, hL⟩ := (hI.tiers t).entry_holds he
  have hext : b + (n - 32) ≤ e.hi := (hL.extent t.refines hfb hh.active).2
  have hlt : e.lo ≤ b ∧ b < e.hi := hfb
  have hwithin := hh.within
  have hle := le_userPtr cfg t b
  refine ⟨e.frame, hf, hfb, ⟨?_, ?_⟩, hext⟩
  · show e.lo ≤ p
    rw [hh.ptr]
    omega
  · show p < e.hi
    rcases userPtr_sub cfg t b with hsub | hsub <;> rw [← hh.ptr] at hsub <;> omega

theorem dispatch (hI : Inv a U) (hh : Handle cfg a U p h t b n) :
    ∃ i e, Arena.dispatch a p = some (t, i) ∧ (a t).idx[i]? = some e ∧ e.frame.Covers b := by
  obtain ⟨f, hf, hfb, hfp, -⟩ := hh.frame hI
  obtain ⟨i, e, he, rfl⟩ := Tier.exists_entry hf
  exact ⟨i, e, hI.dispatch_eq_some.2 ⟨e, he, hfp⟩, he, hfb⟩

theorem ptr_unique (hI : Inv a U) (hh : Handle cfg a U p h t b n)
    (hh' : Handle cfg a U q h' s b m) : p = q := by
  obtain ⟨f, hf, hfb⟩ := hh.covered
  obtain ⟨g, hg, hgb⟩ := hh'.covered
  obtain ⟨rfl, -⟩ := hI.frame_unique hf hg hfb hgb
  rw [hh.ptr, hh'.ptr]

/-- What two live pointers hold does not overlap. -/
theorem apart (hI : Inv a U) (hh : Handle cfg a U p h t b n) (hh' : Handle cfg a U q h' s b' m)
    (hne : p ≠ q) : p + h.len ≤ q ∨ q + h'.len ≤ p := by
  have hbb : b ≠ b' := by
    rintro rfl
    exact hne (hh.ptr_unique hI hh')
  have h₁ := hh.within
  have h₂ := hh'.within
  have h₃ := le_userPtr cfg t b
  have h₄ := le_userPtr cfg s b'
  rw [← hh.ptr] at h₃
  rw [← hh'.ptr] at h₄
  rcases hI.blocks_apart hh.active hh'.active hbb with h₅ | h₅ <;> omega

/-- Handles survive where their block stays active, out of the cache and in its sheet. -/
theorem congr (hh : Handle cfg a U p h t b n) (hactive : U' b = U b)
    (hcov : ∃ f ∈ (a' t).frames, f.Covers b) (hpark : Parked a' b → Parked a b) :
    Handle cfg a' U' p h t b n where
  ptr := hh.ptr
  covered := hcov
  active := hactive.trans hh.active
  within := hh.within
  out := fun hb => hh.out (hpark hb)

end Handle

/-! ## Requests -/

theorem redzoned_eq (t : TierId) :
    t.params.redzoned = decide (t = .precise ∨ t = .small) := by
  cases t <;> rfl

theorem redzoned_ofSize (sz : ℕ) : (TierId.ofSize sz).params.redzoned = decide (sz < 2 ^ 12) := by
  rw [redzoned_eq, decide_eq_decide]
  unfold TierId.ofSize
  split_ifs <;> simp <;> omega

theorem redzoned_ofLaunder (sz : ℕ) :
    (TierId.ofLaunder sz).params.redzoned = decide (sz < 2 ^ 12) := by
  rw [redzoned_eq, decide_eq_decide]
  unfold TierId.ofLaunder
  split_ifs <;> simp <;> omega

theorem rzInflate_lt (cfg : Config) (sz : ℕ) :
    (cfg.redzone && decide (rzInflate cfg sz < 2 ^ 12)) = rzActive cfg sz := by
  unfold rzActive rzInflate
  cases cfg.redzone with
  | false => rfl
  | true =>
    simp only [if_true, Bool.true_and, decide_eq_decide]
    split_ifs <;> omega

theorem canaries_ofSize (cfg : Config) (sz : ℕ) :
    canaries cfg (.ofSize (rzInflate cfg sz)) = rzActive cfg sz := by
  rw [canaries, redzoned_ofSize, rzInflate_lt]

theorem canaries_ofLaunder (cfg : Config) (sz : ℕ) :
    canaries cfg (.ofLaunder (rzInflate cfg sz)) = rzActive cfg sz := by
  rw [canaries, redzoned_ofLaunder, rzInflate_lt]

theorem le_rzInflate (cfg : Config) (sz : ℕ) :
    sz + (if rzActive cfg sz then 32 else 0) ≤ rzInflate cfg sz := by
  unfold rzActive rzInflate
  cases cfg.redzone with
  | false => simp
  | true =>
    simp only [if_true, Bool.true_and, decide_eq_true_eq]
    split_ifs <;> omega

theorem rzApply_ptr (hcan : canaries cfg t = rzActive cfg sz) (c : Chunk) :
    (rzApply cfg sz c).ptr = userPtr cfg t c.ptr := by
  unfold rzApply userPtr
  rw [hcan]
  split_ifs <;> rfl

theorem Given.covered (hI : Inv a U) (hg : Given a U temporal t sz c a' U') :
    ∃ f ∈ (a' t).frames, f.Covers c.ptr := by
  rcases hg.home with ⟨x, hx, hxc⟩ | ⟨e, he, hcov⟩
  · obtain ⟨⟨f, hf, hfx⟩, -⟩ := (hI.tiers t).cached x hx
    rw [hxc] at hfx
    exact ⟨f, hg.grows t f hf, hfx⟩
  · exact ⟨e.frame, Tier.mem_frames (List.mem_of_getElem? he), hcov⟩

/-- The chunk of a served request, as its client holds it. A laundered block may be smaller than
the request, so that there is no room for canaries in general. -/
theorem Given.handle (hI : Inv a U) (hg : Given a U temporal t (rzInflate cfg sz) c a' U')
    (hcan : canaries cfg t = rzActive cfg sz) (hroom : temporal = true → rzActive cfg sz = false) :
    ∃ n, Handle cfg a' U' (rzApply cfg sz c).ptr ⟨(rzApply cfg sz c).len, temporal⟩ t c.ptr n := by
  obtain ⟨n, hn, hlen⟩ := hg.active
  refine ⟨n, rzApply_ptr hcan c, hg.covered hI, hn, ?_, fun hp => ((hg.parked _).1 hp).2 rfl⟩
  unfold rzApply
  split_ifs with hrz
  · have htf : temporal = false := by
      cases temporal with
      | false => rfl
      | true => exact absurd (hroom rfl) (by simp [hrz])
    have henough := hg.enough htf
    have hle := le_rzInflate cfg sz
    rw [if_pos hrz] at hle
    show c.ptr + 16 + sz + (c.ptr + 16 - c.ptr) + 32 ≤ c.ptr + n
    omega
  · show c.ptr + c.len + (c.ptr - c.ptr) + 32 ≤ c.ptr + n
    omega

/-- What was held stays held when a request is served. -/
theorem Given.keeps (hI : Inv a U) (hg : Given a U temporal t sz c a' U')
    (hh : Handle cfg a U q h s b n) (hne : q ≠ userPtr cfg t c.ptr) :
    Handle cfg a' U' q h s b n := by
  obtain ⟨f, hf, hfb⟩ := hh.covered
  have hbc : b ≠ c.ptr := by
    rintro rfl
    obtain ⟨g, hg', hgb⟩ := hg.covered hI
    obtain ⟨rfl, -⟩ := hg.inv.frame_unique (hg.grows s f hf) hg' hfb hgb
    exact hne hh.ptr
  exact hh.congr (hg.others b hbc) ⟨f, hg.grows s f hf, hfb⟩ fun hp => ((hg.parked b).1 hp).1

theorem Given.not_held (hg : Given a U false t sz c a' U')
    (hnew : Handle cfg a' U' p h t c.ptr n) (hI : Inv a U) (hh : Handle cfg a U q h' s b m) :
    q ≠ p := by
  rintro rfl
  obtain ⟨f, hf, -, hfq, -⟩ := hh.frame hI
  obtain ⟨g, hg', -, hgq, -⟩ := hnew.frame hg.inv
  obtain ⟨rfl, -⟩ := hg.inv.frame_unique (hg.grows s f hf) hg' hfq hgq
  have hb : b = c.ptr := by rw [← hh.blockPtr_eq, ← hnew.blockPtr_eq]
  subst hb
  rcases hg.before with hnone | ⟨hft, -⟩ | ⟨-, -, hpark⟩
  · rw [hh.active] at hnone
    exact absurd hnone (by simp)
  · exact absurd hft (by decide)
  · exact hh.out hpark

/-- What was held stays held when another block is freed. -/
theorem Freed.keeps (hI : Inv a U) (hF : Freed a U b' a' U') (hh : Handle cfg a U q h s b n)
    (hne : b ≠ b') : Handle cfg a' U' q h s b n := by
  have hact := hF.others b hne
  obtain ⟨f, hf, hfb⟩ := hh.covered
  obtain ⟨r, g, hg, hgb⟩ := hF.inv.covered (hact.trans hh.active)
  obtain ⟨rfl, rfl⟩ := hI.frame_unique hf (hF.frames r g hg) hfb hgb
  apply hh.congr hact ⟨f, hg, hfb⟩
  intro hp
  rcases hF.outcome with ⟨-, hpark⟩ | ⟨-, hsame⟩
  · exact ((hpark b).1 hp).resolve_right hne
  · exact hsame.parked.1 hp

theorem Freed.active_of (hF : Freed a U b a' U') {v : ℕ × Bool} (hq : U' q = some v) :
    U q = some v := by
  by_cases hqb : q = b
  · subst hqb
    rcases hF.outcome with ⟨hsame, -⟩ | ⟨hnone, -⟩
    · rwa [hsame] at hq
    · rw [hnone] at hq
      exact absurd hq (by simp)
  · rwa [hF.others q hqb] at hq

/-! ## Resizing -/

namespace Handle

theorem sizeOfAlloc_eq (hI : Inv a U) (hh : Handle cfg a U p h t b n) :
    sizeOfAlloc cfg a p = n - (if canaries cfg t then 64 else 32) := by
  obtain ⟨i, e, hd, he, hcov⟩ := hh.dispatch hI
  obtain ⟨-, -, hsize⟩ := (hI.tiers t).reports t.refines he hcov hh.active
  simp only [sizeOfAlloc, hd, he, hh.blockPtr_eq, hsize]

/-- The bytes that `__size_of_alloc` promises lie in the block. -/
theorem sizeOfAlloc_le (hI : Inv a U) (hh : Handle cfg a U p h t b n) :
    h.len ≤ sizeOfAlloc cfg a p ∧ b ≤ p ∧ p + sizeOfAlloc cfg a p + 32 ≤ b + n := by
  have hsize := hh.sizeOfAlloc_eq hI
  have hwithin := hh.within
  have hptr := hh.ptr
  unfold userPtr at hptr
  split_ifs at hsize hptr <;> omega

theorem not_parked (hI : Inv a U) (hh : Handle cfg a U p h t b n) : ¬Parked a p := by
  rintro ⟨s, x, hx, hxp⟩
  obtain ⟨-, m, hm, -⟩ := (hI.tiers s).cached x hx
  rw [hxp] at hm
  have hwithin := hh.within
  have hsub := userPtr_sub cfg t b
  rw [← hh.ptr] at hsub
  by_cases hpb : p = b
  · exact hh.out ⟨s, x, hx, hxp.trans hpb⟩
  · rcases hI.blocks_disjoint hh.active hm (Ne.symm hpb) with hapart | hapart <;> omega

theorem admits (hI : Inv a U) (hh : Handle cfg a U p h t b n) : freeAdmit p none = true := by
  obtain ⟨f, hf, -, hfp, -⟩ := hh.frame hI
  have hgood := (hI.tiers t).good f hf
  have h₁ := hgood.hi_le
  have h₂ := hgood.top
  have h₃ := hfp.2
  obtain ⟨i, e, hd, -⟩ := hh.dispatch hI
  have hpos := ptr_ne_zero hI hd
  simp [freeAdmit, hpos]
  omega

theorem copyCells (hI : Inv a U) (hh : Handle cfg a U p h t b n) (data : ℕ → Cell) :
    ∀ m, 32 * m ≤ n - 32 → Untouched a U (copyCells cfg p data m a) := by
  intro m
  induction m with
  | zero => exact fun _ => ⟨hI, fun _ => rfl, fun _ => rfl, fun _ => rfl⟩
  | succ m ih =>
    intro hm
    have hu := ih (by omega)
    obtain ⟨f, hf, hfb⟩ := hh.covered
    have hh' := hh.congr rfl ⟨f, by rw [hu.frames]; exact hf, hfb⟩ hu.caches.parked.1
    obtain ⟨i, e, hd, he, hcov⟩ := hh'.dispatch hu.inv
    rw [← hh'.blockPtr_eq] at hcov
    obtain ⟨hI', hsame, hrest⟩ := store_spec hu.inv cfg (data m) hd he hcov
      (by rw [hh'.blockPtr_eq]; exact hh'.active) (j := m) (by omega)
    exact ⟨hI', fun s => (hsame s).trans (hu.caches s), fun s => (hrest s).1.trans (hu.frames s),
      fun s => (hrest s).2.trans (hu.lastHit s)⟩

theorem pop (hI : Inv a U) (hh : Handle cfg a U p h t b n) (hplain : h.temporal = false) :
    ∃ a' U', pop cfg a p none true = .ok (true, a') ∧ Freed a U b a' U' := by
  obtain ⟨i, e, hd, he, hcov⟩ := hh.dispatch hI
  obtain ⟨a', U', hrun, hF⟩ := pop_ok hI cfg none true hd he (by rwa [hh.blockPtr_eq])
    (by rw [hh.blockPtr_eq]; exact hh.active) (by rw [hh.blockPtr_eq]; exact hh.out)
    (by rw [hplain]; exact fun hk => absurd hk (by decide)) (hh.admits hI) (by simp)
  rw [hh.blockPtr_eq] at hF
  exact ⟨a', U', hrun, hF⟩

/-- `resize` of a live pointer: nothing changes, the block is kept, or its contents move to a new
block and the old one is freed. -/
theorem resize (hI : Inv a U) (hh : Handle cfg a U p h t b n) (hplain : h.temporal = false)
    {newSz : ℕ} (data : ℕ → Cell) {gs : List Grant} (hgs : Mapped a gs) :
    Ends (resize cfg a p newSz data gs) fun r =>
      match r.1 with
      | none => Inv r.2 U ∧ SameCaches a r.2 ∧ Grows a r.2
      | some u => (u = ⟨p, newSz⟩ ∧ r.2 = a ∧ newSz ≤ sizeOfAlloc cfg a p) ∨
          ∃ c a₁ U₁ U', u = rzApply cfg newSz c ∧
            Given a U false (.ofSize (rzInflate cfg newSz)) (rzInflate cfg newSz) c a₁ U₁ ∧
            Freed a₁ U₁ b r.2 U' := by
  unfold Arena.resize
  rw [isCached_eq_false (hh.not_parked hI)]
  simp only [Bool.false_eq_true, if_false]
  split_ifs with h₁ h₂
  · exact Ends.of_ok ⟨_, rfl, hI, fun _ => rfl, .refl a⟩
  · exact Ends.of_ok ⟨_, rfl, Or.inl ⟨rfl, rfl, h₂.1⟩⟩
  · apply (push_spec hI cfg hgs).bind
    rintro ⟨o, a₁⟩ hr
    cases o with
    | none => exact Ends.of_ok ⟨_, rfl, hr⟩
    | some u =>
      obtain ⟨c, U₁, rfl, hg⟩ := hr
      have hcan := canaries_ofSize cfg newSz
      obtain ⟨m, hnew⟩ := hg.handle hI hcan (by simp)
      obtain ⟨-, hle, hfit⟩ := hnew.sizeOfAlloc_le hg.inv
      dsimp only at hg hnew hle hfit
      have hu := hnew.copyCells hg.inv data (sizeOfAlloc cfg a₁ (rzApply cfg newSz c).ptr / 32)
        (by omega)
      have hg' := hg.untouched hu
      have hne := hg.not_held hnew hI hh
      rw [rzApply_ptr hcan] at hne
      obtain ⟨a₂, U', hrun, hF⟩ := (hg'.keeps hI hh hne).pop hu.inv hplain
      exact Ends.of_ok ⟨(some (rzApply cfg newSz c), a₂), by simp [hrun, bind, Except.bind],
        Or.inr ⟨c, _, U₁, U', rfl, hg', hF⟩⟩

end Handle

end Handles

/-! ## Steps -/

instance (a : Tiers) (t : TierId) (len : Option ℕ) : Decidable (Spares a t len) :=
  inferInstanceAs (Decidable (_ ∧ _))

/-- Steps that keep apart what the source lets collide: laundered blocks are not parked, not
tombstoned and not resized, they carry no canaries, and no sheet is given back by hand. -/
def Careful (cfg : Config) (w : World) : Op → Prop
  | .launder sz _ => rzActive cfg sz = false
  | .pop p len _ => ∀ h ∈ w.live p, h.temporal = true → ∀ r ∈ dispatch w.arena p,
      Spares w.arena r.1 len
  | .tsPop p _ _ => ∀ h ∈ w.live p, h.temporal = false
  | .resize p _ _ _ => cfg.redzone = false ∧ ∀ h ∈ w.live p, h.temporal = false
  | .resetPage p => dispatch w.arena p = none
  | _ => True

instance (cfg : Config) (w : World) (op : Op) : Decidable (Careful cfg w op) :=
  match op with
  | .launder .. => inferInstanceAs (Decidable (_ = false))
  | .pop p _ _ => inferInstanceAs
      (Decidable (∀ h ∈ w.live p, _ = true → ∀ r ∈ dispatch w.arena p, _))
  | .tsPop p _ _ => inferInstanceAs (Decidable (∀ h ∈ w.live p, _ = false))
  | .resize p _ _ _ => inferInstanceAs (Decidable (_ = false ∧ ∀ h ∈ w.live p, _ = false))
  | .resetPage _ => inferInstanceAs (Decidable (_ = none))
  | .push .. => inferInstanceAs (Decidable True)
  | .freeze _ => inferInstanceAs (Decidable True)
  | .write .. => inferInstanceAs (Decidable True)

/-- Careful steps, with canaries around blocks that are resized. -/
def Regular (cfg : Config) (w : World) : Op → Prop
  | .resize p _ _ _ => ∀ h ∈ w.live p, h.temporal = false
  | op => Careful cfg w op

instance (cfg : Config) (w : World) (op : Op) : Decidable (Regular cfg w op) :=
  match op with
  | .resize p _ _ _ => inferInstanceAs (Decidable (∀ h ∈ w.live p, _ = false))
  | .push sz gs => inferInstanceAs (Decidable (Careful cfg w (.push sz gs)))
  | .launder sz gs => inferInstanceAs (Decidable (Careful cfg w (.launder sz gs)))
  | .pop p len intact => inferInstanceAs (Decidable (Careful cfg w (.pop p len intact)))
  | .tsPop p len intact => inferInstanceAs (Decidable (Careful cfg w (.tsPop p len intact)))
  | .freeze p => inferInstanceAs (Decidable (Careful cfg w (.freeze p)))
  | .resetPage p => inferInstanceAs (Decidable (Careful cfg w (.resetPage p)))
  | .write p i c => inferInstanceAs (Decidable (Careful cfg w (.write p i c)))

theorem regular_of_careful {cfg : Config} {w : World} {op : Op} (hcare : Careful cfg w op) :
    Regular cfg w op := by
  cases op with
  | resize p newSz data gs => exact hcare.2
  | _ => exact hcare

section Steps
variable {cfg : Config} {w : World} {a a' : Tiers} {U U' : Active} {t : TierId} {p b n sz : ℕ}
  {h : Held} {c : Chunk} {temporal : Bool}

/-- What a step other than `resize` does to a client and to the active blocks. -/
inductive Effect (cfg : Config) (w : World) (U : Active) : World → Active → Prop
  | refused : Effect cfg w U w U
  /-- Bookkeeping changes, and parked blocks may be dropped. -/
  | idle {a : Tiers} (hI : Inv a U) (hparked : ∀ q, Parked a q → Parked w.arena q)
      (hgrows : Grows w.arena a) : Effect cfg w U { w with arena := a } U
  | receive {a : Tiers} {U' : Active} {temporal : Bool} {t : TierId} {sz : ℕ} {c : Chunk}
      (hg : Given w.arena U temporal t (rzInflate cfg sz) c a U')
      (hcan : canaries cfg t = rzActive cfg sz)
      (hroom : temporal = true → rzActive cfg sz = false) :
      Effect cfg w U (w.receive cfg temporal t (rzApply cfg sz c) a) U'
  | release {a : Tiers} {U' : Active} {p b n : ℕ} {h : Held} {t : TierId}
      (hlive : w.live p = some h) (hh : Handle cfg w.arena U p h t b n)
      (hF : Freed w.arena U b a U') : Effect cfg w U (w.release p (true, a)) U'

theorem Sound.step_push (hS : Sound cfg w U) {gs : List Grant} (hgs : Mapped w.arena gs) :
    Ends (w.step cfg (.push sz gs)) fun w' => ∃ U', Effect cfg w U w' U' := by
  apply (push_spec hS.inv cfg hgs).bind
  rintro ⟨o, a⟩ hr
  cases o with
  | none =>
    obtain ⟨hI, hsame, hgrows⟩ := hr
    exact Ends.of_ok ⟨_, rfl, U, .idle hI (fun _ => hsame.parked.1) hgrows⟩
  | some u =>
    obtain ⟨c, U', rfl, hg⟩ := hr
    exact Ends.of_ok ⟨_, rfl, U', .receive hg (canaries_ofSize cfg sz) (by simp)⟩

theorem Sound.step_launder (hS : Sound cfg w U) {gs : List Grant} (hgs : Mapped w.arena gs)
    (hrz : rzActive cfg sz = false) :
    Ends (w.step cfg (.launder sz gs)) fun w' => ∃ U', Effect cfg w U w' U' := by
  apply (launder_spec hS.inv cfg hgs).bind
  rintro ⟨o, a⟩ hr
  cases o with
  | none =>
    obtain ⟨hI, hsame, hgrows⟩ := hr
    exact Ends.of_ok ⟨_, rfl, U, .idle hI (fun _ => hsame.parked.1) hgrows⟩
  | some u =>
    obtain ⟨c, U', rfl, hg⟩ := hr
    exact Ends.of_ok ⟨_, rfl, U', .receive hg (canaries_ofLaunder cfg sz) fun _ => hrz⟩

theorem effect_release (hlive : w.live p = some h) (hh : Handle cfg w.arena U p h t b n)
    {r : Bool × Tiers} (hr : (r.1 = false ∧ r.2 = w.arena) ∨
      (r.1 = true ∧ ∃ U', Freed w.arena U b r.2 U')) :
    ∃ U', Effect cfg w U (w.release p r) U' := by
  obtain ⟨ok, a⟩ := r
  rcases hr with ⟨rfl, rfl⟩ | ⟨rfl, U', hF⟩
  · exact ⟨U, .refused⟩
  · exact ⟨U', .release hlive hh hF⟩

theorem Sound.step_pop (hS : Sound cfg w U) {len : Option ℕ} {intact : Bool}
    (hlive : w.live p = some h) (hcare : Careful cfg w (.pop p len intact)) :
    Ends (w.step cfg (.pop p len intact)) fun w' => ∃ U', Effect cfg w U w' U' := by
  obtain ⟨t, b, n, hh⟩ := hS.held hlive
  obtain ⟨i, e, hd, he, hcov⟩ := hh.dispatch hS.inv
  have hspec := pop_spec hS.inv cfg len intact hd he (by rwa [hh.blockPtr_eq])
    (by rw [hh.blockPtr_eq]; exact hh.active) (by rw [hh.blockPtr_eq]; exact hh.out)
    fun hk => hcare h hlive hk _ hd
  apply hspec.bind
  intro r hr
  rw [hh.blockPtr_eq] at hr
  exact Ends.of_ok ⟨_, rfl, effect_release hlive hh hr⟩

theorem Sound.step_tsPop (hS : Sound cfg w U) {len : Option ℕ} {intact : Bool}
    (hlive : w.live p = some h) (hplain : h.temporal = false) :
    Ends (w.step cfg (.tsPop p len intact)) fun w' => ∃ U', Effect cfg w U w' U' := by
  obtain ⟨t, b, n, hh⟩ := hS.held hlive
  obtain ⟨i, e, hd, he, hcov⟩ := hh.dispatch hS.inv
  have hspec := tsPop_spec hS.inv cfg len intact hd he (by rwa [hh.blockPtr_eq])
    (by rw [hh.blockPtr_eq, ← hplain]; exact hh.active) (by rw [hh.blockPtr_eq]; exact hh.out)
  apply hspec.bind
  intro r hr
  rw [hh.blockPtr_eq] at hr
  apply Ends.of_ok
  exact ⟨_, rfl, effect_release hlive hh (hr.imp_right fun ⟨h₁, U', hF, _⟩ => ⟨h₁, U', hF⟩)⟩

theorem Sound.stores (hS : Sound cfg w U) {i : ℕ} (v : Cell) (hlive : w.live p = some h)
    (hi : 32 * i + 32 ≤ h.len) : Inv (store cfg w.arena p i v) U ∧
      (∀ q, Parked (store cfg w.arena p i v) q → Parked w.arena q) ∧
      Grows w.arena (store cfg w.arena p i v) := by
  obtain ⟨t, b, n, hh⟩ := hS.held hlive
  obtain ⟨j, e, hd, he, hcov⟩ := hh.dispatch hS.inv
  have hwithin := hh.within
  have hle := le_userPtr cfg t b
  rw [← hh.ptr] at hle
  obtain ⟨hI, hsame, hrest⟩ := store_spec hS.inv cfg v hd he (by rwa [hh.blockPtr_eq])
    (by rw [hh.blockPtr_eq]; exact hh.active) (j := i) (by omega)
  exact ⟨hI, fun _ => hsame.parked.1, .of_frames fun s => (hrest s).1⟩

theorem Sound.step_write (hS : Sound cfg w U) {i : ℕ} {v : Cell} (hlive : w.live p = some h)
    (hi : 32 * i + 32 ≤ h.len) :
    Ends (w.step cfg (.write p i v)) fun w' => ∃ U', Effect cfg w U w' U' := by
  obtain ⟨hI, hparked, hgrows⟩ := hS.stores v hlive hi
  exact Ends.of_ok ⟨_, rfl, U, .idle hI hparked hgrows⟩

/-- Dropping parked blocks keeps the invariant; they stay in use for ever. -/
theorem Inv.freeze (hI : Inv a U) (p : ℕ) : Inv (freeze a p) U ∧
    (∀ t, (freeze a p t).idx = (a t).idx) ∧ ∀ q, Parked (freeze a p) q → Parked a q := by
  unfold Arena.freeze
  cases hd : dispatch a p with
  | none => exact ⟨hI, fun _ => rfl, fun _ hq => hq⟩
  | some r =>
    obtain ⟨t, i⟩ := r
    have hsub : ((a t).freeze i).cache.Sublist (a t).cache := List.filter_sublist
    have hT : ((a t).freeze i).Inv t.params t.Rep U := by
      have ht := hI.tiers t
      constructor
      · exact ht.good
      · exact ht.sorted
      · exact ht.sheets
      · exact fun x hx => ht.cached x (hsub.subset hx)
      · exact (hsub.map Prod.fst).nodup ht.nodup
      · exact hsub.length_le.trans ht.room
    constructor
    · exact hI.set hT (fun f hf => hf) (fun _ hp => absurd rfl hp) fun f hf _ _ _ => hf
    · constructor
      · intro s
        by_cases hs : s = t
        · subst hs
          simp only [update_self]
          rfl
        · simp only [update_of_ne hs]
      · rintro q ⟨s, x, hx, rfl⟩
        by_cases hs : s = t
        · subst hs
          simp only [update_self] at hx
          exact ⟨s, x, hsub.subset hx, rfl⟩
        · simp only [update_of_ne hs] at hx
          exact ⟨s, x, hx, rfl⟩

theorem Sound.step_freeze (hS : Sound cfg w U) :
    Ends (w.step cfg (.freeze p)) fun w' => ∃ U', Effect cfg w U w' U' := by
  obtain ⟨hI, hidx, hpark⟩ := hS.inv.freeze p
  refine Ends.of_ok ⟨_, rfl, U, .idle hI hpark (.of_frames fun t => ?_)⟩
  rw [Tier.frames, hidx, Tier.frames]

theorem resetPage_of_none (hd : dispatch a p = none) :
    resetPage a p = a ∧ ∀ q, World.released a p q = false := by
  have hnone : ∀ t, (a t).findRange p = none := by
    intro t
    have := List.findSome?_eq_none_iff.1 hd t t.mem_all
    exact Option.map_eq_none_iff.1 this
  constructor
  · funext t
    simp [resetPage, Tier.resetPage, hnone]
  · intro q
    simp [World.released, hnone]

theorem step_resetPage (hd : dispatch w.arena p = none) :
    Ends (w.step cfg (.resetPage p)) fun w' => ∃ U', Effect cfg w U w' U' := by
  obtain ⟨hreset, hrel⟩ := resetPage_of_none hd
  have hrun : w.step cfg (.resetPage p) = .ok w := by
    simp [World.step, hreset, hrel]
  exact Ends.of_ok ⟨w, hrun, U, .refused⟩

def Op.resizes : Op → Bool
  | .resize _ _ _ _ => true
  | _ => false

/-- One step of a careful client, from any sound state. -/
theorem Sound.effect (hS : Sound cfg w U) {op : Op} (hlegal : w.Legal op)
    (hcare : Careful cfg w op) (hop : op.resizes = false) :
    Ends (w.step cfg op) fun w' => ∃ U', Effect cfg w U w' U' := by
  cases op with
  | push sz gs => exact hS.step_push hlegal
  | launder sz gs => exact hS.step_launder hlegal hcare
  | pop p len intact =>
    obtain ⟨h, hlive⟩ := Option.isSome_iff_exists.1 hlegal
    exact hS.step_pop hlive hcare
  | tsPop p len intact =>
    obtain ⟨h, hlive⟩ := Option.isSome_iff_exists.1 hlegal
    exact hS.step_tsPop hlive (hcare h hlive)
  | resize p newSz data gs => exact absurd hop (by simp [Op.resizes])
  | freeze p => exact hS.step_freeze
  | resetPage p => exact step_resetPage hcare
  | write p i v =>
    obtain ⟨h, hlive, hi⟩ := Option.any_eq_true _ _ |>.1 hlegal
    exact hS.step_write hlive (of_decide_eq_true hi)

/-! ### Live pointers stay sound -/

theorem Sound.idle (hS : Sound cfg w U) (hI : Inv a U)
    (hparked : ∀ q, Parked a q → Parked w.arena q) (hgrows : Grows w.arena a) :
    Sound cfg { w with arena := a } U where
  inv := hI
  held hq := by
    obtain ⟨t, b, n, hh⟩ := hS.held hq
    obtain ⟨f, hf, hfb⟩ := hh.covered
    exact ⟨t, b, n, hh.congr rfl ⟨f, hgrows t f hf, hfb⟩ (hparked b)⟩

theorem Sound.receive (hS : Sound cfg w U)
    (hg : Given w.arena U temporal t (rzInflate cfg sz) c a U')
    (hcan : canaries cfg t = rzActive cfg sz) (hroom : temporal = true → rzActive cfg sz = false) :
    Sound cfg (w.receive cfg temporal t (rzApply cfg sz c) a) U' where
  inv := hg.inv
  held {q h} hq := by
    obtain ⟨n, hnew⟩ := hg.handle hS.inv hcan hroom
    by_cases hqc : q = (rzApply cfg sz c).ptr
    · subst hqc
      simp only [World.receive, update_self, Option.some.injEq] at hq
      subst hq
      exact ⟨t, c.ptr, n, hnew⟩
    · simp only [World.receive, update_of_ne hqc] at hq
      obtain ⟨s, b, m, hh⟩ := hS.held hq
      rw [rzApply_ptr hcan] at hqc
      exact ⟨s, b, m, hg.keeps hS.inv hh hqc⟩

theorem Sound.release (hS : Sound cfg w U) (hh : Handle cfg w.arena U p h t b n)
    (hF : Freed w.arena U b a U') : Sound cfg (w.release p (true, a)) U' where
  inv := hF.inv
  held {q h'} hq := by
    simp only [World.release, if_true] at hq
    by_cases hqp : q = p
    · subst hqp
      rw [update_self] at hq
      exact absurd hq (by simp)
    · rw [update_of_ne hqp] at hq
      obtain ⟨s, b', m, hh'⟩ := hS.held hq
      apply Exists.intro s
      apply Exists.intro b'
      apply Exists.intro m
      apply hF.keeps hS.inv hh'
      rintro rfl
      exact hqp (hh'.ptr_unique hS.inv hh)

theorem Effect.sound (hS : Sound cfg w U) {w' : World} (heff : Effect cfg w U w' U') :
    Sound cfg w' U' := by
  cases heff with
  | refused => exact hS
  | idle hI hparked hgrows => exact hS.idle hI hparked hgrows
  | receive hg hcan hroom => exact hS.receive hg hcan hroom
  | release hlive hh hF => exact hS.release hh hF

theorem Sound.refit (hS : Sound cfg w U) (hh : Handle cfg w.arena U p h t b n)
    (hplain : h.temporal = false) {newSz : ℕ} (hn : newSz ≤ sizeOfAlloc cfg w.arena p) :
    Sound cfg { w with live := update w.live p (some ⟨newSz, false⟩) } U where
  inv := hS.inv
  held {q h'} hq := by
    by_cases hqp : q = p
    · subst hqp
      simp only [update_self, Option.some.injEq] at hq
      subst hq
      have hactive := hh.active
      rw [hplain] at hactive
      refine ⟨t, b, n, hh.ptr, hh.covered, hactive, ?_, hh.out⟩
      have hsize := hh.sizeOfAlloc_eq hS.inv
      have hwithin := hh.within
      have hptr := hh.ptr
      unfold userPtr at hptr
      show q + newSz + (q - b) + 32 ≤ b + n
      split_ifs at hsize hptr <;> omega
    · simp only [update_of_ne hqp] at hq
      exact hS.held hq

theorem Sound.step_resize (hS : Sound cfg w U) {newSz : ℕ} {data : ℕ → Cell} {gs : List Grant}
    (hgs : Mapped w.arena gs) (hlive : w.live p = some h) (hplain : h.temporal = false) :
    Ends (w.step cfg (.resize p newSz data gs)) fun w' => ∃ U', Sound cfg w' U' := by
  obtain ⟨t, b, n, hh⟩ := hS.held hlive
  apply (hh.resize hS.inv hplain data hgs).bind
  rintro ⟨o, a⟩ hr
  cases o with
  | none =>
    obtain ⟨hI, hsame, hgrows⟩ := hr
    exact Ends.of_ok ⟨_, rfl, U, hS.idle hI (fun _ => hsame.parked.1) hgrows⟩
  | some c =>
    rcases hr with ⟨rfl, ha, hn⟩ | ⟨c, a₁, U₁, U', rfl, hg, hF⟩
    · obtain rfl : a = w.arena := ha
      exact Ends.of_ok ⟨_, if_pos rfl, U, hS.refit hh hplain hn⟩
    · have hcan := canaries_ofSize cfg newSz
      have hmid := hS.receive hg hcan (by simp)
      obtain ⟨m, hnew⟩ := hg.handle hS.inv hcan (by simp)
      have hne : p ≠ (rzApply cfg newSz c).ptr := hg.not_held hnew hS.inv hh
      have hkept := hg.keeps hS.inv hh (by rw [← rzApply_ptr hcan]; exact hne)
      have hdone := hmid.release hkept hF
      exact Ends.of_ok ⟨_, if_neg hne.symm, U', hdone.inv, hdone.held⟩

/-- One step from any sound state: it aborts or the state is sound again. -/
theorem Sound.step (hS : Sound cfg w U) {op : Op} (hlegal : w.Legal op)
    (hreg : Regular cfg w op) : Ends (w.step cfg op) fun w' => ∃ U', Sound cfg w' U' := by
  have heffect : Careful cfg w op → op.resizes = false →
      Ends (w.step cfg op) fun w' => ∃ U', Sound cfg w' U' := by
    intro hcare hop
    apply (hS.effect hlegal hcare hop).mono
    rintro w' ⟨U', heff⟩
    exact ⟨U', heff.sound hS⟩
  cases op with
  | resize p newSz data gs =>
    obtain ⟨h, hlive⟩ := Option.isSome_iff_exists.1 hlegal.1
    exact hS.step_resize hlegal.2 hlive (hreg h hlive)
  | _ => exact heffect hreg rfl

theorem next_eq_some {op : Op} {w' : World} : w.next cfg op = some w' ↔ w.step cfg op = .ok w' := by
  unfold World.next
  cases w.step cfg op <;> simp [Except.toOption]

theorem Sound.next (hS : Sound cfg w U) {op : Op} {w' : World} (hlegal : w.Legal op)
    (hreg : Regular cfg w op) (hstep : w.next cfg op = some w') : ∃ U', Sound cfg w' U' :=
  (hS.step hlegal hreg).ok (next_eq_some.1 hstep)

theorem sound_init (cfg : Config) {g₁ g₂ g₃ : Grant} (hg : Distinct g₁ g₂ g₃)
    (ha : start g₁ g₂ g₃ = some a) : Sound cfg (World.init a) fun _ => none where
  inv := (inv_start hg ha).1
  held hq := absurd hq (by simp [World.init])

/-- Every run of regular steps reaches sound states only. -/
theorem regular_run {g₁ g₂ g₃ : Grant} (hg : Distinct g₁ g₂ g₃) (ha : start g₁ g₂ g₃ = some a)
    {ops : List Op} (hrun : Run (fun w op => w.Legal op ∧ Regular cfg w op) (World.next cfg)
      (World.init a) ops w) : ∃ U, Sound cfg w U := by
  apply hrun.invariant fun w => ∃ U, Sound cfg w U
  · rintro w op w' ⟨U, hS⟩ ⟨hlegal, hreg⟩ hstep
    exact hS.next hlegal hreg hstep
  · exact ⟨_, sound_init cfg hg ha⟩

end Steps

/-! ## Clients that never launder -/

section Plain
variable {w w' : World}

def World.Plain (w : World) : Prop := ∀ p, ∀ h ∈ w.live p, h.temporal = false

theorem World.Plain.receive (hw : w.Plain) (cfg : Config) (t : TierId) (c : Chunk) (a : Tiers) :
    (w.receive cfg false t c a).Plain := by
  intro q h hq
  by_cases hqc : q = c.ptr
  · subst hqc
    simp only [World.receive, update_self, Option.mem_def, Option.some.injEq] at hq
    rw [← hq]
  · simp only [World.receive, update_of_ne hqc] at hq
    exact hw q h hq

theorem World.Plain.release (hw : w.Plain) (p : ℕ) (r : Bool × Tiers) : (w.release p r).Plain := by
  intro q h hq
  simp only [World.release] at hq
  split_ifs at hq
  · by_cases hqp : q = p
    · subst hqp
      rw [update_self] at hq
      exact absurd hq (by simp)
    · rw [update_of_ne hqp] at hq
      exact hw q h hq
  · exact hw q h hq

def Op.launders : Op → Bool
  | .launder _ _ => true
  | _ => false

theorem World.Plain.step (hw : w.Plain) {cfg : Config} {op : Op} (hop : op.launders = false)
    (hstep : w.step cfg op = .ok w') : w'.Plain := by
  cases op with
  | push sz gs =>
    obtain ⟨o, a, -, rfl⟩ := World.step_push hstep
    cases o with
    | none => exact hw
    | some c => exact hw.receive _ _ _ _
  | launder sz gs => exact absurd hop (by simp [Op.launders])
  | pop p len intact =>
    obtain ⟨r, -, rfl⟩ := World.step_pop hstep
    exact hw.release _ _
  | tsPop p len intact =>
    obtain ⟨r, -, rfl⟩ := World.step_tsPop hstep
    exact hw.release _ _
  | resize p newSz data gs =>
    obtain ⟨o, a, -, rfl⟩ := World.step_resize hstep
    cases o with
    | none => exact hw
    | some c =>
      simp only [Option.elim_some]
      split_ifs
      · intro q h hq
        by_cases hqp : q = p
        · subst hqp
          simp only [update_self, Option.mem_def, Option.some.injEq] at hq
          rw [← hq]
        · simp only [update_of_ne hqp] at hq
          exact hw q h hq
      · exact (hw.receive _ _ _ _).release _ _
  | freeze p =>
    obtain rfl := Except.ok.inj hstep
    exact hw
  | resetPage p =>
    obtain rfl := Except.ok.inj hstep
    intro q h hq
    simp only at hq
    split_ifs at hq
    · exact absurd hq (by simp)
    · exact hw q h hq
  | write p i v =>
    obtain rfl := Except.ok.inj hstep
    exact hw

/-- `reset_page` is not asked for an address inside a registered sheet. -/
def KeepsSheets (w : World) : Op → Prop
  | .resetPage p => dispatch w.arena p = none
  | _ => True

instance (w : World) (op : Op) : Decidable (KeepsSheets w op) :=
  match op with
  | .resetPage _ => inferInstanceAs (Decidable (_ = none))
  | .push .. => inferInstanceAs (Decidable True)
  | .launder .. => inferInstanceAs (Decidable True)
  | .pop .. => inferInstanceAs (Decidable True)
  | .tsPop .. => inferInstanceAs (Decidable True)
  | .resize .. => inferInstanceAs (Decidable True)
  | .freeze _ => inferInstanceAs (Decidable True)
  | .write .. => inferInstanceAs (Decidable True)

theorem World.Plain.careful (hw : w.Plain) {cfg : Config} {op : Op} (hop : op.launders = false)
    (hoff : op.resizes = true → cfg.redzone = false) (hkeep : KeepsSheets w op) :
    Careful cfg w op := by
  cases op with
  | push sz gs => trivial
  | launder sz gs => exact absurd hop (by simp [Op.launders])
  | pop p len intact =>
    intro h hlive hk
    rw [hw p h hlive] at hk
    exact absurd hk (by decide)
  | tsPop p len intact => exact hw p
  | resize p newSz data gs => exact ⟨hoff rfl, hw p⟩
  | freeze p => trivial
  | resetPage p => exact hkeep
  | write p i v => trivial

theorem World.plain_init (a : Tiers) : (World.init a).Plain := fun p h hp =>
  absurd hp (by simp [World.init])

end Plain
end AbcMalloc.Arena
