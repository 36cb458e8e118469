import AbcMalloc.Arena.Clients

/-! No byte is handed out twice. Without `launder` this holds of every client; with it, of every
client that frees laundered blocks in a way that leaves neither the free cache nor a ring behind. -/
namespace AbcMalloc.Arena
open Function Foundation

section Plain
variable {w w' : World} {a : Tiers} {U : Active} {p q : ℕ} {h h' : Held}

/-- The operations of a client that never launders, without `freeze` and `reset_page`. -/
def Op.Plain : Op → Prop
  | .launder _ _ => False
  | .freeze _ => False
  | .resetPage _ => False
  | _ => True

instance (op : Op) : Decidable op.Plain :=
  match op with
  | .launder .. => inferInstanceAs (Decidable False)
  | .freeze _ => inferInstanceAs (Decidable False)
  | .resetPage _ => inferInstanceAs (Decidable False)
  | .push .. => inferInstanceAs (Decidable True)
  | .pop .. => inferInstanceAs (Decidable True)
  | .tsPop .. => inferInstanceAs (Decidable True)
  | .resize .. => inferInstanceAs (Decidable True)
  | .write .. => inferInstanceAs (Decidable True)

theorem Op.Plain.not_launders {op : Op} (hop : op.Plain) : op.launders = false := by
  cases op with
  | launder sz gs => exact hop.elim
  | _ => rfl

theorem World.Plain.careful_of_plain (hw : w.Plain) {cfg : Config} (hoff : cfg.redzone = false)
    {op : Op} (hop : op.Plain) : Careful cfg w op := by
  apply hw.careful hop.not_launders (fun _ => hoff)
  cases op with
  | resetPage p => exact hop.elim
  | _ => trivial

theorem plain_run {cfg : Config} (hoff : cfg.redzone = false) {g₁ g₂ g₃ : Grant}
    (hg : Distinct g₁ g₂ g₃) (ha : start g₁ g₂ g₃ = some a) {ops : List Op}
    (hrun : Run (fun w op => w.Legal op ∧ op.Plain) (World.next cfg) (World.init a) ops w) :
    w.Plain ∧ ∃ U, Sound cfg w U := by
  apply hrun.invariant fun w => w.Plain ∧ ∃ U, Sound cfg w U
  · rintro w op w' ⟨hw, U, hS⟩ ⟨hlegal, hop⟩ hstep
    constructor
    · exact hw.step hop.not_launders (next_eq_some.1 hstep)
    · exact hS.next hlegal (regular_of_careful (hw.careful_of_plain hoff hop)) hstep
  · constructor
    · exact World.plain_init a
    · exact ⟨_, sound_init cfg hg ha⟩

/-- The bytes behind live pointers, as `__size_of_alloc` reports them. -/
structure NoOverlap (cfg : Config) (w : World) : Prop where
  fits : ∀ {p h}, w.live p = some h → h.len ≤ sizeOfAlloc cfg w.arena p
  inside : ∀ {p h}, w.live p = some h →
    ∃ t, ∃ e ∈ (w.arena t).idx, e.lo ≤ p ∧ p + sizeOfAlloc cfg w.arena p ≤ e.hi
  metadata : ∀ {p h}, w.live p = some h → ∀ t, ∀ e ∈ (w.arena t).idx,
    ∀ r ∈ t.params.metadata e.sheet.mem e.sheet.book,
      r.1 + r.2 ≤ p ∨ p + sizeOfAlloc cfg w.arena p ≤ r.1
  apart : ∀ {p q h h'}, w.live p = some h → w.live q = some h' → p ≠ q →
    p + sizeOfAlloc cfg w.arena p ≤ q ∨ q + sizeOfAlloc cfg w.arena q ≤ p

theorem Sound.noOverlap {cfg : Config} (hS : Sound cfg w U) (hoff : cfg.redzone = false) :
    NoOverlap cfg w := by
  -- without canaries the user pointer is the pointer of the block
  have hblock : ∀ {p h}, w.live p = some h → ∃ t n, Handle cfg w.arena U p h t p n ∧
      sizeOfAlloc cfg w.arena p = n - 32 := by
    intro p h hp
    obtain ⟨t, b, n, hh⟩ := hS.held hp
    obtain rfl : p = b := by rw [← hh.blockPtr_eq, blockPtr_eq hoff]
    refine ⟨t, n, hh, ?_⟩
    rw [hh.sizeOfAlloc_eq hS.inv, canaries_eq_false hoff]
    rfl
  constructor
  · intro p h hp
    obtain ⟨t, n, hh, hsize⟩ := hblock hp
    have := hh.within
    omega
  · intro p h hp
    obtain ⟨t, n, hh, hsize⟩ := hblock hp
    obtain ⟨f, hf, hfp, -, hhi⟩ := hh.frame hS.inv
    obtain ⟨e, he, rfl⟩ := List.mem_map.1 hf
    rw [hsize]
    exact ⟨t, e, he, hfp.1, hhi⟩
  · intro p h hp s e he r hr
    obtain ⟨t, n, hh, hsize⟩ := hblock hp
    obtain ⟨j, hj⟩ := List.mem_iff_getElem?.1 he
    rw [hsize]
    exact hS.inv.metadata_apart hh.active hj r hr
  · intro p q h h' hp hq hne
    obtain ⟨t, n, hh, hsize⟩ := hblock hp
    obtain ⟨s, m, hh', hsize'⟩ := hblock hq
    rw [hsize, hsize']
    exact hS.inv.blocks_apart hh.active hh'.active hne

theorem push_enough {cfg : Config} (hoff : cfg.redzone = false) (hI : Inv a U) {sz : ℕ}
    {gs : List Grant} (hgs : Mapped a gs) {c : Chunk} {a' : Tiers}
    (hpush : push cfg a sz gs = .ok (some c, a')) : sz ≤ c.len := by
  obtain ⟨c', U', rfl, hg⟩ := (push_spec hI cfg hgs).ok hpush
  have henough := hg.enough rfl
  simpa [rzApply, rzActive, rzInflate, hoff] using henough

theorem Handle.resize_enough {cfg : Config} (hoff : cfg.redzone = false) {t : TierId} {b n : ℕ}
    {h : Held} (hI : Inv a U) (hh : Handle cfg a U p h t b n) (hplain : h.temporal = false)
    {newSz : ℕ} {data : ℕ → Cell} {gs : List Grant} (hgs : Mapped a gs) {c : Chunk} {a' : Tiers}
    (hresize : Arena.resize cfg a p newSz data gs = .ok (some c, a')) : newSz ≤ c.len := by
  rcases (hh.resize hI hplain data hgs).ok hresize with ⟨rfl, -⟩ | ⟨c', a₁, U₁, U', rfl, hg, -⟩
  · exact le_rfl
  · have henough := hg.enough rfl
    simpa [rzApply, rzActive, rzInflate, hoff] using henough

/-- A block is served by five tiers, by two lists or by the free cache, and sheets come and go
underneath: in every run of the default configuration the bytes of live blocks stay apart. -/
theorem arena_no_overlap {g₁ g₂ g₃ : Grant} (hg : Distinct g₁ g₂ g₃)
    (ha : start g₁ g₂ g₃ = some a) {ops : List Op}
    (hrun : Run (fun w op => w.Legal op ∧ op.Plain) (World.next .default) (World.init a) ops w) :
    NoOverlap .default w ∧
      (∀ sz gs c a', Mapped w.arena gs → push .default w.arena sz gs = .ok (some c, a') →
        sz ≤ c.len) ∧
      (∀ p newSz data gs c a', (w.live p).isSome = true → Mapped w.arena gs →
        resize .default w.arena p newSz data gs = .ok (some c, a') → newSz ≤ c.len) ∧
      ∀ op, w.Legal op → op.Plain → w.step .default op ≠ .error .undefined := by
  obtain ⟨hw, U, hS⟩ := plain_run rfl hg ha hrun
  refine ⟨hS.noOverlap rfl, ?_, ?_, ?_⟩
  · intro sz gs c a' hgs hpush
    exact push_enough rfl hS.inv hgs hpush
  · intro p newSz data gs c a' hlive hgs hresize
    obtain ⟨h, hp⟩ := Option.isSome_iff_exists.1 hlive
    obtain ⟨t, b, n, hh⟩ := hS.held hp
    exact hh.resize_enough rfl hS.inv (hw p h hp) hgs hresize
  · intro op hlegal hop hstep
    have hcare : Careful .default w op := hw.careful_of_plain rfl hop
    have hreg := regular_of_careful hcare
    rcases hS.step hlegal hreg with hend | ⟨w', hend, -⟩ <;> rw [hend] at hstep
    · exact absurd (Except.error.inj hstep) (by decide)
    · exact absurd hstep (by simp)

/-- A block that is parked and handed out again, and a move from one list to the other. -/
theorem arena_no_overlap_reuse : ∃ a w,
    start (clearGrant 65536 8192) (clearGrant 131072 8192) (clearGrant 262144 65536) = some a ∧
    Run (fun w op => w.Legal op ∧ op.Plain) (World.next .default) (World.init a)
      [.push 100 [], .push 5000 [], .write 65600 0 ⟨1, 2, 3, 4, 5⟩, .pop 65600 (some 100) true,
        .push 64 [], .resize 266240 300 (fun _ => ⟨1, 2, 3, 4, 5⟩) [], .pop 65600 none true,
        .push 1000 [], .tsPop 131136 none true, .push 600 []] w ∧
    NoOverlap .default w ∧ sizeOfAlloc .default w.arena 65792 = 352 := by
  obtain ⟨a, w, ha, hrun, hsize⟩ := exists_run .default (fun w op => w.Legal op ∧ op.Plain)
    (clearGrant 65536 8192) (clearGrant 131072 8192) (clearGrant 262144 65536)
    [.push 100 [], .push 5000 [], .write 65600 0 ⟨1, 2, 3, 4, 5⟩, .pop 65600 (some 100) true,
      .push 64 [], .resize 266240 300 (fun _ => ⟨1, 2, 3, 4, 5⟩) [], .pop 65600 none true,
      .push 1000 [], .tsPop 131136 none true, .push 600 []]
    (fun w => sizeOfAlloc .default w.arena 65792 = 352) (by decide +kernel)
  have hend := arena_no_overlap (by decide) ha hrun
  exact ⟨a, w, ha, hrun, hend.1, of_decide_eq_true hsize⟩

end Plain

/-! ## Laundered blocks -/

section Laundering
variable {cfg : Config} {w : World} {a : Tiers} {U : Active}

def Op.Laundering : Op → Prop
  | .push _ _ => True
  | .launder _ _ => True
  | .pop _ _ _ => True
  | .write _ _ _ => True
  | _ => False

instance (op : Op) : Decidable op.Laundering :=
  match op with
  | .push .. => inferInstanceAs (Decidable True)
  | .launder .. => inferInstanceAs (Decidable True)
  | .pop .. => inferInstanceAs (Decidable True)
  | .write .. => inferInstanceAs (Decidable True)
  | .tsPop .. => inferInstanceAs (Decidable False)
  | .resize .. => inferInstanceAs (Decidable False)
  | .freeze _ => inferInstanceAs (Decidable False)
  | .resetPage _ => inferInstanceAs (Decidable False)

def Clear (c : Chunk) (q : ℕ) (h : Held) : Prop :=
  c.ptr ≠ q ∧ (c.ptr + c.len ≤ q ∨ q + h.len ≤ c.ptr)

/-- What a request returns: a pushed chunk is clear of everything that is held, a laundered one
of everything that was pushed. -/
def Unaliased (cfg : Config) (w : World) : Op → Prop
  | .push sz gs => ∀ c a, push cfg w.arena sz gs = .ok (some c, a) →
      ∀ q h, w.live q = some h → Clear c q h
  | .launder sz gs => ∀ c a, launder cfg w.arena sz gs = .ok (some c, a) →
      ∀ q h, w.live q = some h → h.temporal = false → Clear c q h
  | _ => True

theorem Given.clear {t : TierId} {sz : ℕ} {c : Chunk} {temporal : Bool} {U' : Active}
    (hS : Sound cfg w U) (hg : Given w.arena U temporal t (rzInflate cfg sz) c a U')
    (hcan : canaries cfg t = rzActive cfg sz) (hroom : temporal = true → rzActive cfg sz = false)
    {q : ℕ} {h : Held} (hq : w.live q = some h) (hne : q ≠ (rzApply cfg sz c).ptr) :
    Clear (rzApply cfg sz c) q h := by
  obtain ⟨n, hnew⟩ := hg.handle hS.inv hcan hroom
  obtain ⟨s, b, m, hh⟩ := hS.held hq
  have hkept := hg.keeps hS.inv hh (by rwa [← rzApply_ptr hcan])
  exact ⟨hne.symm, hnew.apart hg.inv hkept hne.symm⟩

theorem Sound.unaliased (hS : Sound cfg w U) {op : Op} (hlegal : w.Legal op)
    (hcare : Careful cfg w op) : Unaliased cfg w op := by
  cases op with
  | push sz gs =>
    intro u a hpush q h hq
    obtain ⟨c, U', rfl, hg⟩ := (push_spec hS.inv cfg hlegal).ok hpush
    have hcan := canaries_ofSize cfg sz
    apply hg.clear hS hcan (by simp) hq
    obtain ⟨n, hnew⟩ := hg.handle hS.inv hcan (by simp)
    obtain ⟨s, b, m, hh⟩ := hS.held hq
    exact hg.not_held hnew hS.inv hh
  | launder sz gs =>
    intro u a hlaunder q h hq hplain
    obtain ⟨c, U', rfl, hg⟩ := (launder_spec hS.inv cfg hlegal).ok hlaunder
    have hcan := canaries_ofLaunder cfg sz
    apply hg.clear hS hcan (fun _ => hcare) hq
    -- a block that was out already is temporal, and `q` is not
    rintro rfl
    obtain ⟨n, hnew⟩ := hg.handle hS.inv hcan fun _ => hcare
    obtain ⟨s, b, m, hh⟩ := hS.held hq
    obtain ⟨f, hf, -, hfq, -⟩ := hh.frame hS.inv
    obtain ⟨g, hgm, -, hgq, -⟩ := hnew.frame hg.inv
    obtain ⟨rfl, -⟩ := hg.inv.frame_unique (hg.grows s f hf) hgm hfq hgq
    have hb : b = c.ptr := by rw [← hh.blockPtr_eq, ← hnew.blockPtr_eq]
    subst hb
    have hmono := hg.mono hh.active
    rw [hnew.active, hplain] at hmono
    simp at hmono
  | pop p len intact => trivial
  | tsPop p len intact => trivial
  | resize p newSz data gs => trivial
  | freeze p => trivial
  | resetPage p => trivial
  | write p i v => trivial

theorem careful_run {g₁ g₂ g₃ : Grant} (hg : Distinct g₁ g₂ g₃) (ha : start g₁ g₂ g₃ = some a)
    {ops : List Op} (hrun : Run (fun w op => w.Legal op ∧ Careful cfg w op) (World.next cfg)
      (World.init a) ops w) : ∃ U, Sound cfg w U :=
  regular_run hg ha (hrun.mono fun _ _ hok => ⟨hok.1, regular_of_careful hok.2⟩)

/-- Laundered and pushed blocks stay apart as long as no laundered block is parked or
tombstoned. -/
theorem laundered_apart {g₁ g₂ g₃ : Grant} (hg : Distinct g₁ g₂ g₃)
    (ha : start g₁ g₂ g₃ = some a) {ops : List Op}
    (hrun : Run (fun w op => w.Legal op ∧ op.Laundering ∧ Careful cfg w op) (World.next cfg)
      (World.init a) ops w) {op : Op} (hlegal : w.Legal op) (hcare : Careful cfg w op) :
    Unaliased cfg w op := by
  have hrun' : Run (fun w op => w.Legal op ∧ Careful cfg w op) (World.next cfg) (World.init a)
      ops w := hrun.mono fun w op hok => ⟨hok.1, hok.2.2⟩
  obtain ⟨U, hS⟩ := careful_run hg ha hrun'
  exact hS.unaliased hlegal hcare

/-- The size-less free takes a laundered block out of its ring, and `push` may have it. -/
theorem laundered_apart_sizeless : ∃ a w,
    start (clearGrant 65536 8192) (clearGrant 131072 8192) (clearGrant 262144 65536) = some a ∧
    Run (fun w op => w.Legal op ∧ op.Laundering ∧ Careful .default w op) (World.next .default)
      (World.init a) [.launder 600 [], .pop 131136 none true, .push 600 []] w ∧
    Unaliased .default w (.launder 600 []) ∧ (w.live 131136).isSome = true := by
  obtain ⟨a, w, ha, hrun, hlive⟩ := exists_run .default
    (fun w op => w.Legal op ∧ op.Laundering ∧ Careful .default w op)
    (clearGrant 65536 8192) (clearGrant 131072 8192) (clearGrant 262144 65536)
    [.launder 600 [], .pop 131136 none true, .push 600 []]
    (fun w => (w.live 131136).isSome) (by decide +kernel)
  have hmapped : w.Legal (.launder 600 []) := ⟨by simp, List.Pairwise.nil⟩
  exact ⟨a, w, ha, hrun, laundered_apart (by decide) ha hrun hmapped rfl, hlive⟩

/-- The sized free parks a laundered block that its ring still names: `push` hands it out, and
so does the next `launder`. -/
theorem laundered_alias : ¬∀ (g₁ g₂ g₃ : Grant) (a : Tiers) (ops : List Op) (w : World) (op : Op),
    Distinct g₁ g₂ g₃ → start g₁ g₂ g₃ = some a →
    Run (fun w op => w.Legal op ∧ op.Laundering) (World.next .default) (World.init a) ops w →
    w.Legal op → Unaliased .default w op := by
  intro hall
  obtain ⟨a, w, ha, hrun, hend⟩ := exists_run .default (fun w op => w.Legal op ∧ op.Laundering)
    (clearGrant 65536 8192) (clearGrant 131072 8192) (clearGrant 262144 65536)
    [.launder 600 [], .pop 131136 (some 600) true, .push 600 []]
    (fun w => w.live 131136 = some ⟨600, false⟩ &&
      (launder .default w.arena 600 []).toOption.any fun r => r.1 = some ⟨131136, 640⟩)
    (by decide +kernel)
  simp only [Bool.and_eq_true, decide_eq_true_eq] at hend
  obtain ⟨r, hr, hc⟩ := Option.any_eq_true _ _ |>.1 hend.2
  obtain ⟨o, a'⟩ := r
  have hrun' : launder .default w.arena 600 [] = .ok (some ⟨131136, 640⟩, a') := by
    cases hl : launder .default w.arena 600 [] with
    | error x => simp [hl, Except.toOption] at hr
    | ok x =>
      simp only [hl, Except.toOption, Option.some.injEq] at hr
      rw [hr, ← of_decide_eq_true hc]
  have hmapped : w.Legal (.launder 600 []) := ⟨by simp, List.Pairwise.nil⟩
  have halias := hall _ _ _ a _ w (.launder 600 []) (by decide) ha hrun hmapped _ _ hrun' 131136
    _ hend.1 rfl
  exact halias.1 rfl

end Laundering
end AbcMalloc.Arena
