import AbcMalloc.Arena.Clients

/-! The index of the sheets stays exact, and the dispatch of a live pointer finds the sheet whose
list allocated it, as long as no sheet is given back through `reset_page`. -/
namespace AbcMalloc.Arena
open Function Foundation

/-- What the doctor checks about the index, and that live pointers resolve to their sheet. -/
structure IndexExact (w : World) : Prop where
  range : ∀ t, ∀ e ∈ (w.arena t).idx, e.lo < e.hi
  sorted : ∀ t, (w.arena t).idx.Pairwise fun e e' => e.hi ≤ e'.lo
  disjoint : ∀ t s, t ≠ s → ∀ e ∈ (w.arena t).idx, ∀ e' ∈ (w.arena s).idx,
    e.hi ≤ e'.lo ∨ e'.hi ≤ e.lo
  sheet : ∀ t, ∀ e ∈ (w.arena t).idx, e.sheet.addr = e.lo ∧ e.sheet.addrEnd = e.hi
  resolves : ∀ {p h}, w.live p = some h →
    ∃ t i, dispatch w.arena p = some (t, i) ∧ w.home p = some (t, (w.arena t).loAt i)

/-- The recorded home of every active block, parked ones included. -/
structure Homed (cfg : Config) (w : World) (U : Active) : Prop where
  home : ∀ {t f b v}, f ∈ (w.arena t).frames → f.Covers b → U b = some v →
    w.home (userPtr cfg t b) = some (t, f.lo)
  /-- Blocks with canaries are larger than these. -/
  room : ∀ {t f b n k}, f ∈ (w.arena t).frames → f.Covers b → U b = some (n, k) →
    canaries cfg t = true → 64 ≤ n

section Homes
variable {cfg : Config} {w : World} {a : Tiers} {U U' : Active} {t s : TierId} {b p sz : ℕ}
  {c : Chunk} {temporal : Bool}

/-- The user pointer of an active block lies in the sheet of the block. -/
theorem Homed.covers (hI : Inv w.arena U) (hH : Homed cfg w U) {f : Frame} {v : ℕ × Bool}
    (hf : f ∈ (w.arena t).frames) (hfb : f.Covers b) (hU : U b = some v) :
    f.Covers (userPtr cfg t b) := by
  obtain ⟨n, k⟩ := v
  obtain ⟨i, e, he, rfl⟩ := Tier.exists_entry hf
  obtain ⟨L, hL⟩ := (hI.tiers t).entry_holds he
  have hext : b + (n - 32) ≤ e.hi := (hL.extent t.refines hfb hU).2
  have hlo : e.lo ≤ b := hfb.1
  unfold userPtr
  split_ifs with hcan
  · have hroom := hH.room hf hfb hU hcan
    constructor
    · show e.lo ≤ b + 16
      omega
    · show b + 16 < e.hi
      omega
  · exact hfb

/-- Sheets and active blocks stay or go together. -/
theorem Homed.shrinks (hH : Homed cfg w U) {live : ℕ → Option Held}
    (hframes : ∀ s, ∀ f ∈ (a s).frames, f ∈ (w.arena s).frames)
    (hU : ∀ b v, U' b = some v → U b = some v) : Homed cfg ⟨a, live, w.home⟩ U' where
  home hf hfb hb := hH.home (hframes _ _ hf) hfb (hU _ _ hb)
  room hf hfb hb := hH.room (hframes _ _ hf) hfb (hU _ _ hb)

/-- Sheets are added. -/
theorem Homed.grows (hI : Inv w.arena U) (hH : Homed cfg w U) (hI' : Inv a U)
    (hgrows : Grows w.arena a) : Homed cfg { w with arena := a } U := by
  -- an active block has a sheet already, and only one
  have hold : ∀ {t f b v}, f ∈ (a t).frames → f.Covers b → U b = some v →
      f ∈ (w.arena t).frames := by
    intro t f b v hf hfb hU
    obtain ⟨s, g, hg, hgb⟩ := hI.covered hU
    obtain ⟨rfl, rfl⟩ := hI'.frame_unique hf (hgrows s g hg) hfb hgb
    exact hg
  constructor
  · intro t f b v hf hfb hU
    exact hH.home (hold hf hfb hU) hfb hU
  · intro t f b n k hf hfb hU
    exact hH.room (hold hf hfb hU) hfb hU

/-- A block that arrives is at home in the sheet that served it, or where it was before it was
parked. -/
theorem Homed.receive (hS : Sound cfg w U) (hH : Homed cfg w U)
    (hg : Given w.arena U temporal t (rzInflate cfg sz) c a U')
    (hcan : canaries cfg t = rzActive cfg sz) (hroom : temporal = true → rzActive cfg sz = false) :
    Homed cfg (w.receive cfg temporal t (rzApply cfg sz c) a) U' := by
  obtain ⟨m, hnew⟩ := hg.handle hS.inv hcan hroom
  obtain ⟨g, hgm, hgc, hgu, -⟩ := hnew.frame hg.inv
  have hptr := rzApply_ptr hcan c
  -- blocks that were active before are in the sheet that they had
  have hold : ∀ {s f b v}, f ∈ (a s).frames → f.Covers b → U b = some v →
      f ∈ (w.arena s).frames := by
    intro s f b v hf hfb hU
    obtain ⟨r, f', hf', hfb'⟩ := hS.inv.covered hU
    obtain ⟨rfl, rfl⟩ := hg.inv.frame_unique hf (hg.grows r f' hf') hfb hfb'
    exact hf'
  constructor
  · intro s f b v hf hfb hU
    by_cases hbc : b = c.ptr
    · subst hbc
      obtain ⟨rfl, rfl⟩ := hg.inv.frame_unique hf hgm hfb hgc
      simp only [World.receive]
      rw [hptr, blockPtr_userPtr]
      split_ifs with hcache
      · obtain ⟨x, hx, hxc⟩ := List.any_eq_true.1 hcache
        obtain ⟨-, n, hn, -⟩ := (hS.inv.tiers s).cached x hx
        rw [of_decide_eq_true hxc] at hn
        exact hH.home (hold hf hfb hn) hfb hn
      · rcases hg.home with ⟨x, hx, hxc⟩ | ⟨e, he, hecov⟩
        · exact absurd (List.any_eq_true.2 ⟨x, hx, decide_eq_true hxc⟩) hcache
        · obtain ⟨-, rfl⟩ := hg.inv.frame_unique (Tier.mem_frames (List.mem_of_getElem? he)) hf
            hecov hfb
          rw [update_self, Tier.Inv.loAt_eq he]
          rfl
    · have hb : U b = some v := by rw [← hg.others b hbc, hU]
      have hf' := hold hf hfb hb
      have hfu := hH.covers hS.inv hf' hfb hb
      have hne : userPtr cfg s b ≠ (rzApply cfg sz c).ptr := by
        intro heq
        rw [heq] at hfu
        obtain ⟨rfl, rfl⟩ := hg.inv.frame_unique hf hgm hfu hgu
        have hblock := congrArg (blockPtr cfg s) heq
        rw [blockPtr_userPtr, hptr, blockPtr_userPtr] at hblock
        exact hbc hblock
      simp only [World.receive]
      split_ifs
      · exact hH.home hf' hfb hb
      · rw [update_of_ne hne]
        exact hH.home hf' hfb hb
  · intro s f b n k hf hfb hU hcans
    by_cases hbc : b = c.ptr
    · subst hbc
      obtain ⟨rfl, rfl⟩ := hg.inv.frame_unique hf hgm hfb hgc
      obtain ⟨n', hn', hlen⟩ := hg.active
      rw [hU] at hn'
      simp only [Option.some.injEq, Prod.mk.injEq] at hn'
      have htf : temporal = false := by
        cases temporal with
        | false => rfl
        | true =>
          rw [hcan, hroom rfl] at hcans
          exact absurd hcans (by decide)
      have henough := hg.enough htf
      have hle := le_rzInflate cfg sz
      rw [← hcan, if_pos hcans] at hle
      omega
    · have hb : U b = some (n, k) := by rw [← hg.others b hbc, hU]
      exact hH.room (hold hf hfb hb) hfb hb hcans

theorem Effect.homed (hS : Sound cfg w U) (hH : Homed cfg w U) {w' : World}
    (heff : Effect cfg w U w' U') : Homed cfg w' U' := by
  cases heff with
  | refused => exact hH
  | idle hI hparked hgrows => exact hH.grows hS.inv hI hgrows
  | receive hg hcan hroom => exact hH.receive hS hg hcan hroom
  | release hlive hh hF => exact hH.shrinks hF.frames fun b v hb => hF.active_of hb

theorem Sound.indexExact (hS : Sound cfg w U) (hH : Homed cfg w U) : IndexExact w := by
  have hgood : ∀ t, ∀ e ∈ (w.arena t).idx, e.frame.Good := fun t e he =>
    (hS.inv.tiers t).good _ (Tier.mem_frames he)
  constructor
  · intro t e he
    exact (hgood t e he).lt
  · intro t
    apply (List.pairwise_map.1 (hS.inv.tiers t).sorted).imp_of_mem
    intro e e' he he' hle
    exact (hgood t e he).hi_le.trans hle
  · intro t s hts e he e' he'
    have h₁ := (hgood t e he).hi_le
    have h₂ := (hgood s e' he').hi_le
    have h₃ := hS.inv.apart hts _ (Tier.mem_frames he) _ (Tier.mem_frames he')
    exact h₃.imp h₁.trans h₂.trans
  · intro t e he
    have h₁ : e.sheet.mem.ptr = e.lo := (hgood t e he).ptr
    have h₂ : e.hi + e.sheet.guard = e.sheet.mem.ptr + e.sheet.mem.len := (hgood t e he).hi
    constructor
    · exact h₁
    · unfold Sheet.addrEnd
      omega
  · intro p h hp
    obtain ⟨t, b, n, hh⟩ := hS.held hp
    obtain ⟨i, e, hd, he, hcov⟩ := hh.dispatch hS.inv
    refine ⟨t, i, hd, ?_⟩
    rw [hh.ptr, hH.home (Tier.mem_frames (List.mem_of_getElem? he)) hcov hh.active,
      Tier.Inv.loAt_eq he]
    rfl

theorem homed_init (cfg : Config) (a : Tiers) : Homed cfg (World.init a) fun _ => none where
  home _ _ hU := absurd hU (by simp)
  room _ _ hU := absurd hU (by simp)

def Op.Indexing : Op → Prop
  | .push _ _ => True
  | .pop _ _ _ => True
  | .tsPop _ _ _ => True
  | .resetPage _ => True
  | .write _ _ _ => True
  | _ => False

instance (op : Op) : Decidable op.Indexing :=
  match op with
  | .push .. => inferInstanceAs (Decidable True)
  | .pop .. => inferInstanceAs (Decidable True)
  | .tsPop .. => inferInstanceAs (Decidable True)
  | .resetPage _ => inferInstanceAs (Decidable True)
  | .write .. => inferInstanceAs (Decidable True)
  | .launder .. => inferInstanceAs (Decidable False)
  | .resize .. => inferInstanceAs (Decidable False)
  | .freeze _ => inferInstanceAs (Decidable False)

theorem Op.Indexing.not_launders {op : Op} (hop : op.Indexing) :
    op.launders = false ∧ op.resizes = false := by
  cases op with
  | launder sz gs => exact hop.elim
  | resize p newSz data gs => exact hop.elim
  | _ => exact ⟨rfl, rfl⟩

/-- In every run that releases no sheet by hand the index is exact. -/
theorem index_exact {g₁ g₂ g₃ : Grant} (hg : Distinct g₁ g₂ g₃) (ha : start g₁ g₂ g₃ = some a)
    {ops : List Op} (hrun : Run (fun w op => w.Legal op ∧ op.Indexing ∧ KeepsSheets w op)
      (World.next cfg) (World.init a) ops w) : IndexExact w := by
  have hinv : w.Plain ∧ ∃ U, Sound cfg w U ∧ Homed cfg w U := by
    apply hrun.invariant fun w => w.Plain ∧ ∃ U, Sound cfg w U ∧ Homed cfg w U
    · rintro w op w' ⟨hw, U, hS, hH⟩ ⟨hlegal, hop, hkeep⟩ hstep
      obtain ⟨hlaunders, hresizes⟩ := hop.not_launders
      have hcare : Careful cfg w op := hw.careful hlaunders (by simp [hresizes]) hkeep
      have hok := next_eq_some.1 hstep
      obtain ⟨U', heff⟩ := (hS.effect hlegal hcare hresizes).ok hok
      exact ⟨hw.step hlaunders hok, U', heff.sound hS, heff.homed hS hH⟩
    · exact ⟨World.plain_init a, _, sound_init cfg hg ha, homed_init cfg a⟩
  obtain ⟨-, U, hS, hH⟩ := hinv
  exact hS.indexExact hH

theorem index_exact_expanded : ∃ a w,
    start (clearGrant 65536 8192) (clearGrant 131072 8192) (clearGrant 262144 65536) = some a ∧
    Run (fun w op => w.Legal op ∧ op.Indexing ∧ KeepsSheets w op) (World.next .default)
      (World.init a) [.resetPage 4096, .push 3000 [], .push 3000 [],
        .push 3000 [clearGrant 16384 8192], .pop 131136 (some 3000) true, .push 2000 [],
        .tsPop 16448 none true] w ∧
    IndexExact w ∧ (w.arena .small).idx.length = 2 := by
  obtain ⟨a, w, ha, hrun, hlen⟩ := exists_run .default
    (fun w op => w.Legal op ∧ op.Indexing ∧ KeepsSheets w op)
    (clearGrant 65536 8192) (clearGrant 131072 8192) (clearGrant 262144 65536)
    [.resetPage 4096, .push 3000 [], .push 3000 [], .push 3000 [clearGrant 16384 8192],
      .pop 131136 (some 3000) true, .push 2000 [], .tsPop 16448 none true]
    (fun w => (w.arena .small).idx.length = 2) (by decide +kernel)
  exact ⟨a, w, ha, hrun, index_exact (by decide) ha hrun, of_decide_eq_true hlen⟩

/-- `reset_page` leaves the entry of the sheet that it gives back: when the kernel maps its range
again for another tier, the pointers of the new sheet are looked up in the old one. -/
theorem reset_page_stale : ¬∀ (g₁ g₂ g₃ : Grant) (a : Tiers) (ops : List Op) (w : World),
    Distinct g₁ g₂ g₃ → start g₁ g₂ g₃ = some a →
    Run (fun w op => w.Legal op ∧ op.Indexing) (World.next .default) (World.init a) ops w →
    IndexExact w := by
  intro hall
  obtain ⟨a, w, ha, hrun, hend⟩ := exists_run .default (fun w op => w.Legal op ∧ op.Indexing)
    (clearGrant 65536 8192) (clearGrant 131072 8192) (clearGrant 262144 65536)
    [.resetPage 65600, .push 3000 [], .push 3000 [], .push 3000 [clearGrant 65536 8192]]
    (fun w => (w.live 65600).isSome && (dispatch w.arena 65600 = some (.precise, 0) &&
      w.home 65600 = some (.small, 65536))) (by decide +kernel)
  simp only [Bool.and_eq_true, decide_eq_true_eq] at hend
  obtain ⟨hlive, hd, hhome⟩ := hend
  obtain ⟨h, hp⟩ := Option.isSome_iff_exists.1 hlive
  obtain ⟨t, i, hd', hhome'⟩ := (hall _ _ _ a _ w (by decide) ha hrun).resolves hp
  rw [hd] at hd'
  rw [hhome] at hhome'
  simp only [Option.some.injEq, Prod.mk.injEq] at hd' hhome'
  rw [← hd'.1] at hhome'
  exact absurd hhome'.1 (by decide)

end Homes
end AbcMalloc.Arena
