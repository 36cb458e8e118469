import AbcMalloc.Arena.Cells
import AbcMalloc.Buddy.Contents
import AbcMalloc.Tlsf.Contents

/-! The contents of blocks in use. The lists behind the tiers preserve them, and so do the
operations of an arena, except for the block that is freed or written. -/
namespace AbcMalloc.Arena
open Function Foundation

/-! ## Lists -/

theorem preserves_orRefused {σ : Type*} {B : Book σ} {fits : ℕ → Bool} {Rep : σ → Ledger → Prop}
    {read : σ → ℕ → Cell} {refused : σ → Prop} (hP : Preserves B fits Rep read) :
    Preserves B fits (OrRefused refused Rep) read := by
  have hno : ∀ {L : Ledger} {b n f}, L.Vacant → L.used b ≠ some (n, f) := by
    intro L b n f hV hb
    rw [hV.used] at hb
    exact absurd hb (by simp)
  constructor
  case allocate =>
    rintro s s' L u c b x (h | ⟨-, -, hV⟩) hfit hrun hx
    · exact hP.allocate h hfit hrun hx
    · obtain ⟨n, f, i, hb, -⟩ := hx
      exact absurd hb (hno hV)
  case temporalAllocate =>
    rintro s s' L u c b x (h | ⟨-, -, hV⟩) hfit hrun hx
    · exact hP.temporalAllocate h hfit hrun hx
    · obtain ⟨n, f, i, hb, -⟩ := hx
      exact absurd hb (hno hV)
  case tombstone =>
    rintro s L b n f a x (h | ⟨-, -, hV⟩) hb hf hx
    · exact hP.tombstone h hb hf hx
    · exact absurd hb (hno hV)
  case deallocate =>
    rintro s L b n f a x (h | ⟨-, -, hV⟩) hb hf hx hab
    · exact hP.deallocate h hb hf hx hab
    · exact absurd hb (hno hV)
  case store => exact hP.store

namespace TierId

def cell (t : TierId) (s : t.Heap) : ℕ → Cell := (t.mem s).cell

theorem preserves (t : TierId) : Preserves t.params.book t.fits t.Rep t.cell := by
  cases t
  · exact preserves_orRefused Tlsf.tlsf_preserves
  · exact preserves_orRefused Tlsf.tlsf_preserves
  all_goals exact preserves_orRefused Buddy.buddy_preserves

end TierId

section Lists
variable {t : TierId} {e : Entry t.Heap} {L : Ledger} {c : Chunk} {b a n f u x : ℕ}

/-- A sheet serves a request: the contents of what was in use are kept. -/
theorem mark_cell {temporal : Bool} {sh : Sheet t.Heap} (hrep : t.Rep e.sheet.book L)
    (hfit : t.fits u = true) (hrun : e.sheet.mark t.params temporal u = .ok (c, sh))
    (hx : L.CellOf t.params.book.header b x) : t.cell sh.book x = t.cell e.sheet.book x := by
  unfold Sheet.mark at hrun
  split_ifs at hrun
  · simp only [Except.ok.injEq, Prod.mk.injEq] at hrun
    rw [← hrun.2]
  · split at hrun
    · exact absurd hrun (by simp)
    · next d h hal =>
      simp only [Except.ok.injEq, Prod.mk.injEq] at hrun
      rw [← hrun.2]
      exact t.preserves.temporalAllocate hrep hfit hal hx
  · split at hrun
    · exact absurd hrun (by simp)
    · next d h hal =>
      simp only [Except.ok.injEq, Prod.mk.injEq] at hrun
      rw [← hrun.2]
      exact t.preserves.allocate hrep hfit hal hx

/-- A sheet takes a block back: the contents of the others are kept. -/
theorem tryRemove_cell {tomb sized ok : Bool} {sh : Sheet t.Heap} (hrep : t.Rep e.sheet.book L)
    (hb : L.used b = some (n, f)) (hf : f ≠ blockTombstone)
    (hrun : e.sheet.tryRemove t.params tomb sized (b + t.params.book.header) = .ok (ok, sh))
    (hx : L.CellOf t.params.book.header a x) (hab : a ≠ b) :
    t.cell sh.book x = t.cell e.sheet.book x := by
  unfold Sheet.tryRemove at hrun
  split_ifs at hrun
  · simp only [Except.ok.injEq, Prod.mk.injEq] at hrun
    rw [← hrun.2]
    exact t.preserves.tombstone hrep hb hf hx
  · simp only [Except.ok.injEq, Prod.mk.injEq] at hrun
    rw [← hrun.2]
    exact t.preserves.deallocate hrep hb (fun hft => absurd hft hf) hx hab

end Lists

/-! ## Arenas -/

/-- The sheet of the block `b` holds `v` in the cell `x`. -/
def Stores (b x : ℕ) (v : Cell) (t : TierId) (e : Entry t.Heap) : Prop :=
  e.frame.Covers b → t.cell e.sheet.book x = v

def Keeps (b n x : ℕ) (v : Cell) (t : TierId) (e : Entry t.Heap) : Prop :=
  e.frame.Covers b → t.cell e.sheet.book x = v ∧ ∃ L c f, t.Rep e.sheet.book L ∧
    b = c + t.params.book.header ∧ L.used c = some (n, f)

section Contents
variable {cfg : Config} {w w' : World} {a a' : Tiers} {U U' : Active} {t s : TierId}
  {p q b b' n n' i j x : ℕ} {h h' : Held} {k : Bool} {v c : Cell}

theorem Keeps.stores (h : AllEntries (Keeps b n x v) a) : AllEntries (Stores b x v) a :=
  fun t e he hcov => (h t e he hcov).1

theorem keeps_of_stores (hI : Inv a U) (hU : U b = some (n, k)) (h : AllEntries (Stores b x v) a) :
    AllEntries (Keeps b n x v) a := by
  intro t e he hcov
  obtain ⟨i, hi⟩ := List.mem_iff_getElem?.1 he
  obtain ⟨L, hL⟩ := (hI.tiers t).entry_holds hi
  obtain ⟨c, f, rfl, hu, -, -⟩ := hL.used t.refines hcov hU
  exact ⟨h t e he hcov, L, c, f, hL.rep, rfl, hu⟩

/-- Whoever leaves a block alone leaves its contents alone. -/
theorem robust_keeps (hU : U b = some (n, k)) (hj : 32 * j + 32 ≤ n - 32) {gs : List Grant}
    (hgs : ∀ g ∈ gs, ¬(g.chunk.ptr ≤ b ∧ b < g.chunk.ptr + g.chunk.len)) :
    Robust (fun y => y = b) (Keeps b n (b + 32 * j) v) U gs where
  mark := by
    rintro t temporal sz e c s hfit hP hrun hcov
    obtain ⟨hv, L, d, f, hrep, rfl, hu⟩ := hP hcov
    obtain ⟨L', hrep', -, hkeep⟩ := mark_calm hrep hfit hrun
    refine ⟨?_, L', d, f, hrep', rfl, hkeep d _ hu⟩
    rw [← hv]
    exact mark_cell hrep hfit hrun ⟨n, f, j, hu, rfl, hj⟩
  fresh g hg t head guard _ hcov := by
    have h₁ : g.chunk.ptr ≤ b := hcov.1
    have h₂ : b < g.chunk.ptr + g.chunk.len - guard := hcov.2
    exact absurd ⟨h₁, by omega⟩ (hgs g hg)
  remove := by
    rintro U' t e L c m f tomb sized ok s hU' hL hu hf hne hP hrun hcov
    have hactive : U' b = some (n, k) := (hU' b rfl).trans hU
    obtain ⟨d, g, rfl, hd, -, -⟩ := hL.used t.refines hcov hactive
    obtain ⟨L', hrep', -, hkeep⟩ := tryRemove_calm hL.rep hu hf hrun
    have hdc : d ≠ c := fun hdc => hne (by rw [hdc])
    refine ⟨?_, L', d, g, hrep', rfl, by rw [hkeep d hdc, hd]⟩
    rw [← (hP hcov).1]
    exact tryRemove_cell hL.rep hu hf hrun ⟨n, g, j, hd, rfl, hj⟩ hdc
  store := by
    rintro U' t e L c m f i v' hU' hL hu hne hi hP hcov
    have hactive : U' b = some (n, k) := (hU' b rfl).trans hU
    obtain ⟨d, g, rfl, hd, -, -⟩ := hL.used t.refines hcov hactive
    refine ⟨?_, L, d, g, t.refines.store v' hL.rep ⟨c, m, f, i, hu, rfl, hi⟩, rfl, hd⟩
    have hdisj := (t.refines.valid hL.rep).disjoint hu hd fun hcd => hne (by rw [hcd])
    rw [← (hP hcov).1]
    show t.cell (t.params.book.store _ _ _) _ = _
    rw [t.preserves.store, update_of_ne (by omega)]

/-- The contents of a block that a client holds and does not name stay as they were. -/
theorem Sound.step_stores (hS : Sound cfg w U) {op : Op} (hlegal : w.Legal op)
    (hreg : Regular cfg w op) (hh : Handle cfg w.arena U q h t b n) (hop : op.names ≠ some q)
    (hj : 32 * j + 32 ≤ n - 32) (hv : AllEntries (Stores b (b + 32 * j) v) w.arena)
    (hstep : w.step cfg op = .ok w') : AllEntries (Stores b (b + 32 * j) v) w'.arena := by
  apply Keeps.stores (n := n)
  apply hS.step_all hlegal _ (robust_keeps hh.active hj (hlegal.mapped.not_covers hS.inv hh.active))
    _ _ (keeps_of_stores hS.inv hh.active hv) hstep
  · rintro p rfl
    exact hreg
  · rintro x rfl
    exact ⟨by rw [hh.active]; simp, hh.out⟩
  · rintro p hp h' s b' n' hh' rfl
    exact hop (by rw [hp, hh'.ptr_unique hS.inv hh])

/-! ## Reading and writing -/

def peek (cfg : Config) (a : Tiers) (p i : ℕ) : Option Cell :=
  match dispatch a p with
  | none => none
  | some (t, pos) => (a t).idx[pos]?.map fun e => t.cell e.sheet.book (blockPtr cfg t p + 32 * i)

theorem Handle.peek_eq (hI : Inv a U) (hh : Handle cfg a U p h t b n) :
    peek cfg a p i = some v ↔ AllEntries (Stores b (b + 32 * i) v) a := by
  obtain ⟨pos, e, hd, he, hcov⟩ := hh.dispatch hI
  simp only [peek, hd, he, hh.blockPtr_eq, Option.map_some, Option.some.injEq]
  constructor
  · intro hv s e' he' hcov'
    obtain ⟨rfl, -⟩ := hI.frame_unique (Tier.mem_frames (List.mem_of_getElem? he))
      (Tier.mem_frames he') hcov hcov'
    obtain ⟨pos', hpos'⟩ := List.mem_iff_getElem?.1 he'
    obtain rfl := (hI.tiers t).unique he hpos' hcov hcov'
    rw [he] at hpos'
    obtain rfl := Option.some.inj hpos'
    exact hv
  · intro hv
    exact hv t e (List.mem_of_getElem? he) hcov

theorem Handle.exists_peek (hI : Inv a U) (hh : Handle cfg a U p h t b n) (i : ℕ) :
    ∃ v, peek cfg a p i = some v := by
  obtain ⟨pos, e, hd, he, -⟩ := hh.dispatch hI
  exact ⟨_, by simp only [peek, hd, he, Option.map_some]; rfl⟩

theorem Handle.stores_store (hI : Inv a U) (hh : Handle cfg a U q h t b n) (c : Cell)
    (hx : x = b + 32 * j → v = c) (hold : x ≠ b + 32 * j → AllEntries (Stores b x v) a) :
    AllEntries (Stores b x v) (store cfg a q j c) := by
  obtain ⟨i, e, hd, he, hcov⟩ := hh.dispatch hI
  have hsheet : t.cell (t.params.book.store e.sheet.book (b + 32 * j) c) x = v := by
    rw [t.preserves.store]
    by_cases hxj : x = b + 32 * j
    · rw [hxj, update_self, hx hxj]
    · rw [update_of_ne hxj]
      exact hold hxj t e (List.mem_of_getElem? he) hcov
  unfold store
  rw [hd]
  simp only
  rw [modify_eq_setSheet he fun s => { s with
    book := t.params.book.store s.book (blockPtr cfg t q + 32 * j) c }, hh.blockPtr_eq]
  intro s e' he' hcov'
  by_cases hs : s = t
  · subst hs
    rw [update_self] at he'
    obtain ⟨k, hk⟩ := List.mem_iff_getElem?.1 he'
    unfold Tier.setSheet at hk
    rw [List.getElem?_modify] at hk
    obtain ⟨e₁, he₁, hee⟩ := Option.map_eq_some_iff.1 hk
    have hcov₁ : e₁.frame.Covers b := by
      split_ifs at hee <;> rwa [← hee] at hcov'
    obtain rfl := (hI.tiers s).unique he he₁ hcov hcov₁
    rw [he] at he₁
    obtain rfl := Option.some.inj he₁
    rw [if_pos rfl] at hee
    rw [← hee]
    exact hsheet
  · rw [update_of_ne hs] at he'
    exact absurd
      (hI.tier_unique (List.mem_map_of_mem he') (Tier.mem_frames (List.mem_of_getElem? he))
      hcov' hcov) hs

theorem Handle.stores_copyCells (hI : Inv a U) (hh : Handle cfg a U p h t b n) (data : ℕ → Cell) :
    ∀ m, 32 * m ≤ n - 32 → ∀ i, i < m →
      AllEntries (Stores b (b + 32 * i) (data i)) (Arena.copyCells cfg p data m a) := by
  intro m
  induction m with
  | zero => exact fun _ i hi => absurd hi (Nat.not_lt_zero i)
  | succ m ih =>
    intro hm i hi
    have hu := hh.copyCells hI data m (by omega)
    obtain ⟨f, hf, hfb⟩ := hh.covered
    have hh' := hh.congr rfl ⟨f, by rw [hu.frames]; exact hf, hfb⟩ hu.caches.parked.1
    show AllEntries _ (store cfg (Arena.copyCells cfg p data m a) p m (data m))
    refine hh'.stores_store hu.inv (data m) (fun he => ?_) fun hne => ih (by omega) i ?_
    · rw [show i = m by omega]
    · have : i ≠ m := fun him => hne (by rw [him])
      omega

theorem Handle.peek_push {sz : ℕ} {gs : List Grant} {o : Option Chunk} (hI : Inv a U)
    (hh : Handle cfg a U p h t b n) (hplain : h.temporal = false) (hgs : Mapped a gs)
    (hi : 32 * i + 32 ≤ n - 32) (hrun : push cfg a sz gs = .ok (o, a')) :
    peek cfg a' p i = peek cfg a p i := by
  obtain ⟨v, hv⟩ := hh.exists_peek hI i
  have hR := robust_keeps (v := v) hh.active hi (hgs.not_covers hI hh.active)
  have hs := push_all (keeps_of_stores hI hh.active ((hh.peek_eq hI).1 hv))
    (fun t hfit e c s => hR.mark hfit) hR.fresh hrun
  have hspec := (push_spec hI cfg hgs).ok hrun
  rw [hv]
  cases o with
  | none =>
    obtain ⟨hI', hsame, hgrows⟩ := hspec
    obtain ⟨f, hf, hfb⟩ := hh.covered
    exact ((hh.congr rfl ⟨f, hgrows t f hf, hfb⟩ hsame.parked.1).peek_eq hI').2 (Keeps.stores hs)
  | some u =>
    obtain ⟨d, U', rfl, hg⟩ := hspec
    have hkept := (hg.keeps_held hI (canaries_ofSize cfg sz) (by simp) hh hplain).2
    exact (hkept.peek_eq hg.inv).2 (Keeps.stores hs)

/-- `resize` fails and leaves the block as it is, keeps it in place, or moves it: then the new
block holds what was copied. -/
theorem Handle.resize_contents {newSz : ℕ} {data : ℕ → Cell} {gs : List Grant} {o : Option Chunk}
    (hI : Inv a U) (hh : Handle cfg a U p h t b n) (hplain : h.temporal = false)
    (hgs : Mapped a gs) (hrun : Arena.resize cfg a p newSz data gs = .ok (o, a')) :
    match o with
    | none => ∀ i, 32 * i + 32 ≤ n - 32 → peek cfg a' p i = peek cfg a p i
    | some u => (u.ptr = p ∧ a' = a) ∨
        u.ptr ≠ p ∧ ∀ i, 32 * i + 32 ≤ u.len → peek cfg a' u.ptr i = some (data i) := by
  unfold Arena.resize at hrun
  rw [isCached_eq_false (hh.not_parked hI)] at hrun
  simp only [Bool.false_eq_true, if_false] at hrun
  split_ifs at hrun
  · simp only [Except.ok.injEq, Prod.mk.injEq] at hrun
    obtain ⟨rfl, rfl⟩ := hrun
    exact fun _ _ => rfl
  · simp only [Except.ok.injEq, Prod.mk.injEq] at hrun
    obtain ⟨rfl, rfl⟩ := hrun
    exact Or.inl ⟨rfl, rfl⟩
  · cases hpush : push cfg a newSz gs with
    | error x =>
      simp only [hpush, bind, Except.bind] at hrun
      exact absurd hrun (by simp)
    | ok r =>
      obtain ⟨o', a₁⟩ := r
      cases o' with
      | none =>
        simp only [hpush, bind, Except.bind, Except.ok.injEq, Prod.mk.injEq] at hrun
        obtain ⟨rfl, rfl⟩ := hrun
        exact fun i hi => hh.peek_push hI hplain hgs hi hpush
      | some u =>
        obtain ⟨d, U₁, rfl, hg⟩ := (push_spec hI cfg hgs).ok hpush
        dsimp only at hg
        obtain ⟨m, hnew⟩ := hg.handle hI (canaries_ofSize cfg newSz) (by simp)
        obtain ⟨hlen, hle, hfit⟩ := hnew.sizeOfAlloc_le hg.inv
        dsimp only at hlen hle hfit
        have hroom : 32 * (sizeOfAlloc cfg a₁ (rzApply cfg newSz d).ptr / 32) ≤ m - 32 := by omega
        have hu := hnew.copyCells hg.inv data _ hroom
        obtain ⟨f, hf, hfb⟩ := hnew.covered
        have hnew' := hnew.congr rfl ⟨f, by rw [hu.frames]; exact hf, hfb⟩ hu.caches.parked.1
        have hbd := hg.ne_of_held hh hplain
        have hne := hg.not_held hnew hI hh
        have hne' := hne
        rw [rzApply_ptr (canaries_ofSize cfg newSz)] at hne'
        have hold := (hg.untouched hu).keeps hI hh hne'
        obtain ⟨a₂, U₂, hpop, hF⟩ := hold.pop hu.inv hplain
        simp only [hpush, hpop, bind, Except.bind, Except.ok.injEq, Prod.mk.injEq] at hrun
        obtain ⟨rfl, rfl⟩ := hrun
        refine Or.inr ⟨hne.symm, fun i hi => ?_⟩
        have hcopied := hnew.stores_copyCells hg.inv data _ hroom i (by omega)
        have hR := robust_keeps (v := data i) hnew'.active (j := i) (by omega)
          fun g (hg : g ∈ ([] : List Grant)) => absurd hg List.not_mem_nil
        have hdone := hR.pop hu.inv (fun _ _ => rfl) hold hbd
          (keeps_of_stores hu.inv hnew'.active hcopied) hpop
        exact ((hF.keeps hu.inv hnew' hbd.symm).peek_eq hF.inv).2 (Keeps.stores hdone)

end Contents
end AbcMalloc.Arena
