import AbcMalloc.Arena.Contents
import AbcMalloc.Arena.Aligned
import AbcMalloc.Arena.Overlap

/-! Clients that read what they wrote. `resize` moves a block with `memcpy`, which reads the old
block while the new one is in use. -/
namespace AbcMalloc.Arena
open Function Foundation

/-! ## Copies -/

def load (a : Tiers) (x : ℕ) : Option Cell :=
  match dispatch a x with
  | none => none
  | some (t, pos) => (a t).idx[pos]?.map fun e => t.cell e.sheet.book x

section Model
variable (cfg : Config) (a : Tiers)

/-- `memcpy` of `n` bytes to the block at `dst`. `last` is what becomes of the cell in which the
copy ends. -/
def memcpy (dst src n : ℕ) (last : Cell) : Tiers :=
  copyCells cfg dst (fun i => if 32 * i + 32 ≤ n then (load a (src + 32 * i)).getD last else last)
    ((n + 31) / 32) a

def copySize (oldSize newSz preserve : ℕ) : ℕ := min (min oldSize newSz) preserve

def resizeCopy (p newSz preserve : ℕ) (last : Cell) (grants : List Grant) :
    Except Halt (Option Chunk × Tiers) :=
  if isCached a p then .ok (none, a)
  else
    let oldSize := sizeOfAlloc cfg a p
    if oldSize = 0 then .ok (none, a)
    else if newSz ≤ oldSize ∧ oldSize / 2 < newSz then .ok (some ⟨p, newSz⟩, a)
    else do
      let (c, a) ← push cfg a newSz grants
      match c with
      | none => .ok (none, a)
      | some c => do
        let a := memcpy cfg a c.ptr p (copySize oldSize newSz preserve) last
        let (_, a) ← pop cfg a p none true
        .ok (some c, a)

end Model

section Copies
variable {cfg : Config} {a a' : Tiers} {U : Active} {t : TierId} {p q b n i j m x : ℕ} {h : Held}
  {v c : Cell} {gs : List Grant}

theorem Mem.store_cell (m : Mem) (x : ℕ) : m.store x (m.cell x) = m := by
  simp [Mem.store, Mem.cell]

theorem TierId.store_cell (s : t.Heap) (hc : t.cell s x = c) : t.params.book.store s x c = s := by
  subst hc
  cases t
  all_goals exact congrArg (fun m => { s with mem := m }) (Mem.store_cell _ _)

/-- Writing what is there. -/
theorem Handle.store_self (hI : Inv a U) (hh : Handle cfg a U q h t b n)
    (hc : AllEntries (Stores b (b + 32 * j) c) a) : store cfg a q j c = a := by
  obtain ⟨i, e, hd, he, hcov⟩ := hh.dispatch hI
  have hsame : t.params.book.store e.sheet.book (blockPtr cfg t q + 32 * j) c = e.sheet.book := by
    rw [hh.blockPtr_eq]
    exact t.store_cell _ (hc t e (List.mem_of_getElem? he) hcov)
  have hset : (a t).setSheet i e.sheet = a t := by
    have hidx : ((a t).idx.modify i fun y => { y with sheet := e.sheet }) = (a t).idx := by
      apply List.ext_getElem?
      intro k
      rw [List.getElem?_modify]
      by_cases hk : i = k
      · subst hk
        simp [he]
      · simp [hk]
    unfold Tier.setSheet
    rw [hidx]
  unfold store
  rw [hd]
  simp only
  rw [modify_eq_setSheet he fun s => { s with
    book := t.params.book.store s.book (blockPtr cfg t q + 32 * j) c }]
  simp only [hsame]
  rw [hset, update_eq_self]

theorem Handle.stores_copyCells_of_ne (hI : Inv a U) (hh : Handle cfg a U p h t b n)
    (data : ℕ → Cell) (hv : AllEntries (Stores b x v) a) :
    ∀ m, 32 * m ≤ n - 32 → (∀ i < m, x ≠ b + 32 * i) →
      AllEntries (Stores b x v) (Arena.copyCells cfg p data m a) := by
  intro m
  induction m with
  | zero => exact fun _ _ => hv
  | succ m ih =>
    intro hm hne
    have hu := hh.copyCells hI data m (by omega)
    obtain ⟨f, hf, hfb⟩ := hh.covered
    have hh' := hh.congr rfl ⟨f, by rw [hu.frames]; exact hf, hfb⟩ hu.caches.parked.1
    apply hh'.stores_store hu.inv
    · exact fun he => absurd he (hne m (Nat.lt_succ_self m))
    · exact fun _ => ih (by omega) fun i hi => hne i (by omega)

theorem Handle.copyCells_more (hI : Inv a U) (hh : Handle cfg a U p h t b n) {data : ℕ → Cell}
    {m : ℕ} : ∀ k, m ≤ k → 32 * k ≤ n - 32 →
      (∀ i, m ≤ i → i < k → AllEntries (Stores b (b + 32 * i) (data i)) a) →
      Arena.copyCells cfg p data k a = Arena.copyCells cfg p data m a := by
  intro k hmk
  induction k, hmk using Nat.le_induction with
  | base => exact fun _ _ => rfl
  | succ k hmk ih =>
    intro hk hdata
    have hprev := ih (by omega) fun i hi hik => hdata i hi (by omega)
    have hu := hh.copyCells hI data m (by omega)
    obtain ⟨f, hf, hfb⟩ := hh.covered
    have hh' := hh.congr rfl ⟨f, by rw [hu.frames]; exact hf, hfb⟩ hu.caches.parked.1
    show store cfg (Arena.copyCells cfg p data k a) p k (data k) = _
    rw [hprev]
    apply hh'.store_self hu.inv
    apply hh.stores_copyCells_of_ne hI data (hdata k hmk (Nat.lt_succ_self k)) m (by omega)
    intro i hi
    omega

theorem copyCells_congr {data data' : ℕ → Cell} (hdata : ∀ i < m, data i = data' i) :
    copyCells cfg p data m a = copyCells cfg p data' m a := by
  induction m with
  | zero => rfl
  | succ m ih =>
    show store cfg _ p m (data m) = store cfg _ p m (data' m)
    rw [ih fun i hi => hdata i (by omega), hdata m (Nat.lt_succ_self m)]

theorem used_size_mod {s : t.Heap} {L : Ledger} {f : ℕ} (hrep : t.Rep s L)
    (hb : L.used b = some (n, f)) : n % 32 = 0 := by
  have htlsf : ∀ {h : Tlsf.Heap}, OrRefused tlsfRefused Tlsf.TlsfRep h L → n % 32 = 0 := by
    rintro h (⟨A, hG, rfl⟩ | ⟨-, -, hV⟩)
    · exact hG.phys.size_mod (Tlsf.used_eq_some.1 hb).1
    · rw [hV.used] at hb
      exact absurd hb (by simp)
  have hbuddy : ∀ {h : Buddy.Heap}, OrRefused buddyRefused Buddy.BuddyRep h L → n % 32 = 0 := by
    rintro h (⟨A, hG, rfl⟩ | ⟨-, -, hV⟩)
    · obtain ⟨o, hA⟩ := Buddy.used_eq_some.1 hb
      have hmin := hG.toCore.min_ge
      have hlog : 5 ≤ h.ctl.minLog := by
        by_contra hlt
        have := Nat.pow_le_pow_right (show 0 < 2 by norm_num) (show h.ctl.minLog ≤ 4 by omega)
        omega
      rw [(hG.size hA).1]
      exact Nat.mod_eq_zero_of_dvd ((pow_dvd_pow 2 hlog).trans (Buddy.min_dvd_orderSize h.ctl o))
    · rw [hV.used] at hb
      exact absurd hb (by simp)
  cases t
  · exact htlsf hrep
  · exact htlsf hrep
  all_goals exact hbuddy hrep

theorem Handle.size_mod (hI : Inv a U) (hh : Handle cfg a U p h t b n) : n % 32 = 0 := by
  obtain ⟨i, e, -, he, hcov⟩ := hh.dispatch hI
  obtain ⟨L, hL⟩ := (hI.tiers t).entry_holds he
  obtain ⟨c, f, rfl, hu, -, -⟩ := hL.used t.refines hcov hh.active
  exact used_size_mod hL.rep hu

/-! Without canaries a pointer is the start of its block. -/

theorem Handle.ptr_eq (hoff : cfg.redzone = false) (hh : Handle cfg a U p h t b n) : p = b := by
  rw [← hh.blockPtr_eq, Arena.blockPtr_eq hoff]

theorem Handle.sizeOfAlloc_off (hoff : cfg.redzone = false) (hI : Inv a U)
    (hh : Handle cfg a U p h t b n) : sizeOfAlloc cfg a p = n - 32 := by
  rw [hh.sizeOfAlloc_eq hI, canaries_eq_false hoff]
  rfl

/-- The cells of a block are those behind its pointer. -/
theorem Handle.load_eq (hoff : cfg.redzone = false) (hI : Inv a U)
    (hh : Handle cfg a U p h t b n) (hi : 32 * i + 32 ≤ n - 32) :
    load a (p + 32 * i) = some v ↔ AllEntries (Stores b (b + 32 * i) v) a := by
  obtain rfl := hh.ptr_eq hoff
  obtain ⟨k, e, hd, hdp, -⟩ := hh.dispatch_inner hI (p := p + 32 * i) (by omega) (by omega)
  rw [← hh.peek_eq hI, load, peek, hd, hdp]
  simp only [Arena.blockPtr_eq hoff]

theorem Handle.exists_load (hoff : cfg.redzone = false) (hI : Inv a U)
    (hh : Handle cfg a U p h t b n) (hi : 32 * i + 32 ≤ n - 32) :
    ∃ v, load a (p + 32 * i) = some v := by
  obtain ⟨v, hv⟩ := hh.exists_peek hI i
  exact ⟨v, (hh.load_eq hoff hI hi).2 ((hh.peek_eq hI).1 hv)⟩

theorem Handle.load_push (hoff : cfg.redzone = false) {sz : ℕ} {o : Option Chunk} (hI : Inv a U)
    (hh : Handle cfg a U p h t b n) (hplain : h.temporal = false) (hgs : Mapped a gs)
    (hi : 32 * i + 32 ≤ n - 32) (hrun : push cfg a sz gs = .ok (o, a')) :
    load a' (p + 32 * i) = load a (p + 32 * i) := by
  obtain ⟨v, hv⟩ := hh.exists_peek hI i
  have hv' := (hh.peek_push hI hplain hgs hi hrun).trans hv
  have hspec := (push_spec hI cfg hgs).ok hrun
  rw [(hh.load_eq hoff hI hi).2 ((hh.peek_eq hI).1 hv)]
  cases o with
  | none =>
    obtain ⟨hI', hsame, hgrows⟩ := hspec
    obtain ⟨f, hf, hfb⟩ := hh.covered
    have hkept := hh.congr rfl ⟨f, hgrows t f hf, hfb⟩ hsame.parked.1
    exact (hkept.load_eq hoff hI' hi).2 ((hkept.peek_eq hI').1 hv')
  | some u =>
    obtain ⟨d, U', rfl, hg⟩ := hspec
    have hkept := (hg.keeps_held hI (canaries_ofSize cfg sz) (by simp) hh hplain).2
    exact (hkept.load_eq hoff hg.inv hi).2 ((hkept.peek_eq hg.inv).1 hv')

def copied (a : Tiers) (dst src n : ℕ) (last : Cell) (i : ℕ) : Cell :=
  if 32 * i + 32 ≤ n then (load a (src + 32 * i)).getD last
  else if 32 * i < n then last else (load a (dst + 32 * i)).getD last

/-- Behind the bytes that are copied nothing changes, as if the whole block had been written. -/
theorem Handle.memcpy_eq (hoff : cfg.redzone = false) (hI : Inv a U)
    (hh : Handle cfg a U q h t b n) {k : ℕ} {last : Cell} (hk : k ≤ sizeOfAlloc cfg a q) :
    memcpy cfg a q p k last =
      Arena.copyCells cfg q (copied a q p k last) (sizeOfAlloc cfg a q / 32) a := by
  have hsize := hh.sizeOfAlloc_off hoff hI
  have hmod := hh.size_mod hI
  have hwithin := hh.within
  rw [hh.copyCells_more hI (m := (k + 31) / 32) _ (by omega) (by omega)]
  · apply copyCells_congr
    intro i hi
    unfold copied
    rw [if_pos (show 32 * i < k by omega)]
  · intro i hi hik
    obtain ⟨v, hv⟩ := hh.exists_load hoff hI (i := i) (by omega)
    rw [copied, if_neg (by omega), if_neg (by omega), hv]
    exact (hh.load_eq hoff hI (by omega)).1 hv

/-- `resize` with its copy is `resize` with the cells that it copies. -/
theorem Handle.resizeCopy_eq (hoff : cfg.redzone = false) (newSz preserve : ℕ) (last : Cell)
    (hI : Inv a U) (hh : Handle cfg a U p h t b n) (hplain : h.temporal = false)
    (hgs : Mapped a gs) : ∃ data, resizeCopy cfg a p newSz preserve last gs =
        Arena.resize cfg a p newSz data gs ∧
      ∀ i, 32 * i + 32 ≤ copySize (sizeOfAlloc cfg a p) newSz preserve →
        load a (p + 32 * i) = some (data i) := by
  have hsize := hh.sizeOfAlloc_off hoff hI
  have hle : copySize (sizeOfAlloc cfg a p) newSz preserve ≤ min (n - 32) newSz := by
    rw [← hsize]
    exact min_le_left _ _
  generalize hk : copySize (sizeOfAlloc cfg a p) newSz preserve = k at hle
  have hloads : ∀ i, 32 * i + 32 ≤ k →
    load a (p + 32 * i) = some ((load a (p + 32 * i)).getD last) := by
    intro i hi
    obtain ⟨v, hv⟩ := hh.exists_load hoff hI (i := i) (by omega)
    simp [hv]
  cases hpush : push cfg a newSz gs with
  | error x =>
    refine ⟨fun i => (load a (p + 32 * i)).getD last, ?_, hloads⟩
    simp [resizeCopy, Arena.resize, hpush, bind, Except.bind]
  | ok r =>
    obtain ⟨o, a₁⟩ := r
    cases o with
    | none =>
      refine ⟨fun i => (load a (p + 32 * i)).getD last, ?_, hloads⟩
      simp [resizeCopy, Arena.resize, hpush, bind, Except.bind]
    | some u =>
      obtain ⟨d, U₁, rfl, hg⟩ := (push_spec hI cfg hgs).ok hpush
      dsimp only at hg
      obtain ⟨m, hnew⟩ := hg.handle hI (canaries_ofSize cfg newSz) (by simp)
      have hfit := (hnew.sizeOfAlloc_le hg.inv).1
      have henough := push_enough hoff hI hgs hpush
      have hcopy : memcpy cfg a₁ (rzApply cfg newSz d).ptr p k last = _ :=
        hnew.memcpy_eq hoff hg.inv (by dsimp only at hfit; omega)
      apply Exists.intro (copied a₁ (rzApply cfg newSz d).ptr p k last)
      constructor
      · simp only [resizeCopy, Arena.resize, hpush, bind, Except.bind, hk, hcopy]
      · intro i hi
        rw [copied, if_pos hi, hh.load_push hoff hI hplain hgs (by omega) hpush]
        exact hloads i hi

end Copies

/-! ## Clients that read -/

/-- A client with what it knows of its chunks: the cells that it wrote, or that `resize` copied
for it, since the pointer was handed out. -/
structure Reader where
  world : World
  notes : ℕ → ℕ → Option Cell

inductive Call
  | plain (op : Op)
  | resize (p newSz preserve : ℕ) (last : Cell) (gs : List Grant)

def World.moved (cfg : Config) (w : World) (p newSz : ℕ) : Option Chunk × Tiers → World
  | (none, a) => { w with arena := a }
  | (some c, a) =>
    if c.ptr = p then { w with arena := a, live := update w.live p (some ⟨c.len, false⟩) }
    else (w.receive cfg false (.ofSize (rzInflate cfg newSz)) c a).release p (true, a)

/-! A step that resizes, by its result. -/
section Moved
variable {cfg : Config} {w : World} {p newSz : ℕ} {u : Option Chunk × Tiers}

theorem World.step_moved {data : ℕ → Cell} {gs : List Grant}
    (hrun : Arena.resize cfg w.arena p newSz data gs = .ok u) :
    w.step cfg (.resize p newSz data gs) = .ok (w.moved cfg p newSz u) := by
  obtain ⟨o, a⟩ := u
  cases o with
  | none => simp [World.step, World.moved, hrun, bind, Except.bind]
  | some c =>
    simp only [World.step, World.moved, hrun, bind, Except.bind]
    split_ifs <;> rfl

theorem World.moved_arena : (w.moved cfg p newSz u).arena = u.2 := by
  obtain ⟨o, a⟩ := u
  cases o with
  | none => rfl
  | some c =>
    simp only [World.moved]
    split_ifs <;> rfl

theorem World.moved_live_self {d : Chunk} (hd : u.1 = some d) :
    (w.moved cfg p newSz u).live d.ptr = some ⟨d.len, false⟩ := by
  obtain ⟨o, a⟩ := u
  obtain rfl : o = some d := hd
  simp only [World.moved]
  split_ifs with hp
  · rw [hp]
    exact update_self ..
  · simp [World.release, World.receive, update_of_ne hp]

theorem World.moved_live_of {q : ℕ} {h : Held} (hlive : w.live q = some h)
    (hq : q = p → u.1 = none) (hfresh : ∀ d ∈ u.1, d.ptr = p ∨ w.live d.ptr = none) :
    (w.moved cfg p newSz u).live q = some h := by
  obtain ⟨o, a⟩ := u
  cases o with
  | none => exact hlive
  | some d =>
    have hqp : q ≠ p := fun hqp => absurd (hq hqp) (by simp)
    simp only [World.moved]
    split_ifs with hp
    · simpa [update_of_ne hqp] using hlive
    · have hqd : q ≠ d.ptr := by
        rintro rfl
        have hnone := (hfresh d rfl).resolve_left hp
        rw [hlive] at hnone
        exact absurd hnone (by simp)
      simpa [World.release, World.receive, update_of_ne hqp, update_of_ne hqd] using hlive

end Moved

namespace Reader

def init (a : Tiers) : Reader := ⟨.init a, fun _ _ => none⟩

/-- What the client knows after an operation. A chunk that is handed out may hold anything. -/
def noted (cfg : Config) (r : Reader) : Op → ℕ → ℕ → Option Cell
  | .push sz gs =>
    match push cfg r.world.arena sz gs with
    | .ok (some c, _) => update r.notes c.ptr fun _ => none
    | _ => r.notes
  | .launder sz gs =>
    match launder cfg r.world.arena sz gs with
    | .ok (some c, _) => update r.notes c.ptr fun _ => none
    | _ => r.notes
  | .write p i c => update r.notes p (update (r.notes p) i (some c))
  | _ => r.notes

def carried (r : Reader) (p n : ℕ) : Option Chunk → ℕ → ℕ → Option Cell
  | none => r.notes
  | some c =>
    if c.ptr = p then r.notes
    else update r.notes c.ptr fun i => if 32 * i + 32 ≤ n then r.notes p i else none

def step (cfg : Config) (r : Reader) : Call → Except Halt Reader
  | .plain op => do
    let w ← r.world.step cfg op
    .ok ⟨w, r.noted cfg op⟩
  | .resize p newSz preserve last gs => do
    let u ← resizeCopy cfg r.world.arena p newSz preserve last gs
    .ok ⟨r.world.moved cfg p newSz u,
      r.carried p (copySize (sizeOfAlloc cfg r.world.arena p) newSz preserve) u.1⟩

def next (cfg : Config) (r : Reader) (call : Call) : Option Reader := (r.step cfg call).toOption

def Legal (cfg : Config) (r : Reader) : Call → Prop
  | .plain op => r.world.Legal op ∧ Careful cfg r.world op ∧ op.resizes = false
  | .resize p _ _ _ gs =>
    ((r.world.live p).any fun h => !h.temporal) = true ∧ Mapped r.world.arena gs

instance (cfg : Config) (r : Reader) (call : Call) : Decidable (r.Legal cfg call) :=
  match call with
  | .plain _ => inferInstanceAs (Decidable (_ ∧ _ ∧ _ = false))
  | .resize .. => inferInstanceAs (Decidable (_ = true ∧ _))

end Reader

def Knows (a : Tiers) (U : Active) (p i : ℕ) (c : Cell) : Prop :=
  ∃ n k, U p = some (n, k) ∧ 32 * i + 32 ≤ n - 32 ∧ AllEntries (Stores p (p + 32 * i) c) a

structure Reader.Good (cfg : Config) (r : Reader) (U : Active) : Prop where
  sound : Sound cfg r.world U
  knows : ∀ {p h i c}, r.world.live p = some h → r.notes p i = some c → Knows r.world.arena U p i c

section Readers
variable {cfg : Config} {r r' : Reader} {w w' : World} {a a' : Tiers} {U U' : Active} {t : TierId}
  {p q b n i j : ℕ} {h : Held} {c : Cell} {d : Chunk} {op : Op} {temporal : Bool} {sz : ℕ}

theorem rzApply_ptr_off (hoff : cfg.redzone = false) (sz : ℕ) (d : Chunk) : (rzApply cfg sz d).ptr =
    d.ptr := by
  simp [rzApply, rzActive, hoff]

structure Resized (cfg : Config) (w : World) (U : Active) (p newSz copy : ℕ)
    (u : Option Chunk × Tiers) (U' : Active) : Prop where
  sound : Sound cfg (w.moved cfg p newSz u) U'
  fresh : ∀ c ∈ u.1, c.ptr = p ∨ w.live c.ptr = none
  enough : ∀ c ∈ u.1, newSz ≤ c.len
  /-- Blocks that were live and were not moved. -/
  active : ∀ {q h}, w.live q = some h → (q = p → ∀ c ∈ u.1, c.ptr = p) → U' q = U q
  stores : ∀ {q h n i v}, w.live q = some h → (q = p → ∀ c ∈ u.1, c.ptr = p) →
    U q = some (n, h.temporal) → 32 * i + 32 ≤ n - 32 →
    AllEntries (Stores q (q + 32 * i) v) w.arena → AllEntries (Stores q (q + 32 * i) v) u.2
  copied : ∀ c ∈ u.1, c.ptr ≠ p → ∀ {i v}, 32 * i + 32 ≤ copy →
    load w.arena (p + 32 * i) = some v → AllEntries (Stores c.ptr (c.ptr + 32 * i) v) u.2

theorem Sound.resizeCopy (hoff : cfg.redzone = false) (hS : Sound cfg w U)
    (hlive : w.live p = some h) (hplain : h.temporal = false) {newSz preserve : ℕ} {last : Cell}
    {gs : List Grant} (hgs : Mapped w.arena gs) {u : Option Chunk × Tiers}
    (hrun : Arena.resizeCopy cfg w.arena p newSz preserve last gs = .ok u) :
    ∃ U', Resized cfg w U p newSz (copySize (sizeOfAlloc cfg w.arena p) newSz preserve) u U' := by
  obtain ⟨t, b, n, hh⟩ := hS.held hlive
  obtain rfl := hh.ptr_eq hoff
  obtain ⟨data, hcopy, hdata⟩ := hh.resizeCopy_eq hoff newSz preserve last hS.inv hplain hgs
  rw [hcopy] at hrun
  have hothers : ∀ {q h' n i v}, w.live q = some h' → q ≠ p → U q = some (n, h'.temporal) →
      32 * i + 32 ≤ n - 32 → AllEntries (Stores q (q + 32 * i) v) w.arena →
      AllEntries (Stores q (q + 32 * i) v) u.2 := by
    intro q h' n i v hlive' hqp hU hi hv
    obtain ⟨s, b, m, hq⟩ := hS.held hlive'
    obtain rfl := hq.ptr_eq hoff
    rw [hq.active, Option.some.injEq, Prod.mk.injEq] at hU
    have hlegal : w.Legal (.resize p newSz data gs) := ⟨by simp [hlive], hgs⟩
    have harena : (w.moved cfg p newSz u).arena = u.2 := World.moved_arena
    rw [← harena]
    apply hS.step_stores hlegal _ hq
      (by simp [Op.names, Ne.symm hqp]) (by omega) hv (World.step_moved hrun)
    intro h'' hh''
    rw [hlive] at hh''
    exact Option.some.inj hh'' ▸ hplain
  have hspec := (hh.resize hS.inv hplain data hgs).ok hrun
  have hcont := hh.resize_contents hS.inv hplain hgs hrun
  obtain ⟨o, a⟩ := u
  cases o with
  | none =>
    obtain ⟨hI', hsame, hgrows⟩ := hspec
    refine ⟨U, hS.idle hI' (fun _ => hsame.parked.1) hgrows, by simp, by simp, fun _ _ => rfl, ?_,
      by simp⟩
    intro q h' m i v hlive' _ hU hi hv
    by_cases hqp : q = p
    · subst hqp
      rw [hlive, Option.some.injEq] at hlive'
      rw [hh.active, Option.some.injEq, Prod.mk.injEq] at hU
      obtain ⟨f, hf, hfb⟩ := hh.covered
      have hh' := hh.congr rfl ⟨f, hgrows t f hf, hfb⟩ hsame.parked.1
      exact (hh'.peek_eq hI').1 ((hcont i (by omega)).trans ((hh.peek_eq hS.inv).2 hv))
    · exact hothers hlive' hqp hU hi hv
  | some d =>
    rcases hspec with ⟨rfl, ha, hn⟩ | ⟨d, a₁, U₁, U', rfl, hg, hF⟩
    · obtain rfl : a = w.arena := ha
      refine ⟨U, ?_, by simp, by simp, fun _ _ => rfl, fun _ _ _ _ hv => hv, by simp⟩
      simp only [World.moved, if_true]
      exact hS.refit hh hplain hn
    · have hcan := canaries_ofSize cfg newSz
      obtain ⟨hne, hkept⟩ := hg.keeps_held hS.inv hcan (by simp) hh hplain
      have hdone := (hS.receive hg hcan (by simp)).release hkept hF
      have hptr := rzApply_ptr_off hoff newSz d
      have henough := hg.enough rfl
      have hlen : newSz ≤ (rzApply cfg newSz d).len := by
        simpa [rzApply, rzActive, rzInflate, hoff] using henough
      have hsound : Sound cfg (w.moved cfg p newSz (some (rzApply cfg newSz d), a)) U' := by
        simp only [World.moved, if_neg hne.symm]
        exact ⟨hdone.inv, hdone.held⟩
      obtain ⟨m, hnew⟩ := hg.handle hS.inv hcan (by simp)
      have hunheld : ∀ {q h'}, w.live q = some h' → q ≠ d.ptr := by
        intro q h' hlive'
        obtain ⟨s, b, k, hq⟩ := hS.held hlive'
        rw [← hptr]
        exact hg.not_held hnew hS.inv hq
      refine ⟨U', hsound, ?_, ?_, ?_, ?_, ?_⟩
      · simp only [Option.mem_def, Option.some.injEq]
        rintro _ rfl
        right
        by_contra hsome
        obtain ⟨h', hlive'⟩ := Option.ne_none_iff_exists'.1 hsome
        exact hunheld hlive' hptr
      · simp only [Option.mem_def, Option.some.injEq]
        rintro _ rfl
        exact hlen
      · intro q h' hlive' hmoved
        have hqp : q ≠ p := fun hqp => hne.symm (hmoved hqp _ rfl)
        exact (hF.others q hqp).trans (hg.others q (hunheld hlive'))
      · intro q h' k i v hlive' hmoved
        exact hothers hlive' fun hqp => hne.symm (hmoved hqp _ rfl)
      · simp only [Option.mem_def, Option.some.injEq]
        rintro _ rfl - i v hi hv
        rcases hcont with ⟨hsame, -⟩ | ⟨-, hcont⟩
        · exact absurd hsame hne.symm
        obtain ⟨s, b, k, hq⟩ := hsound.held (World.moved_live_self rfl)
        obtain rfl := hq.ptr_eq hoff
        rw [World.moved_arena] at hq
        have hsmall : copySize (sizeOfAlloc cfg w.arena p) newSz preserve ≤ newSz :=
          (min_le_left _ _).trans (min_le_right _ _)
        have hload := (hdata i hi).symm.trans hv
        rw [Option.some.injEq] at hload
        rw [← hload]
        exact (hq.peek_eq hF.inv).1 (hcont i (by omega))

namespace Reader.Good

theorem handle (hoff : cfg.redzone = false) (hG : Good cfg r U) (hlive : r.world.live p = some h) :
    ∃ t n, Handle cfg r.world.arena U p h t p n := by
  obtain ⟨t, b, n, hh⟩ := hG.sound.held hlive
  obtain rfl := hh.ptr_eq hoff
  exact ⟨t, n, hh⟩

/-- What the client knows of a block that an operation does not name is still there. -/
theorem bystander (hoff : cfg.redzone = false) (hG : Good cfg r U) (hlegal : r.world.Legal op)
    (hreg : Regular cfg r.world op) (hstep : r.world.step cfg op = .ok w')
    (hlive : r.world.live p = some h) (hnote : r.notes p i = some c) (hop : op.names ≠ some p) :
    AllEntries (Stores p (p + 32 * i) c) w'.arena := by
  obtain ⟨n, k, hU, hi, hc⟩ := hG.knows hlive hnote
  obtain ⟨t, m, hh⟩ := hG.handle hoff hlive
  rw [hh.active, Option.some.injEq, Prod.mk.injEq] at hU
  exact hG.sound.step_stores hlegal hreg hh hop (by omega) hc hstep

theorem idle (hG : Good cfg r U) (hI : Inv a U) (hpark : ∀ x, Parked a x → Parked r.world.arena x)
    (hgrows : Grows r.world.arena a) (hkeep : ∀ {p h i c}, r.world.live p = some h →
      r.notes p i = some c → AllEntries (Stores p (p + 32 * i) c) a) :
    Good cfg ⟨{ r.world with arena := a }, r.notes⟩ U where
  sound := hG.sound.idle hI hpark hgrows
  knows hlive hnote := by
    obtain ⟨n, k, hU, hi, -⟩ := hG.knows hlive hnote
    exact ⟨n, k, hU, hi, hkeep hlive hnote⟩

theorem receive (hoff : cfg.redzone = false) (hG : Good cfg r U)
    (hg : Given r.world.arena U temporal t (rzInflate cfg sz) d a U')
    (hcan : canaries cfg t = rzActive cfg sz) (hkeep : ∀ {p h i c}, r.world.live p = some h →
      r.notes p i = some c → AllEntries (Stores p (p + 32 * i) c) a) :
    Good cfg ⟨r.world.receive cfg temporal t (rzApply cfg sz d) a,
      update r.notes (rzApply cfg sz d).ptr fun _ => none⟩ U' where
  sound := hG.sound.receive hg hcan fun _ => by simp [rzActive, hoff]
  knows {p h i c} hlive hnote := by
    have hptr := rzApply_ptr_off hoff sz d
    have hne : p ≠ d.ptr := by
      rintro rfl
      simp [hptr] at hnote
    simp only [World.receive, hptr, update_of_ne hne] at hlive hnote
    obtain ⟨n, k, hU, hi, -⟩ := hG.knows hlive hnote
    exact ⟨n, k, (hg.others p hne).trans hU, hi, hkeep hlive hnote⟩

theorem release (hoff : cfg.redzone = false) (hG : Good cfg r U) (hlive : r.world.live q = some h)
    (hh : Handle cfg r.world.arena U q h t b n) {o : Bool × Tiers}
    (ho : (o.1 = false ∧ o.2 = r.world.arena) ∨
      (o.1 = true ∧ ∃ U', Freed r.world.arena U b o.2 U'))
    (hkeep : ∀ {p h i c}, p ≠ q → r.world.live p = some h →
      r.notes p i = some c → AllEntries (Stores p (p + 32 * i) c) o.2) :
    ∃ U', Good cfg ⟨r.world.release q o, r.notes⟩ U' := by
  obtain ⟨ok, a⟩ := o
  rcases ho with ⟨rfl, rfl⟩ | ⟨rfl, U', hF⟩
  · exact ⟨U, hG⟩
  · refine ⟨U', hG.sound.release hh hF, ?_⟩
    intro p h' i c hlive' hnote
    obtain rfl := hh.ptr_eq hoff
    have hne : p ≠ q := by
      rintro rfl
      simp [World.release] at hlive'
    simp only [World.release, if_true, update_of_ne hne] at hlive'
    obtain ⟨n, k, hU, hi, -⟩ := hG.knows hlive' hnote
    exact ⟨n, k, (hF.others p hne).trans hU, hi, hkeep hne hlive' hnote⟩

theorem write (hoff : cfg.redzone = false) (hG : Good cfg r U)
    (hlegal : r.world.Legal (.write q j c)) :
    Good cfg ⟨{ r.world with arena := store cfg r.world.arena q j c },
      update r.notes q (update (r.notes q) j (some c))⟩ U := by
  obtain ⟨h, hlive, hj⟩ := Option.any_eq_true _ _ |>.1 hlegal
  have hj := of_decide_eq_true hj
  obtain ⟨hI, hpark, hgrows⟩ := hG.sound.stores c hlive hj
  refine ⟨hG.sound.idle hI hpark hgrows, ?_⟩
  intro p h' i c' hlive' hnote
  obtain ⟨t, n, hh⟩ := hG.handle hoff hlive
  have hwithin := hh.within
  by_cases hpq : p = q
  · subst hpq
    simp only [update_self] at hnote
    by_cases hij : i = j
    · subst hij
      simp only [update_self, Option.some.injEq] at hnote
      exact ⟨n, _, hh.active, by omega,
        hh.stores_store hG.sound.inv c (fun _ => hnote.symm) fun hne => absurd rfl hne⟩
    · rw [update_of_ne hij] at hnote
      obtain ⟨m, k, hU, hi, hc⟩ := hG.knows hlive hnote
      exact ⟨m, k, hU, hi,
        hh.stores_store hG.sound.inv c (fun he => absurd he (by omega)) fun _ => hc⟩
  · simp only [update_of_ne hpq] at hnote
    obtain ⟨m, k, hU, hi, -⟩ := hG.knows hlive' hnote
    refine ⟨m, k, hU, hi, hG.bystander hoff hlegal trivial rfl hlive' hnote ?_⟩
    simp [Op.names, Ne.symm hpq]

theorem plain (hoff : cfg.redzone = false) (hG : Good cfg r U) (hlegal : r.world.Legal op)
    (hcare : Careful cfg r.world op) (hop : op.resizes = false)
    (hstep : r.world.step cfg op = .ok w') : ∃ U', Good cfg ⟨w', r.noted cfg op⟩ U' := by
  have hkeep : ∀ {p h i c}, op.names ≠ some p → r.world.live p = some h → r.notes p i = some c →
      AllEntries (Stores p (p + 32 * i) c) w'.arena := fun hop hlive hnote =>
    hG.bystander hoff hlegal (regular_of_careful hcare) hstep hlive hnote hop
  cases op with
  | push sz gs =>
    obtain ⟨o, a, hrun, rfl⟩ := World.step_push hstep
    have hspec := (push_spec hG.sound.inv cfg hlegal).ok hrun
    cases o with
    | none =>
      simp only [noted, hrun]
      exact ⟨U,
        hG.idle hspec.1 (fun _ => hspec.2.1.parked.1) hspec.2.2 (hkeep (by simp [Op.names]))⟩
    | some u =>
      obtain ⟨d, U', rfl, hg⟩ := hspec
      simp only [noted, hrun]
      exact ⟨U', hG.receive hoff hg (canaries_ofSize cfg sz) (hkeep (by simp [Op.names]))⟩
  | launder sz gs =>
    obtain ⟨o, a, hrun, rfl⟩ := World.step_launder hstep
    have hspec := (launder_spec hG.sound.inv cfg hlegal).ok hrun
    cases o with
    | none =>
      simp only [noted, hrun]
      exact ⟨U,
        hG.idle hspec.1 (fun _ => hspec.2.1.parked.1) hspec.2.2 (hkeep (by simp [Op.names]))⟩
    | some u =>
      obtain ⟨d, U', rfl, hg⟩ := hspec
      simp only [noted, hrun]
      exact ⟨U', hG.receive hoff hg (canaries_ofLaunder cfg sz) (hkeep (by simp [Op.names]))⟩
  | pop q len intact =>
    obtain ⟨h, hlive⟩ := Option.isSome_iff_exists.1 hlegal
    obtain ⟨t, b, n, hh⟩ := hG.sound.held hlive
    obtain ⟨i, e, hd, he, hcov⟩ := hh.dispatch hG.sound.inv
    have hspec := pop_spec hG.sound.inv cfg len intact hd he (by rwa [hh.blockPtr_eq])
      (by rw [hh.blockPtr_eq]; exact hh.active) (by rw [hh.blockPtr_eq]; exact hh.out)
      fun hk => hcare h hlive hk _ hd
    obtain ⟨o, hrun, rfl⟩ := World.step_pop hstep
    have ho := hspec.ok hrun
    rw [hh.blockPtr_eq] at ho
    exact hG.release hoff hlive hh ho fun hne => hkeep (by simp [Op.names, Ne.symm hne])
  | tsPop q len intact =>
    obtain ⟨h, hlive⟩ := Option.isSome_iff_exists.1 hlegal
    obtain ⟨t, b, n, hh⟩ := hG.sound.held hlive
    obtain ⟨i, e, hd, he, hcov⟩ := hh.dispatch hG.sound.inv
    have hactive := hh.active
    rw [hcare h hlive] at hactive
    have hspec := tsPop_spec hG.sound.inv cfg len intact hd he (by rwa [hh.blockPtr_eq])
      (by rw [hh.blockPtr_eq]; exact hactive) (by rw [hh.blockPtr_eq]; exact hh.out)
    obtain ⟨o, hrun, rfl⟩ := World.step_tsPop hstep
    have ho := hspec.ok hrun
    rw [hh.blockPtr_eq] at ho
    refine hG.release hoff hlive hh (ho.imp_right ?_) fun hne =>
      hkeep (by simp [Op.names, Ne.symm hne])
    rintro ⟨hok, U', hF, -⟩
    exact ⟨hok, U', hF⟩
  | resize p newSz data gs => exact absurd hop (by simp [Op.resizes])
  | freeze p =>
    obtain rfl := Except.ok.inj hstep
    obtain ⟨hI, hidx, hpark⟩ := hG.sound.inv.freeze p
    have hgrows : Grows r.world.arena (Arena.freeze r.world.arena p) :=
      .of_frames fun t => by rw [Tier.frames, hidx, Tier.frames]
    exact ⟨U, hG.idle hI hpark hgrows (hkeep (by simp [Op.names]))⟩
  | resetPage p =>
    obtain rfl := Except.ok.inj hstep
    obtain ⟨hreset, hrel⟩ := resetPage_of_none (a := r.world.arena) (p := p) hcare
    simp only [hreset, hrel, Bool.false_eq_true, if_false]
    exact ⟨U, hG⟩
  | write q j c =>
    obtain rfl := Except.ok.inj hstep
    exact ⟨U, hG.write hoff hlegal⟩

theorem resize (hoff : cfg.redzone = false) (hG : Good cfg r U) (hlive : r.world.live p = some h)
    (hplain : h.temporal = false) {newSz preserve : ℕ} {last : Cell} {gs : List Grant}
    (hgs : Mapped r.world.arena gs) {u : Option Chunk × Tiers}
    (hrun : resizeCopy cfg r.world.arena p newSz preserve last gs = .ok u) :
    ∃ U', Good cfg ⟨r.world.moved cfg p newSz u,
      r.carried p (copySize (sizeOfAlloc cfg r.world.arena p) newSz preserve) u.1⟩ U' := by
  obtain ⟨U', hR⟩ := hG.sound.resizeCopy hoff hlive hplain hgs hrun
  refine ⟨U', hR.sound, ?_⟩
  intro q h' i c hlive' hnote
  obtain ⟨s, b, m, hq⟩ := hR.sound.held hlive'
  obtain rfl := hq.ptr_eq hoff
  show ∃ n k, _ ∧ _ ∧ AllEntries _ (World.moved _ _ _ _ _).arena
  rw [World.moved_arena]
  -- blocks that stay keep what is known of them
  have hstay : ∀ {q h'}, r.world.live q = some h' → r.notes q i = some c →
      (q = p → ∀ d ∈ u.1, d.ptr = p) → Knows u.2 U' q i c := by
    intro q h' hlive' hnote hmoved
    obtain ⟨n, k, hU, hi, hc⟩ := hG.knows hlive' hnote
    obtain ⟨t, m, hh⟩ := hG.handle hoff hlive'
    rw [hh.active, Option.some.injEq, Prod.mk.injEq] at hU
    exact ⟨m, _, (hR.active hlive' hmoved).trans hh.active, by omega,
      hR.stores hlive' hmoved hh.active (by omega) hc⟩
  obtain ⟨o, a⟩ := u
  cases o with
  | none => exact hstay hlive' hnote (by simp)
  | some d =>
    by_cases hd : d.ptr = p
    · simp only [World.moved, carried, if_pos hd] at hlive' hnote
      by_cases hqp : q = p
      · subst hqp
        exact hstay hlive hnote (by simp [hd])
      · rw [update_of_ne hqp] at hlive'
        exact hstay hlive' hnote fun h => absurd h hqp
    · simp only [World.moved, carried, if_neg hd, World.release, if_true,
        World.receive] at hlive' hnote
      have hqp : q ≠ p := by
        rintro rfl
        simp at hlive'
      rw [update_of_ne hqp] at hlive'
      by_cases hqd : q = d.ptr
      · subst hqd
        simp only [update_self, Option.some.injEq] at hlive' hnote
        subst hlive'
        split_ifs at hnote with hi
        obtain ⟨n, k, hU, hi', hc⟩ := hG.knows hlive hnote
        obtain ⟨t, l, hh⟩ := hG.handle hoff hlive
        rw [hh.active, Option.some.injEq, Prod.mk.injEq] at hU
        have hload := (hh.load_eq hoff hG.sound.inv (by omega)).2 hc
        have henough := hR.enough d rfl
        have hsmall : copySize (sizeOfAlloc cfg r.world.arena p) newSz preserve ≤ newSz :=
          (min_le_left _ _).trans (min_le_right _ _)
        have hwithin := hq.within
        exact ⟨m, _, hq.active, by dsimp only at hwithin; omega, hR.copied d rfl hd hi hload⟩
      · rw [update_of_ne hqd] at hlive' hnote
        exact hstay hlive' hnote fun h => absurd h hqp

theorem step (hoff : cfg.redzone = false) (hG : Good cfg r U) {call : Call}
    (hlegal : r.Legal cfg call) (hstep : r.step cfg call = .ok r') : ∃ U', Good cfg r' U' := by
  cases call with
  | plain op =>
    obtain ⟨hop, hcare, hplain⟩ := hlegal
    cases hrun : r.world.step cfg op with
    | error x => simp [Reader.step, hrun, bind, Except.bind] at hstep
    | ok w =>
      simp only [Reader.step, hrun, bind, Except.bind, Except.ok.injEq] at hstep
      exact hstep ▸ hG.plain hoff hop hcare hplain hrun
  | resize p newSz preserve last gs =>
    obtain ⟨h, hlive, hplain⟩ := Option.any_eq_true _ _ |>.1 hlegal.1
    cases hrun : resizeCopy cfg r.world.arena p newSz preserve last gs with
    | error x => simp [Reader.step, hrun, bind, Except.bind] at hstep
    | ok u =>
      simp only [Reader.step, hrun, bind, Except.bind, Except.ok.injEq] at hstep
      exact hstep ▸ hG.resize hoff hlive (by simpa using hplain) hlegal.2 hrun

end Reader.Good

theorem ok_of_toOption {ε α : Type*} {e : Except ε α} {x : α} (h : e.toOption = some x) :
    e = .ok x := by
  cases e with
  | error y => exact absurd h (by simp [Except.toOption])
  | ok y => exact congrArg Except.ok (Option.some.inj h)

theorem reader_good (hoff : cfg.redzone = false) {g₁ g₂ g₃ : Grant} (hg : Distinct g₁ g₂ g₃)
    (ha : start g₁ g₂ g₃ = some a) {calls : List Call}
    (hrun : Run (Reader.Legal cfg) (Reader.next cfg) (.init a) calls r) :
    ∃ U, Reader.Good cfg r U := by
  apply hrun.invariant fun r => ∃ U, Reader.Good cfg r U
  · rintro r call r' ⟨U, hG⟩ hlegal hnext
    exact hG.step hoff hlegal (ok_of_toOption hnext)
  · exact ⟨_, sound_init cfg hg ha, fun hp => absurd hp (by simp [Reader.init, World.init])⟩

end Readers

theorem exists_reader (cfg : Config) (g₁ g₂ g₃ : Grant) (calls : List Call) (P : Reader → Bool)
    (h : ((start g₁ g₂ g₃).any fun a =>
      (exec (Reader.Legal cfg) (Reader.next cfg) (.init a) calls).any P) = true) :
    ∃ a r, start g₁ g₂ g₃ = some a ∧ Run (Reader.Legal cfg) (Reader.next cfg) (.init a) calls r ∧
      P r = true := by
  obtain ⟨a, ha, hexec⟩ := Option.any_eq_true _ _ |>.1 h
  obtain ⟨r, hr⟩ := exists_run_of_exec (Reader.Legal cfg) (Reader.next cfg) hexec
  exact ⟨a, r, ha, hr⟩

section Runs
variable {cfg : Config} {r : Reader} {a : Tiers} {p i : ℕ} {h : Held} {c : Cell}

/-- Blocks are cut, merged, parked, shared by `launder`, tombstoned and moved around them: clients
read what they wrote, also after `resize`. -/
theorem clients_read_back (hoff : cfg.redzone = false) {g₁ g₂ g₃ : Grant} (hg : Distinct g₁ g₂ g₃)
    (ha : start g₁ g₂ g₃ = some a) {calls : List Call}
    (hrun : Run (Reader.Legal cfg) (Reader.next cfg) (.init a) calls r)
    (hlive : r.world.live p = some h) (hnote : r.notes p i = some c) :
    load r.world.arena (p + 32 * i) = some c := by
  obtain ⟨U, hG⟩ := reader_good hoff hg ha hrun
  obtain ⟨t, n, hh⟩ := hG.handle hoff hlive
  obtain ⟨m, k, hU, hi, hc⟩ := hG.knows hlive hnote
  rw [hh.active, Option.some.injEq, Prod.mk.injEq] at hU
  exact (hh.load_eq hoff hG.sound.inv (by omega)).2 hc

/-- A block that moves to another tier, and its old place, written by the next client. -/
theorem clients_read_back_moved : ∃ a r,
    start (clearGrant 65536 8192) (clearGrant 131072 8192) (clearGrant 262144 65536) = some a ∧
    Run (Reader.Legal .default) (Reader.next .default) (.init a)
      [.plain (.push 100 []), .plain (.write 65600 2 ⟨1, 2, 3, 4, 5⟩),
        .resize 65600 700 100 ⟨0, 0, 0, 0, 0⟩ [], .plain (.push 100 []),
        .plain (.write 65600 2 ⟨6, 7, 8, 9, 10⟩)] r ∧
    load r.world.arena (131136 + 32 * 2) = some ⟨1, 2, 3, 4, 5⟩ ∧
    load r.world.arena (65600 + 32 * 2) = some ⟨6, 7, 8, 9, 10⟩ := by
  obtain ⟨a, r, ha, hrun, hend⟩ := exists_reader .default (clearGrant 65536 8192)
    (clearGrant 131072 8192) (clearGrant 262144 65536)
    [.plain (.push 100 []), .plain (.write 65600 2 ⟨1, 2, 3, 4, 5⟩),
      .resize 65600 700 100 ⟨0, 0, 0, 0, 0⟩ [], .plain (.push 100 []),
      .plain (.write 65600 2 ⟨6, 7, 8, 9, 10⟩)]
    (fun r => r.world.live 131136 = some ⟨736, false⟩ ∧ r.world.live 65600 = some ⟨160, false⟩ ∧
      r.notes 131136 2 = some ⟨1, 2, 3, 4, 5⟩ ∧ r.notes 65600 2 = some ⟨6, 7, 8, 9, 10⟩)
    (by decide +kernel)
  obtain ⟨h₁, h₂, h₃, h₄⟩ := of_decide_eq_true hend
  exact ⟨a, r, ha, hrun, clients_read_back rfl (by decide) ha hrun h₁ h₃,
    clients_read_back rfl (by decide) ha hrun h₂ h₄⟩

/-- `resize` in any state that a client reaches: a null pointer means that nothing moved, any other
result is as long as asked for, is no pointer that someone else holds, and starts with the cells
that were to be preserved. No other block changes its size or its contents. -/
theorem resize_preserves (hoff : cfg.redzone = false) {g₁ g₂ g₃ : Grant} (hg : Distinct g₁ g₂ g₃)
    (ha : start g₁ g₂ g₃ = some a) {calls : List Call}
    (hrun : Run (Reader.Legal cfg) (Reader.next cfg) (.init a) calls r)
    (hlive : r.world.live p = some h) (hplain : h.temporal = false) {newSz preserve : ℕ}
    {last : Cell} {gs : List Grant} (hgs : Mapped r.world.arena gs) {u : Option Chunk × Tiers}
    (hresize : resizeCopy cfg r.world.arena p newSz preserve last gs = .ok u) :
    (∀ d ∈ u.1, newSz ≤ d.len ∧ d.len ≤ sizeOfAlloc cfg u.2 d.ptr ∧
      (d.ptr = p ∨ r.world.live d.ptr = none) ∧
      ∀ i, 32 * i + 32 ≤ copySize (sizeOfAlloc cfg r.world.arena p) newSz preserve →
        load u.2 (d.ptr + 32 * i) = load r.world.arena (p + 32 * i)) ∧
      ∀ q h', r.world.live q = some h' → (q = p → u.1 = none) →
        sizeOfAlloc cfg u.2 q = sizeOfAlloc cfg r.world.arena q ∧
          ∀ i, 32 * i + 32 ≤ sizeOfAlloc cfg r.world.arena q →
            load u.2 (q + 32 * i) = load r.world.arena (q + 32 * i) := by
  obtain ⟨U, hG⟩ := reader_good hoff hg ha hrun
  obtain ⟨U', hR⟩ := hG.sound.resizeCopy hoff hlive hplain hgs hresize
  have hI := hG.sound.inv
  have hI' := hR.sound.inv
  rw [World.moved_arena] at hI'
  have hend : ∀ {q h'}, (r.world.moved cfg p newSz u).live q = some h' →
      ∃ s m, Handle cfg u.2 U' q h' s q m := by
    intro q h' hq
    obtain ⟨s, b, m, hq⟩ := hR.sound.held hq
    obtain rfl := hq.ptr_eq hoff
    rw [World.moved_arena] at hq
    exact ⟨s, m, hq⟩
  -- a block that was not moved
  have hstay : ∀ {q h' h''}, r.world.live q = some h' → (q = p → ∀ d ∈ u.1, d.ptr = p) →
      (r.world.moved cfg p newSz u).live q = some h'' →
      sizeOfAlloc cfg u.2 q = sizeOfAlloc cfg r.world.arena q ∧
        ∀ i, 32 * i + 32 ≤ sizeOfAlloc cfg r.world.arena q →
          load u.2 (q + 32 * i) = load r.world.arena (q + 32 * i) := by
    intro q h' h'' hq hmoved hq'
    obtain ⟨t, n, hold⟩ := hG.handle hoff hq
    obtain ⟨s, m, hnew⟩ := hend hq'
    have hU := hnew.active
    rw [hR.active hq hmoved, hold.active, Option.some.injEq, Prod.mk.injEq] at hU
    rw [hnew.sizeOfAlloc_off hoff hI', hold.sizeOfAlloc_off hoff hI, hU.1]
    refine ⟨rfl, fun i hi => ?_⟩
    obtain ⟨v, hv⟩ := hold.exists_load hoff hI (i := i) (by omega)
    rw [hv, hnew.load_eq hoff hI' (by omega)]
    exact hR.stores hq hmoved hold.active (by omega) ((hold.load_eq hoff hI (by omega)).1 hv)
  constructor
  · intro d hd
    obtain ⟨s, m, hnew⟩ := hend (World.moved_live_self hd)
    have hfit := (hnew.sizeOfAlloc_le hI').1
    refine ⟨hR.enough d hd, hfit, hR.fresh d hd, fun i hi => ?_⟩
    have hbound : copySize (sizeOfAlloc cfg r.world.arena p) newSz preserve ≤
        min (sizeOfAlloc cfg r.world.arena p) newSz := min_le_left _ _
    by_cases hdp : d.ptr = p
    · have hself : (r.world.moved cfg p newSz u).live d.ptr = some ⟨d.len, false⟩ :=
        World.moved_live_self hd
      rw [hdp] at hself ⊢
      have hall : ∀ d' ∈ u.1, d'.ptr = p := by
        intro d' hd'
        rw [Option.mem_def, hd, Option.some.injEq] at hd'
        rw [← hd', hdp]
      exact (hstay hlive (fun _ => hall) hself).2 i (by omega)
    · obtain ⟨t, n, hold⟩ := hG.handle hoff hlive
      have hsize := hold.sizeOfAlloc_off hoff hI
      have henough := hR.enough d hd
      have hwithin := hnew.within
      dsimp only at hwithin
      obtain ⟨v, hv⟩ := hold.exists_load hoff hI (i := i) (by omega)
      rw [hv, hnew.load_eq hoff hI' (by omega)]
      exact hR.copied d hd hdp hi hv
  · intro q h' hq hqp
    apply hstay hq
    · intro h d hd
      rw [hqp h] at hd
      exact absurd hd (by simp)
    · exact World.moved_live_of hq hqp hR.fresh

theorem resize_preserves_moved : ∃ a r u,
    start (clearGrant 65536 8192) (clearGrant 131072 8192) (clearGrant 262144 65536) = some a ∧
    Run (Reader.Legal .default) (Reader.next .default) (.init a)
      [.plain (.push 100 []), .plain (.write 65600 2 ⟨1, 2, 3, 4, 5⟩)] r ∧
    resizeCopy .default r.world.arena 65600 700 (2 ^ 64 - 1) ⟨0, 0, 0, 0, 0⟩ [] = .ok u ∧
    u.1 = some ⟨131136, 736⟩ ∧
    load u.2 (131136 + 32 * 2) = load r.world.arena (65600 + 32 * 2) := by
  obtain ⟨a, r, ha, hrun, hend⟩ := exists_reader .default (clearGrant 65536 8192)
    (clearGrant 131072 8192) (clearGrant 262144 65536)
    [.plain (.push 100 []), .plain (.write 65600 2 ⟨1, 2, 3, 4, 5⟩)]
    (fun r => r.world.live 65600 = some ⟨160, false⟩ ∧ Mapped r.world.arena [] ∧
      sizeOfAlloc .default r.world.arena 65600 = 160 ∧
      (resizeCopy .default r.world.arena 65600 700 (2 ^ 64 - 1) ⟨0, 0, 0, 0, 0⟩ []).toOption.any
        (fun u => u.1 = some ⟨131136, 736⟩) = true) (by decide +kernel)
  obtain ⟨hlive, hgs, hsize, hresize⟩ := of_decide_eq_true hend
  obtain ⟨u, hu, hu₁⟩ := Option.any_eq_true _ _ |>.1 hresize
  have hu₁ := of_decide_eq_true hu₁
  have hok := ok_of_toOption hu
  have hend := resize_preserves rfl (by decide) ha hrun hlive rfl hgs hok
  refine ⟨a, r, u, ha, hrun, hok, hu₁, ?_⟩
  exact (hend.1 _ hu₁).2.2.2 2 (by rw [hsize]; decide)

end Runs
end AbcMalloc.Arena
