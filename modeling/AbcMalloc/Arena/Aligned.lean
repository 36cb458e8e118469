import AbcMalloc.Arena.Cells

/-! `aligned_balloc` and `aligned_free` of `malloc.hpp`. An aligned block is cut from a larger one:
the pointer handed out lies inside of it, and the two words in front of the pointer
(`__aligned_prefix`) name the block. `aligned_free` asks for the pointer itself before it looks at
them, and the answer is read from a header that is not there. -/
namespace AbcMalloc.Arena
open Function Foundation

/-! ## Memory -/

def cellAt (m : Mem) (x : ℕ) : Cell := ⟨m.lo x, m.hi x, m.w1 x, m.w2 x, m.w3 x⟩

/-- The fields of a cell that starts half a cell behind another one. -/
def between (m : Mem) : Mem where
  lo x := m.w2 (x - 16) % 2 ^ 32
  hi x := m.w2 (x - 16) / 2 ^ 32
  w1 x := m.w3 (x - 16)
  w2 x := m.next (x + 16)
  w3 x := m.w1 (x + 16)

/-- What a list sees in front of `p`. Pointers shifted by a canary leave the grid of the pool. -/
def tlsfSeen (h : Tlsf.Heap) (p : ℕ) : Tlsf.Heap :=
  ⟨h.ctl, if p % 32 = 16 then between h.mem else h.mem⟩

def TierId.seenFrom : (t : TierId) → t.Heap → ℕ → t.Heap
  | precise, h, p => tlsfSeen h p
  | small, h, p => tlsfSeen h p
  | medium, h, _ => h
  | large, h, _ => h
  | huge, h, _ => h

/-- Answers from outside of the arena. -/
structure Env where
  /-- `__owner_of` finds an arena. -/
  owned : ℕ → Bool
  /-- `external_is_present` -/
  external : ℕ → Bool
  /-- The canary in front of the pointer is intact. -/
  intact : ℕ → Bool

section Model
variable (cfg : Config) (env : Env) (a : Tiers)

def writeCell (x : ℕ) (f : Cell → Cell) : Tiers :=
  match dispatch a x with
  | none => a
  | some (t, i) =>
    update a t
      { a t with idx := (a t).idx.modify i fun e =>
          { e with sheet := { e.sheet with
              book := t.params.book.store e.sheet.book x (f (cellAt (t.mem e.sheet.book) x)) } } }

/-- The two words in front of `p`. -/
def prefixOf (p : ℕ) : Option (ℕ × ℕ) :=
  match dispatch a (p - 16) with
  | none => none
  | some (t, i) => (a t).idx[i]?.map fun e => t.words e.sheet.book (p - 32)

def nativeAlignment : ℕ := if cfg.redzone then 16 else 32

def balloc (size : ℕ) (gs : List Grant) : Except Halt (Option Chunk × Tiers) :=
  if size = 0 then .ok (none, a) else push cfg a size gs

/-- The first multiple of `alignment` behind the prefix. -/
def alignedPtr (alignment raw : ℕ) : ℕ := Tlsf.alignUp ((raw + 16) % 2 ^ 64) alignment

def alignedBalloc (alignment size : ℕ) (gs : List Grant) : Except Halt (Option Chunk × Tiers) :=
  if alignment = 0 ∨ alignment &&& (alignment - 1) ≠ 0 ∨ size = 0 then .ok (none, a)
  else if alignment ≤ nativeAlignment cfg then balloc cfg a size gs
  else
    let overhead := alignment - 1 + 16
    let total := size + overhead
    if 2 ^ 64 ≤ overhead ∨ 2 ^ 64 ≤ total then .ok (none, a)
    else do
      let (raw, a) ← balloc cfg a total gs
      match raw with
      | none => .ok (none, a)
      | some raw =>
        let p := alignedPtr alignment raw.ptr
        .ok (some ⟨p, raw.len - (p - raw.ptr)⟩,
          writeCell a (p - 32) fun c => { c with w2 := raw.ptr, w3 := p ^^^ raw.ptr })

/-- `present`, for pointers on and off the grid. -/
def presentAt (p : ℕ) : Except Halt Bool :=
  present cfg (fun t => { a t with idx := (a t).idx.map fun e => { e with sheet := { e.sheet with
    book := t.seenFrom e.sheet.book (blockPtr cfg t p) } } }) p

def isPresent (p : ℕ) : Except Halt Bool :=
  if env.external p then .ok true else presentAt cfg a p

def alignedBaseOf (p : ℕ) : Except Halt (Option ℕ) :=
  if !env.owned (p - 16) then .ok none
  else
    match prefixOf a p with
    | none => .error .undefined
    | some (raw, guard) =>
      if p ≤ raw ∨ guard ≠ p ^^^ raw then .ok none
      else do
        let known ← isPresent cfg env a raw
        .ok (if known then some raw else none)

/-- `dealloc`, by the arena that owns the pointer; the answer of the arena is dropped. -/
def dealloc (p : ℕ) : Except Halt Tiers := do
  let (_, a) ← pop cfg a p none (env.intact p)
  .ok a

/-- `aligned_free`, with the pointer that it hands to `dealloc`. A pointer without a prefix
throws. -/
def alignedFree (p : ℕ) : Except Halt (Option ℕ × Tiers) :=
  if p = 0 then .ok (none, a)
  else do
    if ← isPresent cfg env a p then
      let a ← dealloc cfg env a p
      .ok (some p, a)
    else
      match ← alignedBaseOf cfg env a p with
      | some raw => do
        let a ← dealloc cfg env a raw
        .ok (some raw, a)
      | none => .error .abort

end Model

/-- The flags that `is_present` reads in front of `p`. Buddy lists keep no header there. -/
def TierId.flagsBefore : (t : TierId) → t.Heap → ℕ → ℕ
  | precise, h, p => (tlsfSeen h p).mem.hi (p - 32)
  | small, h, p => (tlsfSeen h p).mem.hi (p - 32)
  | medium, _, _ => blockFree
  | large, _, _ => blockFree
  | huge, _, _ => blockFree

/-- What stands in front of `p` does not look like the header of an allocated block. -/
def Quiet (cfg : Config) (a : Tiers) (p : ℕ) : Prop :=
  ∀ r ∈ dispatch a p, ∀ e ∈ (a r.1).idx[r.2]?,
    r.1.flagsBefore e.sheet.book (blockPtr cfg r.1 p) = blockFree ∨
      r.1.flagsBefore e.sheet.book (blockPtr cfg r.1 p) &&& blockTombstone ≠ 0

instance (cfg : Config) (a : Tiers) (p : ℕ) : Decidable (Quiet cfg a p) :=
  inferInstanceAs (Decidable (∀ r ∈ dispatch a p, ∀ e ∈ (a r.1).idx[r.2]?, _))

section Answers
variable {cfg : Config} {env : Env} {a : Tiers} {U : Active} {t : TierId} {e : Entry t.Heap}
  {p raw b n f i : ℕ} {h : Held} {L : Ledger}

theorem dispatch_map (f : (t : TierId) → t.Heap → t.Heap) (p : ℕ) :
    dispatch (fun t => { a t with idx := (a t).idx.map fun e =>
      { e with sheet := { e.sheet with book := f t e.sheet.book } } }) p = dispatch a p := by
  unfold dispatch
  congr 1
  funext t
  unfold Tier.findRange
  have hlo : Tier.loAt { a t with idx := (a t).idx.map fun e =>
      { e with sheet := { e.sheet with book := f t e.sheet.book } } } = (a t).loAt := by
    funext j
    simp only [Tier.loAt, List.getElem?_map]
    cases (a t).idx[j]? <;> rfl
  have hhi : Tier.hiAt { a t with idx := (a t).idx.map fun e =>
      { e with sheet := { e.sheet with book := f t e.sheet.book } } } = (a t).hiAt := by
    funext j
    simp only [Tier.hiAt, List.getElem?_map]
    cases (a t).idx[j]? <;> rfl
  rw [hlo, hhi, List.length_map]

theorem presentAt_eq (hI : Inv a U) (hd : dispatch a p = some (t, i))
    (he : (a t).idx[i]? = some e) : presentAt cfg a p =
      .ok ({ e.sheet with book := t.seenFrom e.sheet.book (blockPtr cfg t p) }.isBlockAllocated
        t.params (blockPtr cfg t p) && !(a t).cache.contains p) := by
  have hempty := (hI.tiers t).not_empty he
  have hd' : dispatch (fun t => { a t with idx := (a t).idx.map fun e => { e with sheet :=
      { e.sheet with book := t.seenFrom e.sheet.book (blockPtr cfg t p) } } }) p = some (t, i) := by
    rw [← hd]
    exact dispatch_map (fun t s => t.seenFrom s (blockPtr cfg t p)) p
  have hzero := t.isAllocated_zero (t.seenFrom e.sheet.book (blockPtr cfg t p))
  have hfind : { e.sheet with book := t.seenFrom e.sheet.book (blockPtr cfg t p) }.find t.params
      (blockPtr cfg t p) = .ok ({ e.sheet with
        book := t.seenFrom e.sheet.book (blockPtr cfg t p) }.isBlockAllocated t.params
          (blockPtr cfg t p)) := by
    unfold Sheet.find
    rw [show Sheet.empty { e.sheet with book := t.seenFrom e.sheet.book (blockPtr cfg t p) } = false
      from hempty]
    by_cases hb : blockPtr cfg t p = 0
    · rw [hb] at hzero ⊢
      simp [Sheet.isBlockAllocated, hzero]
    · simp [hb, Sheet.isBlockAllocated]
  unfold presentAt present locateAt isCached
  rw [if_neg (ptr_ne_zero hI hd), hd']
  simp only [List.getElem?_map, he, Option.map_some, hfind, bind, Except.bind, Option.any_some]

theorem seenFrom_grid (s : t.Heap) (hb : b % 32 = 0) : t.seenFrom s b = s := by
  have htlsf : ∀ h : Tlsf.Heap, tlsfSeen h b = h := by
    intro h
    unfold tlsfSeen
    rw [if_neg (by omega)]
  cases t
  · exact htlsf s
  · exact htlsf s
  all_goals rfl

theorem Handle.presentAt (hgrid : AllEntries Gridded a) (hI : Inv a U)
    (hh : Handle cfg a U raw h t b n) : presentAt cfg a raw = .ok true := by
  obtain ⟨i, e, hd, he, hcov⟩ := hh.dispatch hI
  rw [presentAt_eq hI hd he, hh.blockPtr_eq, seenFrom_grid _ (hh.grid hgrid hI).1]
  obtain ⟨hal, -, -⟩ := (hI.tiers t).reports t.refines he hcov hh.active
  rw [contains_eq_false (hh.not_parked hI)]
  show Except.ok (e.sheet.isBlockAllocated t.params b && !false) = _
  rw [hal]
  rfl

structure Inside (raw len x : ℕ) : Prop where
  grid : 32 ∣ x
  above : raw + 16 ≤ x
  below : x < raw + len

namespace Handle

theorem cell (hgrid : AllEntries Gridded a) (hI : Inv a U) (hh : Handle cfg a U raw h t b n)
    (hx : Inside raw h.len p) : ∃ j, p = b + 32 * j + 32 ∧ 32 * j + 64 ≤ n - 32 := by
  obtain ⟨hb, hn⟩ := hh.grid hgrid hI
  obtain ⟨hg, habove, hbelow⟩ := hx
  have hwithin := hh.within
  have hsub := userPtr_sub cfg t b
  have hle := le_userPtr cfg t b
  rw [← hh.ptr] at hsub hle
  refine ⟨(p - b) / 32 - 1, ?_, ?_⟩ <;> rcases hsub with hsub | hsub <;> omega

theorem dispatch_inner (hI : Inv a U) (hh : Handle cfg a U raw h t b n) (hle : b ≤ p)
    (hlt : p < b + (n - 32)) : ∃ i e, Arena.dispatch a p = some (t, i) ∧
      Arena.dispatch a raw = some (t, i) ∧ (a t).idx[i]? = some e ∧ e.frame.Covers b ∧
      e.frame.Covers p := by
  obtain ⟨f, hf, hfb, hfr, hhi⟩ := hh.frame hI
  obtain ⟨i, e, he, rfl⟩ := Tier.exists_entry hf
  have hp : e.frame.Covers p := ⟨hfb.1.trans hle, lt_of_lt_of_le hlt hhi⟩
  exact ⟨i, e, hI.dispatch_eq_some.2 ⟨e, he, hp⟩, hI.dispatch_eq_some.2 ⟨e, he, hfr⟩, he, hfb, hp⟩

end Handle

/-- Inside a block in use a list without tags takes for a header what stands there. -/
theorem isBlockAllocated_inner {x : ℕ} (hrep : t.Rep e.sheet.book L)
    (hu : L.used b = some (n, f)) (hlo : b + t.params.book.header < x) (hhi : x + 32 ≤ b + n) :
    { e.sheet with book := t.seenFrom e.sheet.book x }.isBlockAllocated t.params x = true ↔
      ¬(t.flagsBefore e.sheet.book x = blockFree ∨
        t.flagsBefore e.sheet.book x &&& blockTombstone ≠ 0) := by
  have htlsf : ∀ {h : Tlsf.Heap} {m : Mem}, OrRefused tlsfRefused Tlsf.TlsfRep h L → b + 32 < x →
      ((Tlsf.isAllocated ⟨h.ctl, m⟩ x && !Tlsf.isTombstoned ⟨h.ctl, m⟩ x) = true ↔
        ¬(m.hi (x - 32) = blockFree ∨ m.hi (x - 32) &&& blockTombstone ≠ 0)) := by
    rintro h m (⟨A, hG, rfl⟩ | ⟨-, -, hV⟩) hlo
    · have hbase := hG.base_ne_zero
      have hlt := hG.phys.base_lt (Tlsf.used_eq_some.1 hu).1
      have hin : Tlsf.inData h.ctl x = true := by
        simp only [Tlsf.inData, decide_eq_true_eq]
        omega
      have hx : x ≠ 0 := by omega
      simp [Tlsf.isAllocated, Tlsf.isTombstoned, hin, hbase, hx]
    · rw [hV.used] at hu
      exact absurd hu (by simp)
  have hbuddy : ∀ {h : Buddy.Heap}, OrRefused buddyRefused Buddy.BuddyRep h L → b < x →
      ((Buddy.isAllocated h x && !Buddy.isTombstoned h x) = true ↔
        ¬(blockFree = 0 ∨ blockFree &&& blockTombstone ≠ 0)) := by
    rintro h (⟨A, hG, rfl⟩ | ⟨-, -, hV⟩) hlo
    · have hno : Buddy.isAllocated h x = false := by
        by_contra hal
        obtain ⟨m, g, hx⟩ := (hG.isAllocated_iff x).1 (Bool.of_not_eq_false hal)
        have hdisj := (hG.ledger_valid).disjoint hu hx (by omega)
        omega
      simp [hno]
    · rw [hV.used] at hu
      exact absurd hu (by simp)
  cases t with
  | precise => exact htlsf hrep hlo
  | small => exact htlsf hrep hlo
  | _ => exact hbuddy hrep hlo

theorem Handle.presentAt_inner (hgrid : AllEntries Gridded a) (hI : Inv a U)
    (hh : Handle cfg a U raw h t b n) (hp : Inside raw h.len p) :
    Arena.presentAt cfg a p = .ok (decide ¬Quiet cfg a p) := by
  obtain ⟨j, hpj, hj⟩ := hh.cell hgrid hI hp
  obtain ⟨i, e, hd, -, he, hcovb, hcov⟩ := hh.dispatch_inner hI (p := p) (by omega) (by omega)
  obtain ⟨L, hL⟩ := (hI.tiers t).entry_holds he
  obtain ⟨c, f, hbc, hu, -, -⟩ := hL.used t.refines hcovb hh.active
  have hQuiet : Quiet cfg a p ↔ (t.flagsBefore e.sheet.book (blockPtr cfg t p) = blockFree ∨
      t.flagsBefore e.sheet.book (blockPtr cfg t p) &&& blockTombstone ≠ 0) := by
    unfold Quiet
    simp only [hd, Option.mem_def, Option.some.injEq, forall_eq', he]
  have habove : b < blockPtr cfg t p ∧ blockPtr cfg t p ≤ p := by
    have habove := hp.above
    have hptr := hh.ptr
    unfold userPtr at hptr
    unfold blockPtr
    split_ifs at hptr ⊢ <;> omega
  have hheader : t.params.book.header ≤ 32 := t.refines.header_le
  have hnot : ¬Parked a p := by
    rintro ⟨s, x, hx, hxp⟩
    obtain ⟨-, m, hm, -⟩ := (hI.tiers s).cached x hx
    rw [hxp] at hm
    rcases hI.blocks_disjoint hh.active hm (by omega) with h₁ | h₁ <;> omega
  rw [presentAt_eq hI hd he, contains_eq_false hnot, Bool.not_false, Bool.and_true,
    Except.ok.injEq, Bool.eq_iff_iff, decide_eq_true_eq, hQuiet]
  exact isBlockAllocated_inner hL.rep hu (by omega) (by omega)

theorem Handle.prefixOf_eq (hgrid : AllEntries Gridded a) (hI : Inv a U)
    (hh : Handle cfg a U raw h t b n) (hp : Inside raw h.len p) {v : ℕ × ℕ}
    (hr : AllEntries (Reads b (p - 32) v) a) : prefixOf a p = some v := by
  obtain ⟨j, hpj, hj⟩ := hh.cell hgrid hI hp
  have habove := hp.above
  have hle := le_userPtr cfg t b
  rw [← hh.ptr] at hle
  obtain ⟨i, e, hd, -, he, hcovb, -⟩ := hh.dispatch_inner hI (p := p - 16) (by omega) (by omega)
  unfold prefixOf
  rw [hd]
  simp only [he, Option.map_some]
  rw [hr t e (List.mem_of_getElem? he) hcovb]

theorem Handle.isPresent_inner (hgrid : AllEntries Gridded a) (hI : Inv a U)
    (hh : Handle cfg a U raw h t b n) (hp : Inside raw h.len p) (hext : env.external p = false) :
    isPresent cfg env a p = .ok (decide ¬Quiet cfg a p) := by
  unfold isPresent
  rw [hh.presentAt_inner hgrid hI hp, hext]
  rfl

theorem Handle.alignedBaseOf_inner (hgrid : AllEntries Gridded a) (hI : Inv a U)
    (hh : Handle cfg a U raw h t b n) (hp : Inside raw h.len p)
    (hr : AllEntries (Reads b (p - 32) (raw, p ^^^ raw)) a) :
    alignedBaseOf cfg env a p = .ok (if env.owned (p - 16) then some raw else none) := by
  have habove := hp.above
  have hraw : isPresent cfg env a raw = .ok true := by
    unfold isPresent
    rw [hh.presentAt hgrid hI, ite_self]
  unfold alignedBaseOf
  rw [hh.prefixOf_eq hgrid hI hp hr]
  cases env.owned (p - 16) with
  | false => rfl
  | true => simp [hraw, bind, Except.bind, show ¬p ≤ raw by omega]

theorem Handle.alignedFree_eq (hgrid : AllEntries Gridded a) (hI : Inv a U)
    (hh : Handle cfg a U raw h t b n) (hplain : h.temporal = false) (hp : Inside raw h.len p)
    (hr : AllEntries (Reads b (p - 32) (raw, p ^^^ raw)) a) (hintact : env.intact raw = true)
    (howned : env.owned (p - 16) = true) (hext : env.external p = false)
    (hquiet : Quiet cfg a p) :
    ∃ a' U', alignedFree cfg env a p = .ok (some raw, a') ∧
      Arena.pop cfg a raw none true = .ok (true, a') ∧ Freed a U b a' U' := by
  have habove := hp.above
  have hno : isPresent cfg env a p = .ok false := by
    rw [hh.isPresent_inner hgrid hI hp hext]
    simp [hquiet]
  have hbase : alignedBaseOf cfg env a p = .ok (some raw) := by
    rw [hh.alignedBaseOf_inner hgrid hI hp hr, howned]
    rfl
  obtain ⟨a', U', hpop, hF⟩ := hh.pop hI hplain
  refine ⟨a', U', ?_, hpop, hF⟩
  unfold alignedFree
  rw [if_neg (by omega)]
  simp [hno, hbase, dealloc, hintact, hpop, bind, Except.bind]

end Answers
/-! ## Writes -/

section Writes
variable {cfg : Config} {a : Tiers} {U : Active} {t s : TierId} {p q raw b b' n n' j : ℕ}
  {h h' : Held} {v : ℕ × ℕ}

/-- A cell of a block is written as its holder would write it. -/
theorem Handle.writeCell (hI : Inv a U) (hh : Handle cfg a U q h t b n) (hj : 32 * j + 32 ≤ n - 32)
    (f : Cell → Cell) : ∃ c, writeCell a (b + 32 * j) f = store cfg a q j (f c) := by
  obtain ⟨i, e, hd, hdq, he, -⟩ := hh.dispatch_inner hI (p := b + 32 * j) (by omega) (by omega)
  refine ⟨cellAt (t.mem e.sheet.book) (b + 32 * j), ?_⟩
  unfold Arena.writeCell store
  rw [hd, hdq]
  simp only [hh.blockPtr_eq]
  rw [modify_eq_setSheet he fun s => ⟨s.mem, s.guard, t.params.book.store s.book (b + 32 * j)
      (f (cellAt (t.mem s.book) (b + 32 * j)))⟩,
    modify_eq_setSheet he fun s => ⟨s.mem, s.guard, t.params.book.store s.book (b + 32 * j)
      (f (cellAt (t.mem e.sheet.book) (b + 32 * j)))⟩]

theorem Handle.untouched_store (hI : Inv a U) (hh : Handle cfg a U q h t b n)
    (hj : 32 * j + 32 ≤ n - 32) (c : Cell) : Untouched a U (store cfg a q j c) := by
  obtain ⟨i, e, hd, he, hcov⟩ := hh.dispatch hI
  obtain ⟨hI', hsame, hrest⟩ := store_spec hI cfg c hd he (by rwa [hh.blockPtr_eq])
    (by rw [hh.blockPtr_eq]; exact hh.active) hj
  exact ⟨hI', hsame, fun s => (hrest s).1, fun s => (hrest s).2⟩

theorem Handle.reads_store (hI : Inv a U) (hh : Handle cfg a U q h t b n) (c : Cell) {x : ℕ}
    (hr : x = b + 32 * j → v = (c.w2, c.w3)) (hold : x ≠ b + 32 * j → AllEntries (Reads b x v) a) :
    AllEntries (Reads b x v) (store cfg a q j c) := by
  obtain ⟨i, e, hd, he, hcov⟩ := hh.dispatch hI
  unfold store
  rw [hd]
  simp only
  rw [modify_eq_setSheet he fun s => { s with
    book := t.params.book.store s.book (blockPtr cfg t q + 32 * j) c }, hh.blockPtr_eq]
  have hsheet : t.words (t.params.book.store e.sheet.book (b + 32 * j) c) x = v := by
    show ((t.mem (t.params.book.store _ _ _)).w2 _, (t.mem (t.params.book.store _ _ _)).w3 _) = v
    rw [mem_store]
    by_cases hx : x = b + 32 * j
    · subst hx
      simp [Mem.store, hr rfl]
    · simp only [Mem.store, update_of_ne hx]
      exact hold hx t e (List.mem_of_getElem? he) hcov
  intro s e' he' hcov'
  by_cases hs : s = t
  · subst hs
    rw [update_self] at he'
    obtain ⟨k, hk⟩ := List.mem_iff_getElem?.1 he'
    unfold Tier.setSheet at hk
    rw [List.getElem?_modify] at hk
    obtain ⟨e₁, he₁, hee⟩ := Option.map_eq_some_iff.1 hk
    have hcov₁ : e₁.frame.Covers b := by
      split_ifs at hee <;> rwa [← hee] at hcov'
    obtain rfl := (hI.tiers s).unique he he₁ hcov hcov₁
    rw [he] at he₁
    obtain rfl := Option.some.inj he₁
    rw [if_pos rfl] at hee
    rw [← hee]
    exact hsheet
  · rw [update_of_ne hs] at he'
    exact absurd
      (hI.tier_unique (List.mem_map_of_mem he') (Tier.mem_frames (List.mem_of_getElem? he))
      hcov' hcov) hs

theorem Handle.reads_store_other (hI : Inv a U) (hh : Handle cfg a U q h t b n)
    (hj : 32 * j + 32 ≤ n - 32) (c : Cell) (hh' : Handle cfg a U raw h' s b' n') (hne : b' ≠ b)
    {i : ℕ} (hi : 32 * i + 32 ≤ n' - 32) (hr : AllEntries (Reads b' (b' + 32 * i) v) a) :
    AllEntries (Reads b' (b' + 32 * i) v) (store cfg a q j c) := by
  have hR : Robust (fun y => y = b') (Worded b' n' (b' + 32 * i) v) U [] :=
    robust_worded hh'.active hi fun g hg => absurd hg List.not_mem_nil
  have hworded := hR.write hI (fun _ _ => rfl) hh hne.symm hj c (worded_of_reads hI hh'.active hr)
  exact fun t e he hcov => (hworded t e he hcov).1

end Writes

end AbcMalloc.Arena
