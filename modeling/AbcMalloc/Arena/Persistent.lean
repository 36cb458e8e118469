import AbcMalloc.Arena.Repeats
import AbcMalloc.Arena.Entries
import AbcMalloc.Tlsf.Headers

/-! The arena in persistent mode: every free tombstones, nothing is cached, and no sheet is given
back. The functions of `arena.hpp` that the mode changes are translated again; the fail and the
double-free action return. -/
namespace AbcMalloc.Arena
open Function Foundation

/-! ## The ledger of a list is unique -/

namespace TierId

theorem tlsf_used_unique {h : Tlsf.Heap} {L L' : Ledger}
    (hL : OrRefused tlsfRefused Tlsf.TlsfRep h L) (hL' : OrRefused tlsfRefused Tlsf.TlsfRep h L') :
    L'.used = L.used := by
  rcases hL with ⟨A, hA, rfl⟩ | ⟨⟨h₀, -⟩, -, hV⟩
  · rcases hL' with ⟨B, hB, rfl⟩ | ⟨⟨h₀, -⟩, -, -⟩
    · exact hA.used_eq hB
    · exact absurd h₀ hA.base_ne_zero
  · rcases hL' with ⟨B, hB, rfl⟩ | ⟨-, -, hV'⟩
    · exact absurd h₀ hB.base_ne_zero
    · funext b
      rw [hV.used, hV'.used]

theorem buddy_used_unique {h : Buddy.Heap} {L L' : Ledger}
    (hL : OrRefused buddyRefused Buddy.BuddyRep h L)
    (hL' : OrRefused buddyRefused Buddy.BuddyRep h L') : L'.used = L.used := by
  have hle : ∀ {A B : Buddy.Blocks}, Buddy.Good h A → Buddy.Good h B → ∀ {b v},
      Buddy.used A b = some v → Buddy.used B b = some v := by
    rintro A B hA hB b ⟨n, f⟩ hu
    obtain ⟨n', f', hu'⟩ := (hB.isAllocated_iff b).1 ((hA.isAllocated_iff b).2 ⟨_, _, hu⟩)
    obtain ⟨o, hAb⟩ := Buddy.used_eq_some.1 hu
    obtain ⟨o', hBb⟩ := Buddy.used_eq_some.1 hu'
    have hn : n' = n := (hB.toInv.blockSize hu').symm.trans (hA.toInv.blockSize hu)
    have hf : f' = f := (hB.toInv.hdrOfTagged hBb).2.2.symm.trans (hA.toInv.hdrOfTagged hAb).2.2
    rw [hu', hn, hf]
  rcases hL with ⟨A, hA, rfl⟩ | ⟨⟨h₀, -⟩, -, hV⟩
  · rcases hL' with ⟨B, hB, rfl⟩ | ⟨⟨h₀, -⟩, -, -⟩
    · funext b
      show Buddy.used B b = Buddy.used A b
      cases hu : Buddy.used A b with
      | some v => exact hle hA hB hu
      | none =>
        cases hv : Buddy.used B b with
        | none => rfl
        | some v =>
          rw [hle hB hA hv] at hu
          exact absurd hu (by simp)
    · exact absurd h₀ hA.geo.base_pos.ne'
  · rcases hL' with ⟨B, hB, rfl⟩ | ⟨-, -, hV'⟩
    · exact absurd h₀ hB.geo.base_pos.ne'
    · funext b
      rw [hV.used, hV'.used]

/-- The blocks in use can be read off the list of a sheet. -/
theorem used_unique (t : TierId) {s : t.Heap} {L L' : Ledger} (hL : t.Rep s L) (hL' : t.Rep s L') :
    L'.used = L.used := by
  cases t
  · exact tlsf_used_unique hL hL'
  · exact tlsf_used_unique hL hL'
  · exact buddy_used_unique hL hL'
  · exact buddy_used_unique hL hL'
  · exact buddy_used_unique hL hL'

end TierId

namespace Persistent

/-! ## The functions that the mode changes -/

/-- No redzones; `fail_state` and `handle_double_free` return `false`. -/
def config : Config := ⟨false, false, false⟩

@[simp] theorem canaries_config (t : TierId) : canaries config t = false := canaries_eq_false rfl t

@[simp] theorem blockPtr_config (t : TierId) (p : ℕ) : blockPtr config t p = p :=
    blockPtr_eq rfl t p

section Tiers
variable {σ : Type*} (T : Params σ)

/-- `__sweep_tier_tombstones`: the loop over the sheets only looks at them. -/
def sweepTombstones (t : Tier σ) : Tier σ := { t with deallocCount := 0 }

def tombstoneAccounting (t : Tier σ) : Tier σ :=
  let t := { t with deallocCount := t.deallocCount + 1 }
  if 64 ≤ t.deallocCount then sweepTombstones t else t

/-- `__tier_remove_impl`; `tomb_for` holds for every class. -/
def removeImpl (force sized : Bool) (t : Tier σ) (pos p : ℕ) : Except Halt (Bool × Tier σ) :=
  match t.idx[pos]? with
  | none => .error .undefined
  | some e => do
    let (ok, s) ← e.sheet.tryRemove T true sized p
    let t := t.setSheet pos s
    if force || ok then .ok (true, tombstoneAccounting (t.markAvailable pos))
    else t.handleDoubleFree config

/-- `__tier_remove_at`, without the free cache. -/
def removeAt (t : Tier σ) (pos p : ℕ) : Except Halt (Bool × Tier σ) :=
  match t.idx[pos]? with
  | none => .error .undefined
  | some e =>
    if !e.sheet.isBlockAllocated T p then t.handleDoubleFree config
    else removeImpl T false false t pos p

end Tiers

section Operations
variable (a : Tiers)

def vmapAlloc (sz : ℕ) : Except Halt (Chunk × Tiers) :=
  onTier a (.ofSize sz) fun t => t.bucketInsert (TierId.params _) false sz

def push (sz : ℕ) (grants : List Grant) : Except Halt (Option Chunk × Tiers) :=
  if 2 ^ 63 - 1 < sz then .error .abort
  else attempt (fun a => vmapAlloc a sz) sz 2 grants a

/-- `pop` with or without a length. Without the free cache the sized one goes straight to the
sheet. -/
def pop (p : ℕ) (len : Option ℕ) : Except Halt (Bool × Tiers) :=
  if p = 0 then .ok (len.isNone, a)
  else if !freeAdmit p len then failState config a
  else
    match dispatch a p with
    | none => .ok (false, a)
    | some (t, pos) =>
      onTier a t fun x =>
        match len with
        | none => removeAt t.params x pos p
        | some _ => removeImpl t.params false true x pos p

def tsPop (p : ℕ) (len : Option ℕ) : Except Halt (Bool × Tiers) :=
  if p = 0 then .ok (false, a)
  else if !freeAdmit p len then failState config a
  else
    match dispatch a p with
    | none => .ok (false, a)
    | some (t, pos) => onTier a t fun x => removeImpl t.params true len.isSome x pos p

def resize (p newSz : ℕ) (data : ℕ → Cell) (grants : List Grant) :
    Except Halt (Option Chunk × Tiers) :=
  if isCached a p then .ok (none, a)
  else
    let oldSize := sizeOfAlloc config a p
    if oldSize = 0 then .ok (none, a)
    else if newSz ≤ oldSize ∧ oldSize / 2 < newSz then .ok (some ⟨p, newSz⟩, a)
    else do
      let (c, a) ← push a newSz grants
      match c with
      | none => .ok (none, a)
      | some c => do
        let a := copyCells config c.ptr data (sizeOfAlloc config a c.ptr / 32) a
        let (_, a) ← pop a p none
        .ok (some c, a)

/-- `reset_page`: forbidden. -/
def resetPage (_p : ℕ) : Except Halt (Bool × Tiers) := failState config a

end Operations

/-! ## Histories -/

/-- An arena and every range `[p, p + __size_of_alloc(p))` that it has handed out, the newest
first. -/
structure World where
  arena : Tiers
  granted : List Chunk

inductive Op
  | push (sz : ℕ) (gs : List Grant)
  | resize (p newSz : ℕ) (data : ℕ → Cell) (gs : List Grant)
  | pop (p : ℕ) (len : Option ℕ)
  | tsPop (p : ℕ) (len : Option ℕ)
  | resetPage (p : ℕ)
  /-- Overwrite the `i`-th cell of the range at `p`. -/
  | write (p i : ℕ) (c : Cell)

namespace World

def init (a : Tiers) : World := ⟨a, []⟩

def rangeOf (a : Tiers) (c : Chunk) : Chunk := ⟨c.ptr, sizeOfAlloc config a c.ptr⟩

def step (w : World) : Op → Except Halt World
  | .push sz gs => do
    match ← Persistent.push w.arena sz gs with
    | (none, a) => .ok ⟨a, w.granted⟩
    | (some c, a) => .ok ⟨a, rangeOf a c :: w.granted⟩
  | .resize p newSz data gs => do
    match ← Persistent.resize w.arena p newSz data gs with
    | (none, a) => .ok ⟨a, w.granted⟩
    | (some c, a) => .ok ⟨a, if c.ptr = p then w.granted else rangeOf a c :: w.granted⟩
  | .pop p len => do
    let r ← Persistent.pop w.arena p len
    .ok ⟨r.2, w.granted⟩
  | .tsPop p len => do
    let r ← Persistent.tsPop w.arena p len
    .ok ⟨r.2, w.granted⟩
  | .resetPage p => do
    let r ← Persistent.resetPage w.arena p
    .ok ⟨r.2, w.granted⟩
  | .write p i c => .ok ⟨store config w.arena p i c, w.granted⟩

def next (w : World) (op : Op) : Option World := (w.step op).toOption

/-- Pointers come from earlier requests, and may have been freed since. Writes stay inside the
range of their pointer, and mappings are fresh. -/
def Legal (w : World) : Op → Prop
  | .push _ gs => Mapped w.arena gs
  | .resize p _ _ gs => (∃ r ∈ w.granted, r.ptr = p) ∧ Mapped w.arena gs
  | .pop p _ => ∃ r ∈ w.granted, r.ptr = p
  | .tsPop p _ => ∃ r ∈ w.granted, r.ptr = p
  | .resetPage _ => True
  | .write p i _ => ∃ r ∈ w.granted, r.ptr = p ∧ 32 * i + 32 ≤ r.len

instance instDecidableLegal (w : World) (op : Op) : Decidable (w.Legal op) :=
  match op with
  | .push _ gs => inferInstanceAs (Decidable (Mapped w.arena gs))
  | .resize p _ _ gs =>
    inferInstanceAs (Decidable ((∃ r ∈ w.granted, r.ptr = p) ∧ Mapped w.arena gs))
  | .pop p _ => inferInstanceAs (Decidable (∃ r ∈ w.granted, r.ptr = p))
  | .tsPop p _ => inferInstanceAs (Decidable (∃ r ∈ w.granted, r.ptr = p))
  | .resetPage _ => inferInstanceAs (Decidable True)
  | .write p i _ =>
    inferInstanceAs (Decidable (∃ r ∈ w.granted, r.ptr = p ∧ 32 * i + 32 ≤ r.len))

end World

/-! ## Ranges in use -/

/-- The list of the sheet that covers the range `r` has it in use, with flags `f`. -/
def Occupies (r : Chunk) (f : ℕ) (t : TierId) (e : Entry t.Heap) : Prop :=
  e.frame.Covers r.ptr → ∃ L b, t.Rep e.sheet.book L ∧ r.ptr = b + t.params.book.header ∧
    L.used b = some (r.len + 32, f)

section Entries
variable {t : TierId} {e : Entry t.Heap} {r r' : Chunk} {f f' sz : ℕ} {L : Ledger} {c : Chunk}
  {s : Sheet t.Heap} {sized ok : Bool}

theorem Occupies.used (h : Occupies r f t e) (hcov : e.frame.Covers r.ptr)
    (hL : t.Rep e.sheet.book L) :
    ∃ b, r.ptr = b + t.params.book.header ∧ L.used b = some (r.len + 32, f) := by
  obtain ⟨L', b, hL', hb, hu⟩ := h hcov
  rw [t.used_unique hL hL'] at hu
  exact ⟨b, hb, hu⟩

theorem Occupies.mark (h : Occupies r f t e) (hfit : t.fits sz = true)
    (hm : e.sheet.mark t.params false sz = .ok (c, s)) :
    Occupies r f t { e with sheet := s } := by
  unfold Sheet.mark at hm
  by_cases hempty : e.sheet.empty = true
  · simp only [hempty, if_true, Except.ok.injEq, Prod.mk.injEq] at hm
    rw [← hm.2]
    exact h
  · simp only [hempty, Bool.false_eq_true, if_false] at hm
    split at hm
    · exact absurd hm (by simp)
    · next c' b' hal =>
      simp only [Except.ok.injEq, Prod.mk.injEq] at hm
      obtain ⟨-, rfl⟩ := hm
      intro hcov
      obtain ⟨L, b, hL, hb, hu⟩ := h hcov
      rcases t.refines.allocate hL hfit with hnull | ⟨b₁, n, s₁, L₁, hal₁, hL₁, hO, -⟩
      · rw [hnull] at hal
        simp only [Option.some.injEq, Prod.mk.injEq] at hal
        obtain ⟨-, rfl⟩ := hal
        exact ⟨L, b, hL, hb, hu⟩
      · rw [hal₁] at hal
        simp only [Option.some.injEq, Prod.mk.injEq] at hal
        obtain ⟨-, rfl⟩ := hal
        refine ⟨L₁, b, hL₁, hb, ?_⟩
        have hne : b ≠ b₁ := by
          rintro rfl
          rw [hO.unused] at hu
          exact absurd hu (by simp)
        rw [hO.used, update_of_ne hne, hu]

/-- A tombstone changes the flags of its own block only, and the block stays in use. -/
theorem Occupies.tombstone (h : Occupies r f t e) (h' : Occupies r' f' t e)
    (hcov : e.frame.Covers r.ptr)
    (hrun : e.sheet.tryRemove t.params true sized r.ptr = .ok (ok, s)) :
    ∃ f'', Occupies r' f'' t { e with sheet := s } := by
  obtain ⟨L, b, hL, hb, hu⟩ := h hcov
  unfold Sheet.tryRemove at hrun
  by_cases hempty : e.sheet.empty = true ∨ r.ptr = 0
  · rw [if_pos hempty] at hrun
    exact absurd hrun (by simp)
  rw [if_neg hempty] at hrun
  simp only [if_true, Except.ok.injEq, Prod.mk.injEq] at hrun
  obtain ⟨-, rfl⟩ := hrun
  rw [hb]
  by_cases hf : f = blockTombstone
  · rw [hf] at hu
    rw [t.refines.tombstone_again hL hu]
    exact ⟨f', h'⟩
  · obtain ⟨s', L', hts, hL', hB⟩ := t.refines.tombstone hL hu hf
    rw [hts]
    by_cases hr : r'.ptr = r.ptr
    · refine ⟨blockTombstone, fun hcov' => ?_⟩
      obtain ⟨b', hb', hu'⟩ := h'.used hcov' hL
      obtain rfl : b' = b := by omega
      rw [hu] at hu'
      simp only [Option.some.injEq, Prod.mk.injEq] at hu'
      exact ⟨L', b', hL', hb', by rw [hB.used, update_self, hu'.1]⟩
    · refine ⟨f', fun hcov' => ?_⟩
      obtain ⟨b', hb', hu'⟩ := h'.used hcov' hL
      have hne : b' ≠ b := by omega
      exact ⟨L', b', hL', hb', by rw [hB.used, update_of_ne hne, hu']⟩

theorem Occupies.store (h : Occupies r f t e) (h' : Occupies r' f' t e)
    (hcov : e.frame.Covers r.ptr) {i : ℕ} (hi : 32 * i + 32 ≤ r.len) (d : Cell) :
    Occupies r' f' t { e with sheet := { e.sheet with
      book := t.params.book.store e.sheet.book (r.ptr + 32 * i) d } } := by
  obtain ⟨L, b, hL, hb, hu⟩ := h hcov
  have hL' := t.refines.store d hL (x := r.ptr + 32 * i) ⟨b, _, f, i, hu, by rw [hb], by omega⟩
  intro hcov'
  obtain ⟨b', hb', hu'⟩ := h'.used hcov' hL
  exact ⟨L, b', hL', hb', hu'⟩

end Entries

/-! ## Arenas -/

structure Granted (a : Tiers) (r : Chunk) : Prop where
  covered : ∃ t, ∃ f ∈ (a t).frames, f.Covers r.ptr
  occupied : AllEntries (fun t e => ∃ f, Occupies r f t e) a

section Arenas
variable {a a' : Tiers} {U U' : Active} {t : TierId} {r r' : Chunk} {p n sz i : ℕ} {gs : List Grant}

theorem Granted.locate (hI : Inv a U) (h : Granted a r) :
    ∃ t i e f, dispatch a r.ptr = some (t, i) ∧ (a t).idx[i]? = some e ∧
      e.frame.Covers r.ptr ∧ Occupies r f t e := by
  obtain ⟨t, f, hf, hcov⟩ := h.covered
  obtain ⟨i, e, he, rfl⟩ := Tier.exists_entry hf
  obtain ⟨f, hocc⟩ := h.occupied t e (List.mem_of_getElem? he)
  exact ⟨t, i, e, f, hI.dispatch_eq_some.2 ⟨e, he, hcov⟩, he, hcov, hocc⟩

/-- `__size_of_alloc` of a pointer that was handed out, freed or not. -/
theorem Granted.sizeOfAlloc (hI : Inv a U) (h : Granted a r) :
    sizeOfAlloc config a r.ptr = r.len := by
  obtain ⟨t, i, e, f, hd, he, hcov, hocc⟩ := h.locate hI
  obtain ⟨L, b, hL, hb, hu⟩ := hocc hcov
  have hsize : t.params.book.blockSize e.sheet.book r.ptr = r.len + 32 := by
    rw [hb]
    exact t.refines.blockSize hL hu
  simp [Arena.sizeOfAlloc, hd, he, hsize]

/-- Ranges that were handed out at different pointers do not overlap. -/
theorem Granted.apart (hI : Inv a U) (h : Granted a r) (h' : Granted a r')
    (hne : r.ptr ≠ r'.ptr) : Apart r r' := by
  obtain ⟨t, i, e, f, -, he, hcov, hocc⟩ := h.locate hI
  obtain ⟨s, j, e', f', -, he', hcov', hocc'⟩ := h'.locate hI
  obtain ⟨L, hL⟩ := (hI.tiers t).entry_holds he
  obtain ⟨L', hL'⟩ := (hI.tiers s).entry_holds he'
  obtain ⟨b, hb, hu⟩ := hocc.used hcov hL.rep
  obtain ⟨b', hb', hu'⟩ := hocc'.used hcov' hL'.rep
  have h₁ := ((t.refines.valid hL.rep).within hu).2
  have h₂ := ((s.refines.valid hL'.rep).within hu').2
  have h₃ := hL.le_hi
  have h₄ := hL'.le_hi
  have h₅ : e.lo ≤ r.ptr := hcov.1
  have h₆ : e'.lo ≤ r'.ptr := hcov'.1
  have h₇ : e.hi ≤ e.frame.stop := ((hI.tiers t).entry_good he).hi_le
  have h₈ : e'.hi ≤ e'.frame.stop := ((hI.tiers s).entry_good he').hi_le
  unfold Apart
  by_cases hts : t = s
  · subst hts
    rcases lt_trichotomy i j with hij | rfl | hij
    · have := (hI.tiers t).order he he' hij
      omega
    · rw [he] at he'
      obtain rfl := Option.some.inj he'
      obtain ⟨c, hc, hv⟩ := hocc'.used hcov' hL.rep
      have := (t.refines.valid hL.rep).disjoint hu hv fun hbc => hne (by rw [hb, hc, hbc])
      omega
    · have := (hI.tiers t).order he' he hij
      omega
  · have h₉ : e.frame.stop ≤ e'.lo ∨ e'.frame.stop ≤ e.lo := hI.apart hts _
      (Tier.mem_frames (List.mem_of_getElem? he)) _ (Tier.mem_frames (List.mem_of_getElem? he'))
    omega

theorem granted_of_active (hI : Inv a U) (hp : U p = some (n, false)) :
    32 ≤ n ∧ Granted a ⟨p, n - 32⟩ := by
  have hn : 32 ≤ n := by
    obtain ⟨t, i, e, -, he, hcov⟩ := hI.locate hp
    obtain ⟨L, hL⟩ := (hI.tiers t).entry_holds he
    exact (hL.extent t.refines hcov hp).1
  refine ⟨hn, hI.covered hp, fun t e he => ?_⟩
  by_cases hcov : e.frame.Covers p
  · obtain ⟨L, hL⟩ := (hI.tiers t).sheets e he
    obtain ⟨b, f, hb, hu, -⟩ := hL.used t.refines hcov hp
    exact ⟨f, fun _ => ⟨L, b, hL.rep, hb, by rw [hu, Nat.sub_add_cancel hn]⟩⟩
  · exact ⟨0, fun hcov' => absurd hcov' hcov⟩

/-- A range in use whose block is not active is tombstoned. -/
theorem Granted.tombstoned (hI : Inv a U) (h : Granted a r) (hU : U r.ptr = none) :
    AllEntries (Occupies r blockTombstone) a := by
  intro t e he hcov
  obtain ⟨f, hocc⟩ := h.occupied t e he
  obtain ⟨L, hL⟩ := (hI.tiers t).sheets e he
  obtain ⟨b, hb, hu⟩ := hocc.used hcov hL.rep
  have hf : f = blockTombstone := by
    by_contra hf
    have hact := hL.active _ hcov
    rw [hU, hb, activeOf_used hu hf] at hact
    exact absurd hact (by simp)
  exact ⟨L, b, hL.rep, hb, by rw [hu, hf]⟩

/-! ## Requests -/

theorem vmapAlloc_spec (hI : Inv a U) (sz : ℕ) :
    ∃ c a', vmapAlloc a sz = .ok (c, a') ∧ Attempted a U false (.ofSize sz) sz c a' := by
  obtain ⟨c, x, hrun, hA⟩ := Tier.bucketInsert_spec false (TierId.refines (.ofSize sz))
    (TierId.fits_ofSize sz) (hI.tiers (.ofSize sz))
  exact ⟨c, update a _ x, onTier_ok hrun, hI.allocs hA⟩

theorem push_spec (hI : Inv a U) (hgs : Mapped a gs) :
    Ends (push a sz gs) (Handed a U false (.ofSize sz) sz) := by
  unfold push
  split_ifs
  · exact Or.inl rfl
  · exact attempt_spec (fun h => vmapAlloc_spec h sz) 2 hI hgs

/-- What marking a block keeps of one entry, `push` keeps of all of them. -/
theorem push_all {P : (t : TierId) → Entry t.Heap → Prop} {o : Option Chunk} (h : AllEntries P a)
    (hmark : ∀ t : TierId, t.fits sz = true → ∀ e c s, P t e →
      e.sheet.mark t.params false sz = .ok (c, s) → P t { e with sheet := s })
    (hnew : ∀ g ∈ gs, ∀ t : TierId, ∀ head guard, guard = 0 ∨ guard = t.params.guard →
      P t (Tier.newEntry t.params head guard g.mem g.tags g.chunk))
    (hrun : push a sz gs = .ok (o, a')) : AllEntries P a' := by
  unfold push at hrun
  split_ifs at hrun
  refine attempt_invariant (I := AllEntries P) (fun h hrun => ?_)
    (fun h hg hrun => ?_) 2 hnew h hrun
  · apply onTier_all h _ hrun
    intro r x hx
    exact Tier.bucketInsert_all (hmark _ (TierId.fits_ofSize _)) (h _) hx
  · exact bufExpand_all h hg hrun

/-- A new sheet does not cover what was handed out. -/
theorem not_covers_newEntry (hI : Inv a U) (hr : Granted a r) {g : Grant} (hg : g.Fresh a)
    {t : TierId}
    {head : Bool} {guard : ℕ} :
    ¬(Tier.newEntry t.params head guard g.mem g.tags g.chunk).frame.Covers r.ptr := by
  intro hcov
  obtain ⟨s, f, hf, hcov'⟩ := hr.covered
  have h₁ := (hI.tiers s).good f hf
  have h₂ := h₁.hi_le
  have h₃ := h₁.ptr
  have h₄ : g.chunk.ptr ≤ r.ptr ∧ r.ptr < g.chunk.ptr + g.chunk.len - guard := hcov
  have h₅ : f.lo ≤ r.ptr ∧ r.ptr < f.hi := hcov'
  have h₆ : g.chunk.ptr + g.chunk.len ≤ f.mem.ptr ∨ f.stop ≤ g.chunk.ptr :=
    Grant.fresh_iff.1 hg s f hf
  omega

theorem push_occupies (hI : Inv a U) (hgs : Mapped a gs) (hr : Granted a r) {f : ℕ}
    {o : Option Chunk}
    (hocc : AllEntries (Occupies r f) a) (hrun : push a sz gs = .ok (o, a')) :
    AllEntries (Occupies r f) a' :=
  push_all hocc (fun _ hfit _ _ _ h hm => h.mark hfit hm)
    (fun g hg _ _ _ _ hcov => absurd hcov (not_covers_newEntry hI hr (hgs.1 g hg).2)) hrun

theorem Granted.push (hI : Inv a U) (hgs : Mapped a gs) (hr : Granted a r) {o : Option Chunk}
    (hgrows : Grows a a') (hrun : push a sz gs = .ok (o, a')) : Granted a' r := by
  obtain ⟨t, f, hf, hcov⟩ := hr.covered
  refine ⟨⟨t, f, hgrows t f hf, hcov⟩, push_all hr.occupied ?_ ?_ hrun⟩
  · rintro t hfit e c s ⟨f, hocc⟩ hm
    exact ⟨f, hocc.mark hfit hm⟩
  · intro g hg t head guard _
    exact ⟨0, fun hcov => absurd hcov (not_covers_newEntry hI hr (hgs.1 g hg).2)⟩

structure Kept (a : Tiers) (G : List Chunk) (U : Active) : Prop where
  inv : Inv a U
  plain : Untemporal U
  idle : ∀ p, ¬Parked a p
  granted : ∀ r ∈ G, Granted a r

theorem Kept.push_none {G : List Chunk} (h : Kept a G U) (hgs : Mapped a gs)
    (hrun : push a sz gs = .ok (none, a')) : ∃ U', Kept a' G U' ∧ Grows a a' := by
  obtain ⟨hI, hsame, hgrows⟩ := (push_spec h.inv hgs).ok hrun
  refine ⟨U, ⟨hI, h.plain, fun p hp => h.idle p (hsame.parked.1 hp), fun r hr => ?_⟩, hgrows⟩
  exact (h.granted r hr).push h.inv hgs hgrows hrun

/-- A block handed out is new: it starts at no pointer handed out before. -/
theorem Kept.push_new {G : List Chunk} (h : Kept a G U) (hgs : Mapped a gs) {c : Chunk}
    (hrun : push a sz gs = .ok (some c, a')) :
    ∃ U', Kept a' (World.rangeOf a' c :: G) U' ∧ Grows a a' ∧ c.ptr ≠ 0 ∧
    c.len ≤ sizeOfAlloc config a' c.ptr ∧
      ∀ r ∈ G, Apart (World.rangeOf a' c) r := by
  obtain ⟨U', hG⟩ := (push_spec h.inv hgs).ok hrun
  obtain ⟨n, hn, hlen⟩ := hG.active
  obtain ⟨hn32, hnew⟩ := granted_of_active hG.inv hn
  have hsize : World.rangeOf a' c = ⟨c.ptr, n - 32⟩ := by
    rw [World.rangeOf, hnew.sizeOfAlloc hG.inv]
  have hbefore : U c.ptr = none := by
    rcases hG.before with hb | ⟨hb, -⟩ | ⟨-, -, hb⟩
    · exact hb
    · exact absurd hb (by decide)
    · exact absurd hb (h.idle _)
  have hold : ∀ r ∈ G, Granted a' r := fun r hr => (h.granted r hr).push h.inv hgs hG.grows hrun
  have hne : ∀ r ∈ G, c.ptr ≠ r.ptr := by
    intro r hr heq
    -- a block freed at this pointer would still be tombstoned in its list
    have hdead := push_occupies h.inv hgs (h.granted r hr)
      ((h.granted r hr).tombstoned h.inv (by rw [← heq]; exact hbefore)) hrun
    obtain ⟨t, i, e, f, -, he, hcov, -⟩ := hnew.locate hG.inv
    obtain ⟨L, hL⟩ := (hG.inv.tiers t).entry_holds he
    obtain ⟨b, f, hb, hu, hf, -⟩ := hL.used t.refines hcov hn
    have hcov' : e.frame.Covers c.ptr := hcov
    rw [heq] at hcov' hb
    obtain ⟨b', hb', hu'⟩ := (hdead t e (List.mem_of_getElem? he)).used hcov' hL.rep
    obtain rfl : b' = b := by omega
    rw [hu] at hu'
    simp only [Option.some.injEq, Prod.mk.injEq] at hu'
    exact hf hu'.2
  refine ⟨U', ⟨hG.inv, ?_, fun p hp => h.idle p ((hG.parked p).1 hp).1, ?_⟩, hG.grows, hG.ptr, ?_,
    ?_⟩
  · intro b m hb
    by_cases hbc : b = c.ptr
    · rw [hbc, hn] at hb
      exact absurd hb (by simp)
    · rw [hG.others b hbc] at hb
      exact h.plain b m hb
  · intro r hr
    rcases List.mem_cons.1 hr with rfl | hr
    · rw [hsize]
      exact hnew
    · exact hold r hr
  · show c.len ≤ (World.rangeOf a' c).len
    rw [hsize]
    show c.len ≤ n - 32
    omega
  · intro r hr
    rw [hsize]
    exact hnew.apart hG.inv (hold r hr) (hne r hr)

/-! ## Frees -/

theorem tombstoneAccounting_idx {σ : Type*} (t : Tier σ) : (tombstoneAccounting t).idx = t.idx ∧
    (tombstoneAccounting t).cache = t.cache := by
  simp only [tombstoneAccounting]
  split_ifs
  · exact ⟨rfl, rfl⟩
  · exact ⟨rfl, rfl⟩

theorem removeImpl_outcome {σ : Type*} {T : Params σ} {t t' : Tier σ} {pos p : ℕ}
    {force sized ok : Bool} (hrun : removeImpl T force sized t pos p = .ok (ok, t')) :
    ∃ e r, t.idx[pos]? = some e ∧ e.sheet.tryRemove T true sized p = .ok r ∧
      t'.idx = (t.setSheet pos r.2).idx ∧ t'.cache = t.cache := by
  unfold removeImpl at hrun
  split at hrun
  · exact absurd hrun (by simp)
  · next e he =>
    cases hr : e.sheet.tryRemove T true sized p with
    | error y =>
      simp only [hr, bind, Except.bind] at hrun
      exact absurd hrun (by simp)
    | ok r =>
      refine ⟨e, r, he, hr, ?_⟩
      simp only [hr, bind, Except.bind] at hrun
      split_ifs at hrun
      · simp only [Except.ok.injEq, Prod.mk.injEq] at hrun
        rw [← hrun.2]
        exact tombstoneAccounting_idx _
      · rw [Tier.handleDoubleFree_eq hrun]
        exact ⟨rfl, rfl⟩

/-- What `try_tombstone` does in the sheet of a range that was handed out. -/
theorem Granted.tryRemove {e : Entry t.Heap} {f : ℕ} {L : Ledger} {s : Bool × Sheet t.Heap}
    {sized : Bool}
    (hL : e.Holds t.params t.Rep U L) (hplain : Untemporal U) (hlive : e.sheet.empty = false)
    (hcov : e.frame.Covers r.ptr) (hpos : r.ptr ≠ 0) (hocc : Occupies r f t e)
    (hrun : e.sheet.tryRemove t.params true sized r.ptr = .ok s) :
    ∃ b U' L', s.2 = { e.sheet with book := b } ∧
      Entry.Holds t.params t.Rep U' { e with sheet := { e.sheet with book := b } } L' ∧
      (U' = U ∨ U' = update U r.ptr none) := by
  obtain ⟨b, hb, hu⟩ := hocc.used hcov hL.rep
  by_cases hf : f = blockTombstone
  · have hagain := t.refines.tombstone_again hL.rep (hf ▸ hu)
    rw [← hb] at hagain
    have hrem : e.sheet.tryRemove t.params true sized r.ptr = .ok (!sized, e.sheet) :=
      tryRemove_of_ignored hlive hpos (by rw [if_pos rfl, hagain]; exact ignored_invalid _) sized
    rw [hrem] at hrun
    obtain rfl := Except.ok.inj hrun
    exact ⟨e.sheet.book, U, L, rfl, hL, Or.inl rfl⟩
  · have hact : U r.ptr = some (r.len + 32, decide (f = blockAlloc + blockTemporal)) := by
      rw [hL.active _ hcov, hb, activeOf_used hu hf]
    have hk : decide (f = blockAlloc + blockTemporal) = true → true = false := by
      intro hk
      rw [hk] at hact
      exact absurd hact (hplain _ _)
    obtain ⟨b', L', hrem, hL'⟩ := hL.tryRemove t.refines hlive sized hcov hact hk
    rw [hrem] at hrun
    obtain rfl := Except.ok.inj hrun
    exact ⟨b', _, L', rfl, hL', Or.inr rfl⟩

/-- A removal of a range that was handed out, live or freed, keeps every range handed out. -/
theorem Kept.remove {G : List Chunk} (h : Kept a G U) (hr : r ∈ G) {pos : ℕ}
    (hd : dispatch a r.ptr = some (t, pos)) {force sized ok : Bool} {x : Tier t.Heap}
    (hrun : removeImpl t.params force sized (a t) pos r.ptr = .ok (ok, x)) :
    ∃ U', Kept (update a t x) G U' ∧ ∀ s, (update a t x s).frames = (a s).frames := by
  obtain ⟨e, s, he, hrem, hidx, hcache⟩ := removeImpl_outcome hrun
  obtain ⟨e', he', hcov⟩ := h.inv.dispatch_eq_some.1 hd
  rw [he] at he'
  obtain rfl := Option.some.inj he'
  obtain ⟨f, hocc⟩ := (h.granted r hr).occupied t e (List.mem_of_getElem? he)
  obtain ⟨L, hL⟩ := (h.inv.tiers t).entry_holds he
  obtain ⟨b, U', L', hs, hL', hU'⟩ := Granted.tryRemove hL h.plain ((h.inv.tiers t).not_empty he)
    hcov (ptr_ne_zero h.inv hd) hocc hrem
  have hoff : ∀ q, q ≠ r.ptr → U' q = U q := by
    intro q hq
    rcases hU' with rfl | rfl
    · rfl
    · exact update_of_ne hq _ _
  have hsub : ∀ {q v}, U' q = some v → U q = some v := by
    intro q v hq
    rcases hU' with rfl | rfl
    · exact hq
    · by_cases hqr : q = r.ptr
      · rw [hqr, update_self] at hq
        exact absurd hq (by simp)
      · rwa [update_of_ne hqr] at hq
  have hset := (h.inv.tiers t).replace t.refines he hL'
    (fun q hq => hoff q fun he => hq (by rw [he]; exact hcov))
    fun c hc => absurd ⟨t, c, hc, rfl⟩ (h.idle c.1)
  have hframes : x.frames = (a t).frames := by
    rw [Tier.frames, hidx, hs]
    exact Tier.frames_setSheet he b
  refine ⟨U', ⟨?_, fun q m hq => h.plain q m (hsub hq), ?_, fun r' hr' => ⟨?_, ?_⟩⟩,
    frames_update hframes⟩
  · apply h.inv.set (hset.congr (by rw [hidx, hs]) hcache)
    · intro g hg
      rwa [hframes] at hg
    · intro q hq
      by_cases hqr : q = r.ptr
      · exact ⟨e.frame, Tier.mem_frames (List.mem_of_getElem? he), by rw [hqr]; exact hcov⟩
      · exact absurd (hoff q hqr) hq
    · intro g hg _ _ _
      rwa [hframes]
  · intro q
    rw [(sameCaches_update hcache).parked]
    exact h.idle q
  · obtain ⟨s', g, hg, hgr⟩ := (h.granted r' hr').covered
    exact ⟨s', g, by rw [frames_update hframes]; exact hg, hgr⟩
  · apply (h.granted r' hr').occupied.update
    refine Tier.All.congr (((h.granted r' hr').occupied t).setSheet fun y hy => ?_) hidx
    rw [he] at hy
    obtain rfl := Option.some.inj hy
    obtain ⟨f', hocc'⟩ := (h.granted r' hr').occupied t e (List.mem_of_getElem? he)
    exact hocc.tombstone hocc' hcov hrem

theorem onTier_outcome {α : Type} {f : Tier t.Heap → Except Halt (α × Tier t.Heap)} {o : α}
    (hrun : onTier a t f = .ok (o, a')) : ∃ x, f (a t) = .ok (o, x) ∧ a' = update a t x := by
  unfold onTier at hrun
  cases hx : f (a t) with
  | error y =>
    rw [hx] at hrun
    exact absurd hrun (by simp [bind, Except.bind])
  | ok x =>
    simp only [hx, bind, Except.bind, Except.ok.injEq, Prod.mk.injEq] at hrun
    obtain ⟨rfl, rfl⟩ := hrun
    exact ⟨x.2, rfl, rfl⟩

theorem failState_outcome {ok : Bool} (hrun : failState config a = .ok (ok, a')) : a' = a := by
  simp only [failState, config, Bool.false_eq_true, if_false, Except.ok.injEq,
    Prod.mk.injEq] at hrun
  exact hrun.2.symm

theorem removeAt_outcome {σ : Type*} {T : Params σ} {x x' : Tier σ} {pos : ℕ} {ok : Bool}
    (hrun : removeAt T x pos p = .ok (ok, x')) :
    x' = x ∨ removeImpl T false false x pos p = .ok (ok, x') := by
  unfold removeAt at hrun
  split at hrun
  · exact absurd hrun (by simp)
  · split_ifs at hrun
    · exact Or.inl (Tier.handleDoubleFree_eq hrun)
    · exact Or.inr hrun

/-- A free changes nothing, or it is a removal in the sheet of its pointer. -/
theorem pop_outcome {len : Option ℕ} {ok : Bool} (hrun : pop a p len = .ok (ok, a')) :
    a' = a ∨ ∃ (t : TierId) (pos : ℕ) (x : Tier t.Heap) (sized : Bool),
      dispatch a p = some (t, pos) ∧
      removeImpl t.params false sized (a t) pos p = .ok (ok, x) ∧ a' = update a t x := by
  unfold pop at hrun
  split_ifs at hrun
  · simp only [Except.ok.injEq, Prod.mk.injEq] at hrun
    exact Or.inl hrun.2.symm
  · exact Or.inl (failState_outcome hrun)
  · split at hrun
    · simp only [Except.ok.injEq, Prod.mk.injEq] at hrun
      exact Or.inl hrun.2.symm
    · next t pos hd =>
      obtain ⟨x, hx, rfl⟩ := onTier_outcome hrun
      cases len with
      | some m => exact Or.inr ⟨t, pos, x, true, hd, hx, rfl⟩
      | none =>
        rcases removeAt_outcome hx with rfl | hx
        · exact Or.inl (update_eq_self _ _)
        · exact Or.inr ⟨t, pos, x, false, hd, hx, rfl⟩

theorem tsPop_outcome {len : Option ℕ} {ok : Bool} (hrun : tsPop a p len = .ok (ok, a')) :
    a' = a ∨ ∃ (t : TierId) (pos : ℕ) (x : Tier t.Heap) (sized : Bool),
      dispatch a p = some (t, pos) ∧
      removeImpl t.params true sized (a t) pos p = .ok (ok, x) ∧ a' = update a t x := by
  unfold tsPop at hrun
  split_ifs at hrun
  · simp only [Except.ok.injEq, Prod.mk.injEq] at hrun
    exact Or.inl hrun.2.symm
  · exact Or.inl (failState_outcome hrun)
  · split at hrun
    · simp only [Except.ok.injEq, Prod.mk.injEq] at hrun
      exact Or.inl hrun.2.symm
    · next t pos hd =>
      obtain ⟨x, hx, rfl⟩ := onTier_outcome hrun
      exact Or.inr ⟨t, pos, x, len.isSome, hd, hx, rfl⟩

section Kept
variable {G : List Chunk}

theorem Kept.pop (h : Kept a G U) (hr : r ∈ G) {len : Option ℕ} {ok : Bool}
    (hrun : pop a r.ptr len = .ok (ok, a')) :
    ∃ U', Kept a' G U' ∧ ∀ s, (a' s).frames = (a s).frames := by
  rcases pop_outcome hrun with rfl | ⟨t, pos, x, sized, hd, hx, rfl⟩
  · exact ⟨U, h, fun _ => rfl⟩
  · exact h.remove hr hd hx

theorem Kept.tsPop (h : Kept a G U) (hr : r ∈ G) {len : Option ℕ} {ok : Bool}
    (hrun : tsPop a r.ptr len = .ok (ok, a')) :
    ∃ U', Kept a' G U' ∧ ∀ s, (a' s).frames = (a s).frames := by
  rcases tsPop_outcome hrun with rfl | ⟨t, pos, x, sized, hd, hx, rfl⟩
  · exact ⟨U, h, fun _ => rfl⟩
  · exact h.remove hr hd hx

/-! ## Writes -/

theorem Kept.store (h : Kept a G U) (hr : r ∈ G) (hi : 32 * i + 32 ≤ r.len) (d : Cell) :
    Kept (store config a r.ptr i d) G U ∧
    ∀ s, (store config a r.ptr i d s).frames = (a s).frames := by
  obtain ⟨t, pos, e, f, hd, he, hcov, hocc⟩ := (h.granted r hr).locate h.inv
  obtain ⟨L, hL⟩ := (h.inv.tiers t).entry_holds he
  obtain ⟨b, hb, hu⟩ := hocc.used hcov hL.rep
  have hrep := t.refines.store d hL.rep (x := r.ptr + 32 * i) ⟨b, _, f, i, hu, by rw [hb], by omega⟩
  have hset := (h.inv.tiers t).replace t.refines he (b := t.params.book.store e.sheet.book
    (r.ptr + 32 * i) d) ⟨hrep, hL.balanced, hL.lo_le, hL.le_hi, hL.active, hL.ring⟩
    (fun _ _ => rfl) fun _ _ => rfl
  have hrun : Arena.store config a r.ptr i d = update a t ((a t).setSheet pos { e.sheet with
      book := t.params.book.store e.sheet.book (r.ptr + 32 * i) d }) := by
    unfold Arena.store
    rw [hd]
    simp only [blockPtr_config]
    rw [modify_eq_setSheet he fun s => { s with
      book := t.params.book.store s.book (r.ptr + 32 * i) d }]
  have hf := Tier.frames_setSheet he (t.params.book.store e.sheet.book (r.ptr + 32 * i) d)
  have hsame : SameCaches a (Arena.store config a r.ptr i d) := by
    rw [hrun]
    exact sameCaches_update rfl
  rw [hrun] at hsame ⊢
  refine ⟨⟨?_, h.plain, ?_, fun r' hr' => ⟨?_, ?_⟩⟩, frames_update hf⟩
  · exact h.inv.set hset (fun g hg => by rwa [hf] at hg) (fun _ hp => absurd rfl hp)
      fun g hg _ _ _ => by rwa [hf]
  · exact fun q hq => h.idle q (hsame.parked.1 hq)
  · obtain ⟨s, g, hg, hgr⟩ := (h.granted r' hr').covered
    exact ⟨s, g, by rw [frames_update hf]; exact hg, hgr⟩
  · refine (h.granted r' hr').occupied.update
      (((h.granted r' hr').occupied t).setSheet fun y hy => ?_)
    rw [he] at hy
    obtain rfl := Option.some.inj hy
    obtain ⟨f', hocc'⟩ := (h.granted r' hr').occupied t e (List.mem_of_getElem? he)
    exact ⟨f', hocc.store hocc' hcov hi d⟩

theorem Kept.copyCells (h : Kept a G U) (hr : r ∈ G) (data : ℕ → Cell) : ∀ m, 32 * m ≤ r.len →
    Kept (copyCells config r.ptr data m a) G U ∧
      ∀ s, (copyCells config r.ptr data m a s).frames = (a s).frames := by
  intro m
  induction m with
  | zero => exact fun _ => ⟨h, fun _ => rfl⟩
  | succ m ih =>
    intro hm
    obtain ⟨h₁, hf₁⟩ := ih (by omega)
    obtain ⟨h₂, hf₂⟩ := h₁.store hr (i := m) (by omega) (data m)
    exact ⟨h₂, fun s => (hf₂ s).trans (hf₁ s)⟩

/-! ## Resizing -/

theorem Kept.resize (h : Kept a G U) (hr : r ∈ G) (hgs : Mapped a gs) {data : ℕ → Cell}
    {o : Option Chunk} (hrun : resize a r.ptr sz data gs = .ok (o, a')) :
    (∃ U', Kept a' G U' ∧ Grows a a' ∧ o = none) ∨ (o = some ⟨r.ptr, sz⟩ ∧ a' = a) ∨
      ∃ c U', o = some c ∧ Kept a' (World.rangeOf a' c :: G) U' ∧ Grows a a' ∧
        ∀ r ∈ G, Apart (World.rangeOf a' c) r := by
  unfold Persistent.resize at hrun
  simp only at hrun
  split_ifs at hrun
  · simp only [Except.ok.injEq, Prod.mk.injEq] at hrun
    obtain ⟨rfl, rfl⟩ := hrun
    exact Or.inl ⟨U, h, .refl a, rfl⟩
  · simp only [Except.ok.injEq, Prod.mk.injEq] at hrun
    obtain ⟨rfl, rfl⟩ := hrun
    exact Or.inl ⟨U, h, .refl a, rfl⟩
  · simp only [Except.ok.injEq, Prod.mk.injEq] at hrun
    exact Or.inr (Or.inl ⟨hrun.1.symm, hrun.2.symm⟩)
  · cases hp : push a sz gs with
    | error y =>
      simp only [hp, bind, Except.bind] at hrun
      exact absurd hrun (by simp)
    | ok s =>
      obtain ⟨c, a₁⟩ := s
      simp only [hp, bind, Except.bind] at hrun
      cases c with
      | none =>
        simp only [Except.ok.injEq, Prod.mk.injEq] at hrun
        obtain ⟨rfl, rfl⟩ := hrun
        obtain ⟨U', hk, hgrows⟩ := h.push_none hgs hp
        exact Or.inl ⟨U', hk, hgrows, rfl⟩
      | some c =>
        obtain ⟨U₁, h₁, hgrows, -, -, hapart⟩ := h.push_new hgs hp
        obtain ⟨h₂, hf₂⟩ := h₁.copyCells List.mem_cons_self data (sizeOfAlloc config a₁ c.ptr / 32)
          (Nat.mul_div_le _ _)
        simp only at hrun
        cases hq :
          Persistent.pop (Arena.copyCells config c.ptr data (sizeOfAlloc config a₁ c.ptr / 32) a₁)
            r.ptr none with
        | error y =>
          rw [hq] at hrun
          exact absurd hrun (by simp)
        | ok s =>
          rw [hq] at hrun
          simp only [Except.ok.injEq, Prod.mk.injEq] at hrun
          obtain ⟨rfl, rfl⟩ := hrun
          obtain ⟨U₃, h₃, hf₃⟩ := h₂.pop (List.mem_cons_of_mem _ hr) hq
          have hsize : World.rangeOf s.2 c = World.rangeOf a₁ c := by
            have hlen := (h₃.granted _ List.mem_cons_self).sizeOfAlloc h₃.inv
            exact congrArg (Chunk.mk c.ptr) hlen
          refine Or.inr (Or.inr ⟨c, U₃, rfl, by rwa [hsize], ?_, by rwa [hsize]⟩)
          exact (hgrows.trans (.of_frames hf₂)).trans (.of_frames hf₃)

end Kept
end Arenas

/-! ## Runs -/

namespace World
variable {w w' : World} {op : Op} {U : Active}

theorem step_of_next (h : w.next op = some w') : w.step op = .ok w' := by
  unfold next at h
  cases hs : w.step op with
  | error x => simp [hs, Except.toOption] at h
  | ok v =>
    simp only [hs, Except.toOption, Option.some.injEq] at h
    rw [h]

/-- A step keeps every range and every sheet, and what it hands out is new. -/
theorem step_kept (h : Kept w.arena w.granted U) (hlegal : w.Legal op)
    (hstep : w.step op = .ok w') :
    (∃ U', Kept w'.arena w'.granted U') ∧ Grows w.arena w'.arena ∧
    ∀ r ∈ w.granted, r ∈ w'.granted := by
  cases op with
  | push sz gs =>
    simp only [step, bind, Except.bind] at hstep
    split at hstep
    · exact absurd hstep (by simp)
    · next s hs =>
      obtain ⟨o, a⟩ := s
      cases o with
      | none =>
        obtain rfl := Except.ok.inj hstep
        obtain ⟨U', hk, hgrows⟩ := h.push_none hlegal hs
        exact ⟨⟨U', hk⟩, hgrows, fun _ hr => hr⟩
      | some c =>
        obtain rfl := Except.ok.inj hstep
        obtain ⟨U', hk, hgrows, -⟩ := h.push_new hlegal hs
        exact ⟨⟨U', hk⟩, hgrows, fun _ hr => List.mem_cons_of_mem _ hr⟩
  | resize p newSz data gs =>
    obtain ⟨⟨r, hr, rfl⟩, hgs⟩ := hlegal
    simp only [step, bind, Except.bind] at hstep
    split at hstep
    · exact absurd hstep (by simp)
    · next s hs =>
      obtain ⟨o, a⟩ := s
      rcases h.resize hr hgs hs with ⟨U', hk, hgrows, rfl⟩ | ⟨rfl, rfl⟩ |
        ⟨c, U', rfl, hk, hgrows, -⟩
      · obtain rfl := Except.ok.inj hstep
        exact ⟨⟨U', hk⟩, hgrows, fun _ hr => hr⟩
      · obtain rfl := Except.ok.inj hstep
        refine ⟨⟨U, ?_⟩, .refl _, fun _ hr => ?_⟩
        · simpa using h
        · simpa using hr
      · obtain rfl := Except.ok.inj hstep
        by_cases hc : c.ptr = r.ptr
        · refine ⟨⟨U', ?_⟩, hgrows, fun _ hr => ?_⟩
          · simp only [hc, if_true]
            exact ⟨hk.inv, hk.plain, hk.idle, fun r hr => hk.granted r (List.mem_cons_of_mem _ hr)⟩
          · simpa [hc] using hr
        · refine ⟨⟨U', by simpa [hc] using hk⟩, hgrows, fun _ hr => ?_⟩
          simpa [hc] using Or.inr hr
  | pop p len =>
    obtain ⟨r, hr, rfl⟩ := hlegal
    simp only [step, bind, Except.bind] at hstep
    split at hstep
    · exact absurd hstep (by simp)
    · next s hs =>
      obtain rfl := Except.ok.inj hstep
      obtain ⟨U', hk, hf⟩ := h.pop hr hs
      exact ⟨⟨U', hk⟩, .of_frames hf, fun _ hr => hr⟩
  | tsPop p len =>
    obtain ⟨r, hr, rfl⟩ := hlegal
    simp only [step, bind, Except.bind] at hstep
    split at hstep
    · exact absurd hstep (by simp)
    · next s hs =>
      obtain rfl := Except.ok.inj hstep
      obtain ⟨U', hk, hf⟩ := h.tsPop hr hs
      exact ⟨⟨U', hk⟩, .of_frames hf, fun _ hr => hr⟩
  | resetPage p =>
    simp only [step, bind, Except.bind] at hstep
    split at hstep
    · exact absurd hstep (by simp)
    · next s hs =>
      obtain rfl := Except.ok.inj hstep
      rw [failState_outcome hs]
      exact ⟨⟨U, h⟩, .refl _, fun _ hr => hr⟩
  | write p i c =>
    obtain ⟨r, hr, rfl, hi⟩ := hlegal
    obtain rfl := Except.ok.inj hstep
    obtain ⟨hk, hf⟩ := h.store hr hi c
    exact ⟨⟨U, hk⟩, .of_frames hf, fun _ hr => hr⟩

end World

variable {g₁ g₂ g₃ : Grant} {a : Tiers} {ops : List Op} {w : World}

theorem kept_run (hg : Distinct g₁ g₂ g₃) (ha : start g₁ g₂ g₃ = some a)
    (hrun : Run World.Legal World.next (World.init a) ops w) : ∃ U, Kept w.arena w.granted U := by
  apply hrun.invariant fun w => ∃ U, Kept w.arena w.granted U
  · rintro w op w' ⟨U, h⟩ hlegal hstep
    exact (World.step_kept h hlegal (World.step_of_next hstep)).1
  · obtain ⟨hI, hidle⟩ := inv_start hg ha
    exact ⟨_, hI, fun b n hb => absurd hb (by simp), hidle, fun r hr => absurd hr List.not_mem_nil⟩

/-- Nothing is handed out twice, freed or not, and no sheet is given back. -/
theorem persistent_never_regrants (hg : Distinct g₁ g₂ g₃) (ha : start g₁ g₂ g₃ = some a)
    (hrun : Run World.Legal World.next (World.init a) ops w) :
    (∀ r ∈ w.granted, sizeOfAlloc config w.arena r.ptr = r.len) ∧
    (∀ sz gs c a', Mapped w.arena gs → push w.arena sz gs = .ok (some c, a') →
      ∀ r ∈ w.granted, Apart (World.rangeOf a' c) r) ∧
    (∀ p sz data gs c a', (∃ r ∈ w.granted, r.ptr = p) → Mapped w.arena gs →
      resize w.arena p sz data gs = .ok (some c, a') →
      (c.ptr = p ∧ a' = w.arena) ∨ ∀ r ∈ w.granted, Apart (World.rangeOf a' c) r) ∧
    ∀ op w', w.Legal op → w.next op = some w' →
      (∀ r ∈ w.granted, r ∈ w'.granted) ∧
        ∀ t, ∀ f ∈ (w.arena t).frames, f ∈ (w'.arena t).frames := by
  obtain ⟨U, h⟩ := kept_run hg ha hrun
  refine ⟨fun r hr => (h.granted r hr).sizeOfAlloc h.inv, ?_, ?_, ?_⟩
  · intro sz gs c a' hgs hpush
    obtain ⟨U', -, -, -, -, hapart⟩ := h.push_new hgs hpush
    exact hapart
  · rintro p sz data gs c a' ⟨r, hr, rfl⟩ hgs hresize
    rcases h.resize hr hgs hresize with ⟨-, -, -, ho⟩ | ⟨ho, rfl⟩ | ⟨c', U', ho, -, -, hapart⟩
    · exact absurd ho (by simp)
    · obtain rfl := Option.some.inj ho
      exact Or.inl ⟨rfl, rfl⟩
    · obtain rfl := Option.some.inj ho
      exact Or.inr hapart
  · intro op w' hlegal hstep
    obtain ⟨-, hgrows, hsub⟩ := World.step_kept h hlegal (World.step_of_next hstep)
    exact ⟨hsub, hgrows⟩

/-- A block is freed three times and its sheet reset; the next request of its size gets another
one. -/
theorem persistent_never_regrants_freed : ∃ a w c a',
    start (clearGrant 65536 8192) (clearGrant 131072 8192) (clearGrant 262144 65536) = some a ∧
    Run World.Legal World.next (World.init a)
      [.push 100 [], .pop 65600 none, .pop 65600 (some 100), .tsPop 65600 none,
        .resetPage 65600] w ∧
    push w.arena 100 [] = .ok (some c, a') ∧ ∀ r ∈ w.granted, Apart (World.rangeOf a' c) r := by
  have hexec : ((start (clearGrant 65536 8192) (clearGrant 131072 8192)
      (clearGrant 262144 65536)).any fun a : Tiers =>
        (exec World.Legal World.next (World.init a)
          [.push 100 [], .pop 65600 none, .pop 65600 (some 100), .tsPop 65600 none,
            .resetPage 65600]).any fun w : World =>
              (push w.arena 100 []).toOption.any fun r => r.1.isSome) = true := by
    decide +kernel
  obtain ⟨a, ha, hexec⟩ := Option.any_eq_true _ _ |>.1 hexec
  obtain ⟨w, hrun, hsome⟩ := exists_run_of_exec World.Legal World.next hexec
  obtain ⟨⟨o, a'⟩, hpush, ho⟩ := Option.any_eq_true _ _ |>.1 hsome
  obtain ⟨c, rfl⟩ := Option.isSome_iff_exists.1 ho
  have hok : push w.arena 100 [] = .ok (some c, a') := by
    cases hp : push w.arena 100 [] with
    | error x => simp [hp, Except.toOption] at hpush
    | ok v =>
      simp only [hp, Except.toOption, Option.some.injEq] at hpush
      rw [hpush]
  refine ⟨a, w, c, a', ha, hrun, hok, ?_⟩
  exact (persistent_never_regrants (by decide) ha hrun).2.1 100 [] c a'
    ⟨fun g hg => absurd hg List.not_mem_nil, List.Pairwise.nil⟩ hok

end Persistent
end AbcMalloc.Arena
