import AbcMalloc.Arena.Holdings
import AbcMalloc.Arena.Linking

/-! `__expand_tlsf` and `__expand_buddy`: a tier gets a sheet. The node and the sheet take a block
of the metadata, which itself grows by a sheet when it has none; the chunk comes from the kernel;
the sheet enters the tables, the list of nodes and the index. What fails on the way is undone. -/
namespace AbcMalloc.Arena
open Function Foundation Owner
open Va (VaConfig VaState reserveOnce)

theorem ok_of_bind {ε β γ : Type} {x : Except ε β} {f : β → Except ε γ} {r : γ}
    (h : x >>= f = .ok r) : ∃ a, x = .ok a ∧ f a = .ok r := by
  cases x with
  | error e => cases h
  | ok a => exact ⟨a, rfl, h⟩

def Sheet.allocated {σ : Type*} (s : Sheet σ) : ℕ := s.mem.len - s.guard

/-- What the system answers to a request of so many bytes. -/
abbrev Answers (α : Type) := Store α → ℕ → Answer

/-- A tier that grows on a 64-bit target: the type of its sheets, the arena, and what the build
fixes for the metadata sheets: their guard page, and the size of a node together with such a
sheet. -/
structure Growing (σ α : Type) extends SheetType σ (Store α) where
  va : VaConfig
  wide : va.is64 = true
  arena : α
  metaGuard : ℕ
  metaGuard_le : metaGuard ≤ 4096
  metaPair : ℕ
  release_eq : release = Store.release va

namespace Metadata
variable {σ α : Type} (G : Growing σ α) (k : Answers α)

/-- `__expand_arena_tier`; every failure aborts. -/
def expandArenaTier (m : Metadata) (st : Store α) (sz : ℕ) : Except Halt (Metadata × Store α) := do
  let (buf, memory) ← m.memory.mark params false G.metaPair
  if buf.ptr = 0 then .error .abort
  else do
    let bytes := (sz + G.metaGuard) % 2 ^ 64
    let g := k st bytes
    let (mem, st) ← st.getKernelChunk G.va g bytes
    if kernelChunkValid mem then do
      let st ← st.sheetRegister G.va g.node G.arena mem
      match m.tier.addSheet params false G.metaGuard g.mem g.tags mem with
      | none => .error .abort
      | some tier => .ok (⟨tier, mem.ptr, memory⟩, st)
    else .error .abort

/-- `_arena_tier.tail->nd` and its place in the index. -/
def tailSheet (m : Metadata) : Option (ℕ × Entry Buddy.Heap) :=
  (m.tier.idx.findIdx? fun e => e.lo = m.tail).bind fun i => (m.tier.idx[i]?).map fun e => (i, e)

/-- `__mark_arena`. Every round but the last one fills a place of the index, which has room for
`__max_sheets` sheets. -/
def retryMark (sz : ℕ) : ℕ → Metadata → Store α → Except Halt (Chunk × Metadata × Store α)
  | 0, _, _ => .error .abort
  | n + 1, m, st =>
    match m.tailSheet with
    | none => .error .undefined
    | some (i, e) => do
      let (buf, sh) ← e.sheet.mark params false sz
      let m := { m with tier := m.tier.setSheet i sh }
      if buf.ptr ≠ 0 then .ok (buf, m, st)
      else do
        let (m, st) ← expandArenaTier G k m st (sh.allocated * 2 % 2 ^ 64)
        retryMark sz n m st

def markArena (m : Metadata) (st : Store α) (sz : ℕ) : Except Halt (Chunk × Metadata × Store α) :=
  retryMark G k sz (params.maxSheets + 1) m st

end Metadata

namespace Listed
variable {σ α : Type} (G : Growing σ α) (k : Answers α)

/-- `unlink_node`, `release` and `__unmark_from_arena` when the index is full. -/
def detach (b : Listed σ (Store α)) (nd : ℕ) : Except Halt (Bool × Listed σ (Store α)) := do
  let b ← b.unlinkNode nd
  let b ← b.resetSheet G.toSheetType (nd + sizeofNode)
  let b ← b.unmarkFromArena nd (sizeofNode + G.sizeofSheet)
  .ok (false, b)

/-- A new sheet enters the list of nodes and the index. -/
def attach (b : Listed σ (Store α)) (nd : ℕ) (sh : Sheet σ) :
    Except Halt (Bool × Listed σ (Store α)) := do
  let b ← b.linkAtTail nd
  let r := b.index.registerSheet G.params.maxSheets ⟨sh.addr, sh.addrEnd, nd⟩
  let b := { b with index := r.2 }
  if r.1 = G.params.maxSheets then b.detach G nd else .ok (true, b)

/-- The node and the sheet are constructed in their block. -/
def buildSheet (b : Listed σ (Store α)) (g : Answer) (nd : ℕ) (mem : Chunk) :
    Except Halt (Bool × Listed σ (Store α)) := do
  let kernel ← b.kernel.sheetRegister G.va g.node G.arena mem
  let sh : Sheet σ :=
    ⟨mem, G.params.guard, G.params.format g.mem g.tags ⟨mem.ptr, mem.len - G.params.guard⟩⟩
  let b := b.construct nd sh kernel
  if sh.empty then do
    let b ← b.resetSheet G.toSheetType (nd + sizeofNode)
    let b ← b.unmarkFromArena nd (sizeofNode + G.sizeofSheet)
    .ok (false, b)
  else b.attach G nd sh

/-- `__expand_tlsf` and `__expand_buddy` ask the kernel for `bytes` bytes. -/
def expand (b : Listed σ (Store α)) (bytes : ℕ) : Except Halt (Bool × Listed σ (Store α)) := do
  let (buf, metadata, st) ← b.metadata.markArena G k b.kernel (sizeofNode + G.sizeofSheet)
  let g := k st bytes
  let (mem, st) ← st.getKernelChunk G.va g bytes
  let b := { b with metadata := metadata, kernel := st }
  if kernelChunkValid mem then b.buildSheet G g buf.ptr mem
  else do
    let b ← b.unmarkFromArena buf.ptr (sizeofNode + G.sizeofSheet)
    .ok (false, b)

def pageRound (sz : ℕ) : ℕ := (sz + 4095) % 2 ^ 64 / 4096 * 4096

def expandTlsf (b : Listed σ (Store α)) (sz : ℕ) : Except Halt (Bool × Listed σ (Store α)) :=
  b.expand G k (pageRound sz)

/-- `__expand_buddy`, with the guard page of the tier. -/
def expandBuddy (b : Listed σ (Store α)) (sz : ℕ) : Except Halt (Bool × Listed σ (Store α)) :=
  b.expand G k ((sz + G.params.guard) % 2 ^ 64)

end Listed

def Answers.Granted {α : Type} (c : VaConfig) (k : Answers α) : Prop :=
  ∀ st sz, Store.Granted c st sz (k st sz)

/-! ## The metadata -/

namespace Store
variable {α : Type} {c : VaConfig} {st st' : Store α} {held : List Chunk} {g : Answer} {m : Chunk}
  {sz : ℕ}

theorem Inv.top (h : Inv c st held) (hm : m ∈ held) :
    m.ptr ≠ 0 ∧ 0 < m.len ∧ m.ptr + m.len ≤ 2 ^ 47 := by
  by_cases hin : st.vaContains c m.ptr = true
  · obtain ⟨h₁, -, -, h₂⟩ := h.carved_spec hm hin
    obtain ⟨hb, hle, -⟩ := vaContains_iff.1 hin
    have := h.base hb
    exact ⟨by omega, h₁, by omega⟩
  · rw [Bool.not_eq_true] at hin
    obtain ⟨h₁, h₂, h₃, -⟩ := h.mapped m (h.mapped_spec hm hin)
    exact ⟨h₁, h₂, h₃⟩

/-- A chunk is as long as it was asked for. -/
theorem le_of_getKernelChunk (h64 : c.is64 = true) (hsz : sz < 2 ^ 63)
    (h : st.getKernelChunk c g sz = .ok (m, st')) : sz ≤ m.len := by
  have hround : sz ≤ c.roundUp sz := by
    unfold VaConfig.roundUp VaConfig.width VaConfig.sheetAlign
    rw [h64]
    simp only [if_true]
    omega
  unfold getKernelChunk at h
  simp only at h
  split_ifs at h with hp
  · cases h
    exact hround
  · cases hal : g.alloc with
    | none =>
      rw [hal] at h
      cases h
    | some p =>
      rw [hal] at h
      cases h
      exact le_rfl

end Store

namespace Metadata
variable {σ α : Type} {G : Growing σ α} {k : Answers α} {m m' : Metadata} {st st' : Store α}
  {U : Active} {rest : List Chunk} {sz n i : ℕ} {buf : Chunk} {e : Entry Buddy.Heap}

def chunks (m : Metadata) : List Chunk := m.tier.frames.map Frame.mem

theorem setSheet_self (h : m.tier.idx[i]? = some e) : m.tier.setSheet i e.sheet = m.tier := by
  unfold Tier.setSheet
  have hidx : m.tier.idx.modify i (fun x => { x with sheet := e.sheet }) = m.tier.idx := by
    apply List.ext_getElem?
    intro j
    rw [List.getElem?_modify]
    by_cases hj : i = j
    · subst hj
      rw [h]
      simp
    · simp [hj]
  rw [hidx]

theorem tailSheet_spec (h : m.tailSheet = some (i, e)) : m.tier.idx[i]? = some e := by
  obtain ⟨j, -, hj⟩ := Option.bind_eq_some_iff.1 h
  obtain ⟨x, hx, hxe⟩ := Option.map_eq_some_iff.1 hj
  cases hxe
  exact hx

theorem expandArenaTier_spec (hk : k.Granted G.va) (hm : m.Inv U)
    (hst : st.Inv G.va (m.chunks ++ rest)) (hpos : 0 < sz) (hlt : sz ≤ 2 ^ 48)
    (h : m.expandArenaTier G k st sz = .ok (m', st')) :
    m'.Inv U ∧ st'.Inv G.va (m'.chunks ++ rest) ∧ ∀ f ∈ m.tier.frames, f ∈ m'.tier.frames := by
  have hguard := G.metaGuard_le
  have hbytes : (sz + G.metaGuard) % 2 ^ 64 = sz + G.metaGuard := Nat.mod_eq_of_lt (by omega)
  unfold expandArenaTier at h
  obtain ⟨⟨buf, memory⟩, -, h⟩ := ok_of_bind h
  simp only [hbytes] at h
  split_ifs at h
  obtain ⟨⟨d, st₁⟩, hget, h⟩ := ok_of_bind h
  simp only at h
  split_ifs at h with hval
  obtain ⟨st₂, hreg, h⟩ := ok_of_bind h
  obtain ⟨hst₂, -⟩ := hst.acquire (hk st _) (Store.fits_of_le (by omega)) hget hval hreg
  have hlen := Store.le_of_getKernelChunk G.wide (by omega) hget
  obtain ⟨hptr, -, htop⟩ := hst₂.top List.mem_cons_self
  cases hadd : m.tier.addSheet params false G.metaGuard (k st (sz + G.metaGuard)).mem
      (k st (sz + G.metaGuard)).tags d with
  | none =>
    rw [hadd] at h
    cases h
  | some tier =>
    rw [hadd] at h
    cases h
    -- the new sheet lies apart from the others
    have hapart : ∀ f ∈ m.tier.frames, f.stop ≤ d.ptr ∨ d.ptr + d.len ≤ f.lo := by
      intro f hf
      have hmem : f.mem ∈ m.chunks ++ rest :=
        List.mem_append_left _ (List.mem_map_of_mem (f := Frame.mem) hf)
      have hsep := hst₂.chunks_apart hmem
      have hlo := (hm.tier.good f hf).ptr
      unfold Owner.apart at hsep
      unfold Frame.stop
      omega
    have hnone : ∀ p, (newFrame d false G.metaGuard).Covers p → U p = none := by
      intro p hp
      by_contra hne
      obtain ⟨⟨n, t⟩, hU⟩ := Option.ne_none_iff_exists'.1 hne
      obtain ⟨f, hf, hcov⟩ := hm.covered p n t hU
      have hle := (hm.tier.good f hf).hi_le
      have h₁ : d.ptr ≤ p ∧ p < d.ptr + d.len - G.metaGuard := hp
      have h₂ : f.lo ≤ p ∧ p < f.hi := hcov
      rcases hapart f hf with h₃ | h₃ <;> omega
    obtain ⟨hinv, -, hframes⟩ := hm.tier.addSheet
      (TierId.buddyTier_formats (by decide) 64 0 false) (Nat.pos_of_ne_zero hptr) (by omega)
      (by omega) (Nat.zero_le _) hapart hnone hadd
    refine ⟨⟨hinv, ?_⟩, ?_, fun f hf => (hframes f).2 (.inr hf)⟩
    · intro p n t hU
      obtain ⟨f, hf, hcov⟩ := hm.covered p n t hU
      exact ⟨f, (hframes f).2 (.inr hf), hcov⟩
    · refine hst₂.perm ?_
      obtain ⟨l₁, l₂, hidx, hidx', -⟩ := Tier.registerSheet_split hadd
      have hidx : m.tier.idx = l₁ ++ l₂ := hidx
      have hchunk : (Tier.newEntry params false G.metaGuard (k st (sz + G.metaGuard)).mem
        (k st (sz + G.metaGuard)).tags d).frame.mem = d := rfl
      unfold chunks Tier.frames
      simp only
      rw [hidx, hidx', List.map_append, List.map_append, List.map_append, List.map_append,
        List.map_cons, List.map_cons, hchunk, ← List.cons_append]
      exact List.perm_middle.symm.append_right rest

/-- A block of the metadata is handed out; on the way the metadata may have got more sheets. -/
theorem retryMark_spec (hk : k.Granted G.va) : ∀ {fuel : ℕ} {m : Metadata} {st : Store α}, m.Inv U →
    st.Inv G.va (m.chunks ++ rest) → m.retryMark G k sz fuel st = .ok (buf, m', st') →
      ∃ n, buf = ⟨buf.ptr, n - 32⟩ ∧ buf.ptr ≠ 0 ∧ U buf.ptr = none ∧ sz + 32 ≤ n ∧
        m'.Inv (update U buf.ptr (some (n, false))) ∧ st'.Inv G.va (m'.chunks ++ rest) := by
  intro fuel
  induction fuel with
  | zero =>
    intro m st _ _ h
    cases h
  | succ fuel ih =>
    intro m st hm hst h
    rw [retryMark] at h
    cases htail : m.tailSheet with
    | none =>
      rw [htail] at h
      cases h
    | some found =>
      obtain ⟨i, e⟩ := found
      rw [htail] at h
      simp only at h
      obtain ⟨⟨c, sh⟩, hmark, h⟩ := ok_of_bind h
      have hi := tailSheet_spec htail
      rcases hm.mark hi sz with hnull | ⟨p, n, b, hserve, hp, hU, hn, hinv⟩
      · -- the sheet is full: the metadata grows
        rw [hnull] at hmark
        cases hmark
        simp only [Chunk.null, ne_eq, not_true_eq_false, if_false, setSheet_self hi] at h
        obtain ⟨⟨m₁, st₁⟩, hexp, h⟩ := ok_of_bind h
        have hgood := hm.tier.entry_good hi
        have hmem : e.sheet.mem ∈ m.chunks ++ rest := List.mem_append_left _
          (List.mem_map_of_mem (f := Frame.mem) (Tier.mem_frames (List.mem_of_getElem? hi)))
        obtain ⟨-, -, htop⟩ := hst.top hmem
        have hlo : e.sheet.mem.ptr = e.lo := hgood.ptr
        have hlt : e.lo < e.hi := hgood.lt
        have hhi : e.hi + e.sheet.guard = e.sheet.mem.ptr + e.sheet.mem.len := hgood.hi
        have hdouble : e.sheet.allocated * 2 % 2 ^ 64 = e.sheet.allocated * 2 := by
          unfold Sheet.allocated
          exact Nat.mod_eq_of_lt (by omega)
        rw [hdouble] at hexp
        obtain ⟨hm₁, hst₁, -⟩ := expandArenaTier_spec hk hm hst (by unfold Sheet.allocated; omega)
          (by unfold Sheet.allocated; omega) hexp
        exact ih hm₁ hst₁ h
      · rw [hserve] at hmark
        cases hmark
        simp only [if_pos hp] at h
        cases h
        refine ⟨n, rfl, hp, hU, hn, hinv, ?_⟩
        have hsame : chunks { m with tier := m.tier.setSheet i { e.sheet with book := b } } =
          m.chunks := by
          unfold chunks
          simp only
          rw [Tier.frames_setSheet hi b]
        rw [hsame]
        exact hst

end Metadata
end AbcMalloc.Arena
