import AbcMalloc.Arena.Expansion

/-! What an expansion leaves of its tier: a new sheet at the tail and in the index, or nothing. -/
namespace AbcMalloc.Arena
open Function Foundation Owner
open Va (VaConfig VaState reserveOnce)

namespace Listed
section
variable {σ κ : Type} {S : SheetType σ κ} {U : Active} {b b' : Listed σ κ} {l : List ℕ}
  {p len : ℕ} {sh : Sheet σ} {r : Bool}

/-- What is left of the tier `b` when the node at `p` was given up. -/
structure Undone (S : SheetType σ κ) (p : ℕ) (b b' : Listed σ κ) : Prop where
  head : b'.head = b.head
  tail : b'.tail = b.tail
  index : b'.index = b.index
  deallocCount : b'.deallocCount = b.deallocCount
  node : ∀ q, ¬(p ≤ q ∧ q < p + (sizeofNode + S.sizeofSheet)) → b'.node q = b.node q
  sheet : ∀ q, ¬(p ≤ q ∧ q < p + (sizeofNode + S.sizeofSheet)) → b'.sheet q = b.sheet q
  unmarked : b'.unmarked = b.unmarked ++ [p]

/-- The list stands when the node is given up. -/
theorem Undone.linked (hu : Undone S p b b') (hs : b.Spare S U l p) (h : b.Linked S U l)
    (hmd : b'.metadata.Inv (update U p none)) :
    b'.Linked S (update U p none) l ∧ (∀ q ∈ l, b'.node q = b.node q) ∧
      ∀ q ∈ l, b'.sheetOf q = b.sheetOf q := by
  have hnode : ∀ q ∈ l, b'.node q = b.node q := by
    intro q hq
    obtain ⟨-, n, hn, -⟩ := h.node q hq
    exact hu.node q (hs.outside h hq hn).1
  have hsheetOf : ∀ q ∈ l, b'.sheetOf q = b.sheetOf q := by
    intro q hq
    obtain ⟨-, n, hn, -⟩ := h.node q hq
    unfold sheetOf
    rw [hnode q hq, hn]
    exact hu.sheet n.nd (hs.outside h hq hn).2
  obtain ⟨rest, hl⟩ := h.head
  refine ⟨⟨⟨rest, by rw [hu.head]; exact hl⟩, ?_, ?_, h.nodup, ?_, ?_, ?_, ?_, ?_, hmd, ?_, ?_⟩,
    hnode, hsheetOf⟩
  · apply h.seg.congr
    · intro q hq
      unfold next
      rw [hnode q hq]
    · intro q hq
      unfold prev
      rw [hnode q hq]
  · rw [hu.tail]
    exact h.tail
  · intro q hq
    rw [hnode q hq]
    exact h.node q hq
  · intro q hq
    rw [hsheetOf q hq]
    exact h.sheet q hq
  · rw [hu.index]
    exact h.indexed
  · rw [hu.index]
    exact h.count_le
  · rw [hu.index]
    exact h.clear
  · intro q hq hqh
    rw [hu.head] at hqh
    obtain ⟨hblock, len, hU, hlen⟩ := h.block q hq hqh
    refine ⟨?_, len, ?_, hlen⟩
    · rw [hnode q hq]
      exact hblock
    · rw [update_of_ne fun he : q = p => hs.not_mem (he ▸ hq)]
      exact hU
  · intro q hq hqh n hn
    rw [hu.head] at hqh hn ⊢
    rw [hnode _ h.head_mem] at hn
    exact h.home q hq hqh n hn

theorem unmarkFromArena_undone {d : Listed σ κ} {md : Metadata} {k : κ} (hmd : md.Inv U)
    (hU : U p = some (len, false)) (hnode : ∀ q, q ≠ p → d.node q = b.node q)
    (hsheet : ∀ q, q ≠ p + sizeofNode → d.sheet q = b.sheet q) (hhead : d.head = b.head)
    (htail : d.tail = b.tail) (hindex : d.index = b.index)
    (hcount : d.deallocCount = b.deallocCount) (hunmarked : d.unmarked = b.unmarked)
    (hmeta : d.metadata = md) (hkernel : d.kernel = k) :
    ∃ b₁, d.unmarkFromArena p (sizeofNode + S.sizeofSheet) = .ok b₁ ∧ Undone S p b b₁ ∧
      b₁.metadata.Inv (update U p none) ∧ b₁.metadata.tier.frames = md.tier.frames ∧
      b₁.kernel = k := by
  have hpos := S.sizeofSheet_pos
  obtain ⟨t, hunmark, hframes, hinv⟩ := hmd.unmark hU
  unfold unmarkFromArena
  rw [hmeta, hunmark]
  refine ⟨_, rfl, ⟨hhead, htail, hindex, hcount, ?_, ?_, ?_⟩, hinv, hframes, hkernel⟩
  · intro q hq
    simp only
    rw [if_neg hq]
    exact hnode q (by omega)
  · intro q hq
    simp only
    rw [if_neg hq]
    exact hsheet q (by omega)
  · simp only
    rw [hunmarked]

end

section
variable {σ α : Type} {G : Growing σ α} {k : Answers α} {U : Active} {b b' : Listed σ (Store α)}
  {l : List ℕ} {p len : ℕ} {sh : Sheet σ} {r : Bool} {st : Store α}

structure Grown (G : Growing σ α) (U : Active) (l : List ℕ) (p : ℕ) (sh : Sheet σ) (st : Store α)
    (b b' : Listed σ (Store α)) : Prop where
  room : b.index.count < G.params.maxSheets
  linked : b'.Linked G.toSheetType U (l ++ [p])
  head : b'.head = b.head
  index : b'.index = (b.index.registerSheet G.params.maxSheets ⟨sh.addr, sh.addrEnd, p⟩).2
  node : ∀ q ∈ l, ∀ m, b'.node q = some m → ∃ n, b.node q = some n ∧ n.nd = m.nd
  sheetOf : ∀ q ∈ l, b'.sheetOf q = b.sheetOf q
  new : b'.sheetOf p = some sh
  metadata : b'.metadata = b.metadata
  kernel : b'.kernel = st

/-- The sheet enters the tier, or there is no room for it and its chunk and its block go back. -/
theorem attach_cases (st : Store α) (hmax : G.params.maxSheets ≤ 2 ^ 32 - 64)
    (hs : b.Spare G.toSheetType U l p) (h : b.Linked G.toSheetType U l) (hsh : sh.empty = false) :
    (∃ b', (b.construct p sh st).attach G p sh = .ok (true, b') ∧ Grown G U l p sh st b b') ∨
      ∃ b', (b.construct p sh st).attach G p sh = .ok (false, b') ∧
        G.params.maxSheets ≤ b.index.count ∧ Undone G.toSheetType p b b' ∧
        b'.metadata.Inv (update U p none) ∧ b'.metadata.tier.frames = b.metadata.tier.frames ∧
        b'.kernel = G.release st sh.mem := by
  obtain ⟨hnode, hsheetOf, hc⟩ := hs.construct h sh st
  obtain ⟨l₁, m, hl, htail, hm, hend⟩ := hc.exists_tail
  have hmem : (b.construct p sh st).tail ∈ l := by
    rw [hl]
    simp
  have hne : p ≠ (b.construct p sh st).tail := fun he => hs.not_mem (by rw [he]; exact hmem)
  have hp : (b.construct p sh st).node p = some ⟨p + sizeofNode, 0, 0⟩ := update_self _ _ _
  have hsp : (b.construct p sh st).sheet (p + sizeofNode) = some sh := update_self _ _ _
  unfold attach
  by_cases hroom : b.index.count < G.params.maxSheets
  · left
    have hins := RangeIndex.registerSheet_inserted hroom ⟨sh.addr, sh.addrEnd, p⟩
    have hpos := hins.pos_le
    rw [linkAtTail_eq hp htail hm hne]
    simp only [bind, Except.bind]
    have hreg : ((b.construct p sh st).index.registerSheet G.params.maxSheets
      ⟨sh.addr, sh.addrEnd, p⟩).1 ≠ G.params.maxSheets := (hpos.trans_lt hroom).ne
    rw [if_neg hreg]
    have hpush : Pushed G.toSheetType p m sh (b.construct p sh st) { b.construct p sh st with
        node := update (update (b.construct p sh st).node p
          (some ⟨p + sizeofNode, (b.construct p sh st).tail, 0⟩)) (b.construct p sh st).tail
          (some { m with nxt := p })
        tail := p
        index := ((b.construct p sh st).index.registerSheet G.params.maxSheets
          ⟨sh.addr, sh.addrEnd, p⟩).2 } := by
      refine ⟨rfl, rfl, rfl, rfl, rfl, ?_, update_self _ _ _, ?_⟩
      · exact (update_of_ne hne _ _).trans (update_self _ _ _)
      · intro q hqp hqz
        exact (update_of_ne hqz _ _).trans (update_of_ne hqp _ _)
    refine ⟨_, rfl, hroom, ?_, rfl, rfl, ?_, ?_, ?_, rfl, rfl⟩
    · exact hpush.linked hmax hm (hs.still h sh st) hc hroom hsp
    · intro q hq m' hm'
      obtain ⟨-, n, hn, -⟩ := h.node q hq
      obtain ⟨n', hn', hnd, -⟩ :=
        hpush.node hm (fun he : q = p => hs.not_mem (he ▸ hq)) ((hnode q hq).trans hn)
      obtain rfl := Option.some.inj (hn'.symm.trans hm')
      exact ⟨n, hn, hnd.symm⟩
    · intro q hq
      obtain ⟨-, n, hn, -⟩ := hc.node q hq
      rw [← hsheetOf q hq]
      exact hpush.sheetOf hm (fun he => hs.not_mem (he ▸ hq)) hn
    · unfold sheetOf
      rw [hpush.new]
      exact hsp
  · right
    have hfull : G.params.maxSheets ≤ b.index.count := by omega
    have hreg := RangeIndex.register_full (r := (⟨sh.addr, sh.addrEnd, p⟩ : Range ℕ)) hfull
    obtain ⟨b₁, hlink, hunlink⟩ := unlinkNode_linkAtTail hp htail hm hend hne (x := b.index)
    obtain ⟨len, hU, -⟩ := hs.out
    rw [hlink]
    simp only [bind, Except.bind]
    have hindex : b₁.index = b.index := by
      rw [linkAtTail_eq hp htail hm hne] at hlink
      cases hlink
      rfl
    rw [hindex, hreg, if_pos rfl]
    unfold detach
    rw [hunlink]
    simp only [bind, Except.bind]
    unfold resetSheet readSheet
    rw [hsp]
    simp only [bind, Except.bind]
    rw [if_neg (by simp [hsh])]
    simp only
    obtain ⟨b₂, hunmark, hundone, hinv, hframes, hkernel⟩ :=
      unmarkFromArena_undone (S := G.toSheetType) (b := b) (d := { b.construct p sh st with
        index := b.index
        node := update (b.construct p sh st).node p
          (some ⟨p + sizeofNode, (b.construct p sh st).tail, 0⟩)
        sheet := update (b.construct p sh st).sheet (p + sizeofNode)
          (some { sh with mem := .null })
        kernel := G.release st sh.mem }) h.metadata hU
        (fun q hq => (update_of_ne hq _ _).trans (update_of_ne hq _ _))
        (fun q hq => (update_of_ne hq _ _).trans (update_of_ne hq _ _)) rfl rfl rfl rfl rfl rfl rfl
    refine ⟨b₂, ?_, hfull, hundone, hinv, hframes, hkernel⟩
    have hst : (b.construct p sh st).kernel = st := rfl
    rw [hst, hunmark]

def Housed (chunks : List Chunk) (a : ℕ) : Prop := ∃ d ∈ chunks, d.ptr ≤ a ∧ a < d.ptr + d.len

/-- The block of a node lies in a chunk of the metadata, hence apart from what lies elsewhere. -/
theorem not_housed {c : VaConfig} {md : Metadata} {held : List Chunk} {n q a : ℕ} {x : Bool}
    (hmd : md.Inv U) (hst : st.Inv c (md.chunks ++ held)) (hU : U q = some (n, x))
    (ha : Housed held a) : ¬(q ≤ a ∧ a < q + n) := by
  obtain ⟨i, e, hi, hcov⟩ := hmd.exists_entry hU
  obtain ⟨L, hL⟩ := hmd.tier.entry_holds hi
  have hend := hL.whole Metadata.refines hcov hU
  have hgood := hmd.tier.entry_good hi
  have hlo : e.frame.mem.ptr = e.lo := hgood.ptr
  have hstop : e.hi ≤ e.frame.mem.ptr + e.frame.mem.len := hgood.hi_le
  have hqlo : e.lo ≤ q := hcov.1
  obtain ⟨d, hd, hda, had⟩ := ha
  have hmem : e.frame.mem ∈ md.chunks :=
    List.mem_map_of_mem (f := Frame.mem) (Tier.mem_frames (List.mem_of_getElem? hi))
  obtain ⟨l₁, l₂, hsplit⟩ := List.append_of_mem hmem
  have hperm : (md.chunks ++ held).Perm (e.frame.mem :: (l₁ ++ l₂ ++ held)) := by
    rw [hsplit, List.append_assoc, List.cons_append, List.append_assoc]
    exact List.perm_middle
  have hapart := (hst.perm hperm).chunks_apart (d := d) (by simp [hd])
  unfold Owner.apart at hapart
  omega

/-- The tables after an expansion that failed: `__va_carve` gave nothing, nor did the system, or the
tier was full and the chunk that was given is back. -/
def Relinquished (c : VaConfig) (full : Prop) (st st' : Store α) : Prop :=
  ∃ g : Answer, (∃ sz, (Va.carve c g.va st.va sz).1 = 0 ∧
      st' = { st with va := (Va.carve c g.va st.va sz).2 }) ∨
    full ∧ ∃ mem, Store.Restored c mem { st with va := reserveOnce g.va st.va } st'

inductive Outcome (G : Growing σ α) (U : Active) (l : List ℕ) (held : List Chunk) (p : ℕ)
    (st : Store α) (b b' : Listed σ (Store α)) : Bool → Prop
  | grown (st' : Store α) (sh : Sheet σ) (hsh : sh.empty = false)
      (tier : Grown G U l p sh st' b b') (tables : st'.Inv G.va (sh.mem :: held)) :
      Outcome G U l held p st b b' true
  | undone (tier : Undone G.toSheetType p b b')
      (linked : b'.Linked G.toSheetType (update U p none) l)
      (node : ∀ q ∈ l, b'.node q = b.node q) (sheetOf : ∀ q ∈ l, b'.sheetOf q = b.sheetOf q)
      (frames : b'.metadata.tier.frames = b.metadata.tier.frames)
      (tables : b'.kernel.Inv G.va held)
      (back : Relinquished G.va (G.params.maxSheets ≤ b.index.count) st b'.kernel) :
      Outcome G U l held p st b b' false

theorem buildSheet_outcome {held : List Chunk} {g : Answer} {mem : Chunk} {st₁ : Store α} {sz : ℕ}
    (hmax : G.params.maxSheets ≤ 2 ^ 32 - 64) (hs : b.Spare G.toSheetType U l p)
    (h : b.Linked G.toSheetType U l) (hst : st.Inv G.va held) (hg : Store.Granted G.va st sz g)
    (hfit : Store.fits G.va sz) (hget : st.getKernelChunk G.va g sz = .ok (mem, st₁))
    (hval : kernelChunkValid mem = true)
    (hbuild : buildSheet G { b with kernel := st₁ } g p mem = .ok (r, b')) :
    Outcome G U l held p st b b' r := by
  unfold buildSheet at hbuild
  obtain ⟨st₂, hreg, hbuild⟩ := ok_of_bind hbuild
  obtain ⟨hst₂, -⟩ := hst.acquire hg hfit hget hval hreg
  obtain ⟨hback, hrestored⟩ := hst.abandon G.wide hg hfit hget hval hreg
  generalize hsheet : (⟨mem, G.params.guard, G.params.format g.mem g.tags
    ⟨mem.ptr, mem.len - G.params.guard⟩⟩ : Sheet σ) = sh at hbuild
  have hmem : sh.mem = mem := by rw [← hsheet]
  have hempty : sh.empty = false := by
    unfold Sheet.empty
    rw [hmem]
    exact decide_eq_false (hst₂.top List.mem_cons_self).1
  simp only [hempty, Bool.false_eq_true, if_false] at hbuild
  have hsame : construct { b with kernel := st₁ } p sh st₂ = b.construct p sh st₂ := rfl
  rw [hsame] at hbuild
  rcases attach_cases st₂ hmax hs h hempty with ⟨b₁, hatt, hgrown⟩ |
    ⟨b₁, hatt, hfull, hundone, hinv, hframes, hrel⟩
  · rw [hatt] at hbuild
    cases hbuild
    refine .grown st₂ sh hempty hgrown ?_
    rw [hmem]
    exact hst₂
  · rw [hatt] at hbuild
    cases hbuild
    rw [G.release_eq, hmem] at hrel
    obtain ⟨hlinked, hnode, hsheetOf⟩ := hundone.linked hs h hinv
    refine .undone hundone hlinked hnode hsheetOf hframes ?_ ⟨g, .inr ⟨hfull, mem, ?_⟩⟩
    · rw [hrel]
      exact hback
    · rw [hrel]
      exact hrestored

theorem expand_outcome {held : List Chunk} {bytes : ℕ} (hmax : G.params.maxSheets ≤ 2 ^ 32 - 64)
    (hk : k.Granted G.va) (hfit : Store.fits G.va bytes) (h : b.Linked G.toSheetType U l)
    (hst : b.kernel.Inv G.va (b.metadata.chunks ++ held)) (hhead : Housed held b.head)
    (hhome : ∀ n, b.node b.head = some n → Housed held n.nd)
    (hexp : b.expand G k bytes = .ok (r, b')) :
    ∃ p n c md st, b.metadata.markArena G k b.kernel (sizeofNode + G.sizeofSheet) =
        .ok (⟨p, c⟩, md, st) ∧ U p = none ∧ p ∉ l ∧
      Outcome G (update U p (some (n, false))) l (md.chunks ++ held) p st
        { b with metadata := md, kernel := st } b' r := by
  unfold expand at hexp
  obtain ⟨⟨buf, md, st⟩, hmark, hexp⟩ := ok_of_bind hexp
  obtain ⟨n, hbuf, hp, hU, hn, hmd, hst'⟩ := Metadata.retryMark_spec hk h.metadata hst hmark
  have hself : update U buf.ptr (some (n, false)) buf.ptr = some (n, false) := update_self _ _ _
  have hout : ∀ a, Housed held a → ¬(buf.ptr ≤ a ∧ a < buf.ptr + (sizeofNode + G.sizeofSheet)) := by
    intro a ha
    have := not_housed hmd hst' hself ha
    omega
  have hnew : buf.ptr ∉ l := by
    intro hmem
    by_cases heq : buf.ptr = b.head
    · have := hout b.head hhead
      have := G.sizeofSheet_pos
      omega
    · obtain ⟨-, len, hlen, -⟩ := h.block _ hmem heq
      rw [hU] at hlen
      cases hlen
  have hlinked : Linked G.toSheetType (update U buf.ptr (some (n, false)))
      { b with metadata := md, kernel := st } l :=
    h.congr_metadata hmd fun q hq _ => update_of_ne (fun he : q = buf.ptr => hnew (he ▸ hq)) _ _
  have hspare : Spare G.toSheetType (update U buf.ptr (some (n, false)))
      { b with metadata := md, kernel := st } l buf.ptr :=
    ⟨hp, hnew, ⟨n, hself, hn⟩, fun m hm => ⟨hout _ hhead, hout _ (hhome m hm)⟩⟩
  refine ⟨buf.ptr, n, buf.len, md, st, hmark, hU, hnew, ?_⟩
  simp only at hexp
  obtain ⟨⟨mem, st₁⟩, hget, hexp⟩ := ok_of_bind hexp
  simp only at hexp
  split_ifs at hexp with hval
  · exact buildSheet_outcome (b := { b with metadata := md, kernel := st }) hmax hspare hlinked hst'
      (hk st _) hfit hget hval hexp
  · -- no chunk: the block goes back
    rcases hst'.getKernelChunk_cases (hk st _) hfit hget with ⟨-, hnone, hst₁⟩ | ⟨hyes, -⟩
      | ⟨hyes, -⟩
    · obtain ⟨b₁, hunmark, hundone, hinv, hframes, hkernel⟩ :=
        unmarkFromArena_undone (S := G.toSheetType) (b := { b with metadata := md, kernel := st })
          (d := { b with metadata := md, kernel := st₁ }) hmd hself (fun _ _ => rfl)
          (fun _ _ => rfl) rfl rfl rfl rfl rfl rfl rfl
      rw [hunmark] at hexp
      cases hexp
      obtain ⟨hlinked', hnode, hsheetOf⟩ := hundone.linked hspare hlinked hinv
      refine .undone hundone hlinked' hnode hsheetOf hframes ?_
        ⟨k st bytes, .inl ⟨bytes, hnone, ?_⟩⟩
      · rw [hkernel, hst₁]
        exact (hst'.carve (hk st _) hfit hnone).2
      · rw [hkernel, hst₁]
    · exact absurd hyes hval
    · exact absurd hyes hval

end
end Listed
end AbcMalloc.Arena
