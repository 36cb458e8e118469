import AbcMalloc.Arena.Sweep

/-! A node and its sheet are built in a spare block of the metadata; the node is linked behind the
tail and the sheet enters the index. A node that is unlinked at once leaves the list as it was. -/
namespace AbcMalloc.Arena
open Function Foundation
namespace Listed
variable {σ κ : Type} {S : SheetType σ κ} {U U' : Active} {b b' : Listed σ κ} {l l₁ l₂ : List ℕ}
  {p q z i len : ℕ} {n m : Node} {sh : Sheet σ}

theorem Linked.head_mem (h : b.Linked S U l) : b.head ∈ l := by
  obtain ⟨rest, hl⟩ := h.head
  rw [hl]
  exact List.mem_cons_self

/-! ## Linking -/

/-- `link_at_tail` writes to the node and to the old tail. -/
theorem linkAtTail_eq (hp : b.node p = some n) (htail : b.tail ≠ 0) (hz : b.node b.tail = some m)
    (hne : p ≠ b.tail) : b.linkAtTail p = .ok { b with
      node := update (update b.node p (some { n with prev := b.tail, nxt := 0 })) b.tail
        (some { m with nxt := p })
      tail := p } := by
  have hz' : update b.node p (some { n with prev := b.tail, nxt := 0 }) b.tail = some m := by
    rw [update_of_ne hne.symm, hz]
  unfold linkAtTail linkTail
  rw [writeNode_eq hp]
  simp only [bind, Except.bind]
  rw [if_pos htail]
  have hwrite := writeNode_eq (b := { b with
    node := update b.node p (some { n with prev := b.tail, nxt := 0 }) }) hz'
    fun m => { m with nxt := p }
  rw [hwrite]

theorem unlinkNode_last (hp : b.node p = some n) (hlast : b.tail = p) (hnxt : n.nxt = 0)
    (hprev : n.prev ≠ 0) (hz : b.node n.prev = some m) (hne : p ≠ n.prev) :
    b.unlinkNode p = .ok { b with
      node := update b.node n.prev (some { m with nxt := 0 })
      tail := n.prev } := by
  have hp' : update b.node n.prev (some { m with nxt := 0 }) p = some n := by
    rw [update_of_ne hne, hp]
  unfold unlinkNode unlinkPrev unlinkNext unlinkTail
  rw [readNode_eq hp]
  simp only [bind, Except.bind]
  rw [if_pos hprev, writeNode_eq hz, hnxt]
  simp only
  rw [readNode_eq hp']
  simp only [hnxt, ne_eq, not_true_eq_false, if_false, hlast, if_true]
  rw [readNode_eq hp']

/-- Linking a node at the tail and unlinking it at once gives the list back. -/
theorem unlinkNode_linkAtTail (hp : b.node p = some n) (htail : b.tail ≠ 0)
    (hz : b.node b.tail = some m) (hend : m.nxt = 0) (hne : p ≠ b.tail) {x : RangeIndex ℕ} :
    ∃ b₁, b.linkAtTail p = .ok b₁ ∧ unlinkNode { b₁ with index := x } p = .ok { b with
      index := x
      node := update b.node p (some { n with prev := b.tail, nxt := 0 }) } := by
  refine ⟨_, linkAtTail_eq hp htail hz hne, ?_⟩
  have hp' : update (update b.node p (some { n with prev := b.tail, nxt := 0 })) b.tail
      (some { m with nxt := p }) p = some { n with prev := b.tail, nxt := 0 } := by
    rw [update_of_ne hne, update_self]
  have hunlink := unlinkNode_last (b := { b with
    index := x
    node := update (update b.node p (some { n with prev := b.tail, nxt := 0 })) b.tail
      (some { m with nxt := p })
    tail := p }) hp' rfl rfl htail (update_self _ _ _) hne
  rw [hunlink]
  simp only [update_idem]
  have hkeep : update (update b.node p (some { n with prev := b.tail, nxt := 0 })) b.tail
      (some { m with nxt := 0 }) = update b.node p (some { n with prev := b.tail, nxt := 0 }) := by
    rw [update_eq_self_iff, update_of_ne hne.symm, hz]
    cases m
    cases hend
    rfl
  rw [hkeep]

theorem Linked.exists_tail (h : b.Linked S U l) :
    ∃ l₁ m, l = l₁ ++ [b.tail] ∧ b.tail ≠ 0 ∧ b.node b.tail = some m ∧ m.nxt = 0 := by
  obtain ⟨rest, hl⟩ := h.head
  rcases List.eq_nil_or_concat l with hnil | ⟨l₁, z, hz⟩
  · rw [hnil] at hl
    cases hl
  · rw [List.concat_eq_append] at hz
    have htail : b.tail = z := by
      rw [h.tail, hz, List.getLastD_concat]
    have hmem : z ∈ l := by
      rw [hz]
      simp
    obtain ⟨hz₀, m, hm, -⟩ := h.node z hmem
    have hseg : Seg b.next b.prev 0 (l₁ ++ z :: []) 0 := hz ▸ h.seg
    have hnxt := hseg.links.2
    rw [next_eq hm] at hnxt
    rw [htail]
    exact ⟨l₁, m, hz, hz₀, hm, hnxt⟩

/-- The blocks of the nodes stay out when other blocks come and go. -/
theorem Linked.congr_metadata (h : b.Linked S U l) {md : Metadata} {k : κ} (hmd : md.Inv U')
    (hU : ∀ q ∈ l, q ≠ b.head → U' q = U q) :
    Linked S U' { b with metadata := md, kernel := k } l := by
  obtain ⟨h₁, h₂, h₃, h₄, h₅, h₆, h₇, h₈, h₉, -, h₁₁, h₁₂⟩ := h
  refine ⟨h₁, h₂, h₃, h₄, h₅, h₆, h₇, h₈, h₉, hmd, ?_, h₁₂⟩
  intro q hq hqh
  obtain ⟨hnd, len, hlen, hle⟩ := h₁₁ q hq hqh
  exact ⟨hnd, len, (hU q hq hqh).trans hlen, hle⟩

/-- The block at `p` is out, for a node with its sheet, and no node of the list lies in it. -/
structure Spare (S : SheetType σ κ) (U : Active) (b : Listed σ κ) (l : List ℕ) (p : ℕ) : Prop where
  pos : p ≠ 0
  not_mem : p ∉ l
  out : ∃ len, U p = some (len, false) ∧ sizeofNode + S.sizeofSheet + 32 ≤ len
  head : ∀ n, b.node b.head = some n →
    ¬(p ≤ b.head ∧ b.head < p + (sizeofNode + S.sizeofSheet)) ∧
      ¬(p ≤ n.nd ∧ n.nd < p + (sizeofNode + S.sizeofSheet))

theorem Spare.outside (hs : b.Spare S U l p) (h : b.Linked S U l) (hq : q ∈ l)
    (hn : b.node q = some n) : ¬(p ≤ q ∧ q < p + (sizeofNode + S.sizeofSheet)) ∧
      ¬(p ≤ n.nd ∧ n.nd < p + (sizeofNode + S.sizeofSheet)) := by
  by_cases hhead : q = b.head
  · subst hhead
    exact hs.head n hn
  · obtain ⟨len, hU, hlen⟩ := hs.out
    obtain ⟨hnd, len', hU', hlen'⟩ := h.block q hq hhead
    have hnd' : n.nd = q + sizeofNode := by simpa [hn] using hnd
    have hne : p ≠ q := fun he => hs.not_mem (he ▸ hq)
    have hapart := h.metadata.blocks_apart hU hU' hne
    constructor
    · omega
    · omega

def construct (b : Listed σ κ) (p : ℕ) (sh : Sheet σ) (k : κ) : Listed σ κ :=
  { b with
    kernel := k
    node := update b.node p (some ⟨p + sizeofNode, 0, 0⟩)
    sheet := update b.sheet (p + sizeofNode) (some sh) }

/-- What is written into a spare block changes nothing for the list. -/
theorem Spare.construct (hs : b.Spare S U l p) (h : b.Linked S U l) (sh : Sheet σ) (k : κ) :
    (∀ q ∈ l, (b.construct p sh k).node q = b.node q) ∧
      (∀ q ∈ l, (b.construct p sh k).sheetOf q = b.sheetOf q) ∧
      Linked S U (b.construct p sh k) l := by
  have hpos := S.sizeofSheet_pos
  have hnode : ∀ q ∈ l, (b.construct p sh k).node q = b.node q := by
    intro q hq
    exact update_of_ne (fun he : q = p => hs.not_mem (he ▸ hq)) _ _
  have hsheetOf : ∀ q ∈ l, (b.construct p sh k).sheetOf q = b.sheetOf q := by
    intro q hq
    obtain ⟨-, n, hn, -⟩ := h.node q hq
    have hout := (hs.outside h hq hn).2
    unfold sheetOf
    rw [hnode q hq, hn]
    exact update_of_ne (by omega) _ _
  refine ⟨hnode, hsheetOf, h.head, ?_, h.tail, h.nodup, ?_, ?_, h.indexed, h.count_le, h.clear,
    h.metadata, ?_, ?_⟩
  · apply h.seg.congr
    · intro q hq
      unfold next
      rw [hnode q hq]
    · intro q hq
      unfold prev
      rw [hnode q hq]
  · intro q hq
    rw [hnode q hq]
    exact h.node q hq
  · intro q hq
    rw [hsheetOf q hq]
    exact h.sheet q hq
  · intro q hq hqh
    rw [hnode q hq]
    exact h.block q hq hqh
  · intro q hq hqh n hn
    have hn : (b.construct p sh k).node b.head = some n := hn
    rw [hnode _ h.head_mem] at hn
    exact h.home q hq hqh n hn

theorem Spare.still (hs : b.Spare S U l p) (h : b.Linked S U l) (sh : Sheet σ) (k : κ) :
    (b.construct p sh k).Spare S U l p where
  pos := hs.pos
  not_mem := hs.not_mem
  out := hs.out
  head n hn := by
    have hn : (b.construct p sh k).node b.head = some n := hn
    rw [(hs.construct h sh k).1 _ h.head_mem] at hn
    exact hs.head n hn

/-- `d` is the tier `b` with the node `p` behind its tail, whose node was `m`. -/
structure Pushed (S : SheetType σ κ) (p : ℕ) (m : Node) (sh : Sheet σ) (b d : Listed σ κ) :
    Prop where
  head : d.head = b.head
  tail : d.tail = p
  index : d.index = (b.index.registerSheet S.params.maxSheets ⟨sh.addr, sh.addrEnd, p⟩).2
  metadata : d.metadata = b.metadata
  sheet : d.sheet = b.sheet
  new : d.node p = some ⟨p + sizeofNode, b.tail, 0⟩
  last : d.node b.tail = some { m with nxt := p }
  other : ∀ q, q ≠ p → q ≠ b.tail → d.node q = b.node q

theorem Pushed.node (hd : Pushed S p m sh b b') (hm : b.node b.tail = some m) (hq : q ≠ p)
    (hn : b.node q = some n) :
    ∃ n', b'.node q = some n' ∧ n'.nd = n.nd ∧ n'.prev = n.prev := by
  by_cases hqz : q = b.tail
  · subst hqz
    obtain rfl := Option.some.inj (hm.symm.trans hn)
    exact ⟨_, hd.last, rfl, rfl⟩
  · exact ⟨n, (hd.other q hq hqz).trans hn, rfl, rfl⟩

theorem Pushed.sheetOf (hd : Pushed S p m sh b b') (hm : b.node b.tail = some m) (hq : q ≠ p)
    (hn : b.node q = some n) : b'.sheetOf q = b.sheetOf q := by
  obtain ⟨n', hn', hnd, -⟩ := hd.node hm hq hn
  simp only [Listed.sheetOf, hn, hn', Option.bind_some, hnd, hd.sheet]

theorem Pushed.seg (hd : Pushed S p m sh b b') (hm : b.node b.tail = some m) (h : b.Linked S U l)
    (hp : p ∉ l) (hl : l = l₁ ++ [b.tail]) : Seg b'.next b'.prev 0 (l ++ [p]) 0 := by
  have hne : ∀ q ∈ l, q ≠ p := fun q hq he => hp (he ▸ hq)
  rw [hl]
  apply (hl ▸ h.seg).pushBack
  · intro q hq
    have hmem : q ∈ l := by
      rw [hl]
      simp [hq]
    have hqz : q ≠ b.tail := by
      have hnodup := h.nodup
      rw [hl, List.nodup_append] at hnodup
      exact hnodup.2.2 q hq b.tail (by simp)
    unfold next
    rw [hd.other q (hne q hmem) hqz]
  · exact next_eq hd.last
  · intro q hq
    have hmem : q ∈ l := hl ▸ hq
    obtain ⟨-, n, hn, -⟩ := h.node q hmem
    obtain ⟨n', hn', -, hprev⟩ := hd.node hm (hne q hmem) hn
    rw [prev_eq hn', prev_eq hn, hprev]
  · exact prev_eq hd.new
  · exact next_eq hd.new

/-- A node at the tail and in the index. -/
theorem Pushed.linked (hmax : S.params.maxSheets ≤ 2 ^ 32 - 64) (hd : Pushed S p m sh b b')
    (hm : b.node b.tail = some m) (hs : b.Spare S U l p) (h : b.Linked S U l)
    (hroom : b.index.count < S.params.maxSheets) (hsh : b.sheet (p + sizeofNode) = some sh) :
    b'.Linked S U (l ++ [p]) := by
  obtain ⟨l₁, -, hl, -⟩ := h.exists_tail
  have hne : ∀ q ∈ l, q ≠ p := fun q hq he => hs.not_mem (he ▸ hq)
  have hins : RangeIndex.Inserted S.params.maxSheets ⟨sh.addr, sh.addrEnd, p⟩ _ b.index b'.index :=
    hd.index ▸ RangeIndex.registerSheet_inserted hroom _
  obtain ⟨rest, hrest⟩ := h.head
  have hsome : ∀ q ∈ l, ∃ n n', b.node q = some n ∧ b'.node q = some n' ∧ n'.nd = n.nd ∧ q ≠ 0 ∧
      n.nd ≠ 0 := by
    intro q hq
    obtain ⟨hq₀, n, hn, hn₀⟩ := h.node q hq
    obtain ⟨n', hn', hnd, -⟩ := hd.node hm (hne q hq) hn
    exact ⟨n, n', hn, hn', hnd, hq₀, hn₀⟩
  constructor
  · exact ⟨rest ++ [p], by rw [hrest, hd.head]; rfl⟩
  · exact hd.seg hm h hs.not_mem hl
  · rw [hd.tail, List.getLastD_concat]
  · rw [List.nodup_append]
    refine ⟨h.nodup, List.nodup_singleton p, ?_⟩
    intro q hq r hr
    rw [List.mem_singleton.1 hr]
    exact hne q hq
  · intro q hq
    rcases List.mem_append.1 hq with hq | hq
    · obtain ⟨n, n', -, hn', hnd, hq₀, hn₀⟩ := hsome q hq
      exact ⟨hq₀, n', hn', by rw [hnd]; exact hn₀⟩
    · rw [List.mem_singleton.1 hq]
      exact ⟨hs.pos, _, hd.new, by have := hs.pos; simp only; omega⟩
  · intro q hq
    rcases List.mem_append.1 hq with hq | hq
    · obtain ⟨n, n', hn, -⟩ := hsome q hq
      rw [hd.sheetOf hm (hne q hq) hn]
      exact h.sheet q hq
    · rw [List.mem_singleton.1 hq]
      refine ⟨sh, ?_⟩
      unfold Listed.sheetOf
      rw [hd.new, Option.bind_some, hd.sheet, hsh]
  · have hperm : b'.index.sheets.Perm ((⟨sh.addr, sh.addrEnd, p⟩, true) :: b.index.sheets) := by
      rw [hins.sheets_eq hmax hroom]
      simp only [RangeIndex.SheetList.apply]
      rw [if_neg (by rw [b.index.length_sheets]; omega)]
      exact List.perm_orderedInsert _ _ _
    refine (hperm.map fun e => e.1.nd).trans ?_
    rw [List.map_cons]
    exact (h.indexed.cons p).trans (List.perm_append_singleton p l).symm
  · rw [hins.count]
    omega
  · intro i hi hw
    rw [hins.count] at hi
    have hpos := hins.pos_le
    rw [hins.maskGet hw, if_neg (by omega), if_neg (by omega)]
    exact h.clear (i - 1) (by omega) (by omega)
  · rw [hd.metadata]
    exact h.metadata
  · intro q hq hqh
    rw [hd.head] at hqh
    rcases List.mem_append.1 hq with hq | hq
    · obtain ⟨n, n', hn, hn', hnd, -⟩ := hsome q hq
      obtain ⟨hblock, hout⟩ := h.block q hq hqh
      refine ⟨?_, hout⟩
      rw [hn, Option.map_some] at hblock
      rw [hn', Option.map_some, hnd]
      exact hblock
    · rw [List.mem_singleton.1 hq, hd.new]
      exact ⟨rfl, hs.out⟩
  · intro q hq hqh n hn
    rw [hd.head] at hqh hn ⊢
    obtain ⟨n₀, n', hn₀, hn', hnd, -⟩ := hsome b.head h.head_mem
    obtain rfl := Option.some.inj (hn'.symm.trans hn)
    rw [hnd]
    rcases List.mem_append.1 hq with hq | hq
    · exact h.home q hq hqh n₀ hn₀
    · rw [List.mem_singleton.1 hq]
      exact hs.head n₀ hn₀

end Listed
end AbcMalloc.Arena
