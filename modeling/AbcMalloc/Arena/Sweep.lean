import AbcMalloc.Arena.Model
import AbcMalloc.Arena.Nodes

/-! The sweep of a tier: which sheets it gives back, and what it leaves of the index, the bitmap,
the list of nodes and the metadata. -/
namespace AbcMalloc.Arena
open Function Foundation

namespace Listed
variable {σ κ : Type} {S : SheetType σ κ} {U : Active} {b b' b₁ : Listed σ κ} {l l₁ l₂ : List ℕ}
  {p q z i : ℕ} {m n : Node} {sh : Sheet σ}

def next (b : Listed σ κ) (p : ℕ) : ℕ := ((b.node p).map Node.nxt).getD 0

def prev (b : Listed σ κ) (p : ℕ) : ℕ := ((b.node p).map Node.prev).getD 0

def sheetOf (b : Listed σ κ) (p : ℕ) : Option (Sheet σ) := (b.node p).bind fun n => b.sheet n.nd

/-- The sheets that the sweep gives back: not the head, drained, and mostly tombstoned. -/
def dead (T : Params σ) (b : Listed σ κ) (p : ℕ) : Bool :=
  p ≠ b.head && (b.sheetOf p).any fun s => s.reclaimable T

/-- The nodes `l`, in the order of the list, hold the sheets of the index; each but the head
shares its block of metadata with its sheet. -/
structure Linked (S : SheetType σ κ) (U : Active) (b : Listed σ κ) (l : List ℕ) : Prop where
  head : ∃ rest, l = b.head :: rest
  seg : Seg b.next b.prev 0 l 0
  tail : b.tail = l.getLastD 0
  nodup : l.Nodup
  node : ∀ p ∈ l, p ≠ 0 ∧ ∃ n, b.node p = some n ∧ n.nd ≠ 0
  sheet : ∀ p ∈ l, ∃ s, b.sheetOf p = some s
  indexed : (b.index.sheets.map fun e => e.1.nd).Perm l
  count_le : b.index.count ≤ S.params.maxSheets
  clear : ∀ i, b.index.count ≤ i → i / 64 < RangeIndex.detailWords S.params.maxSheets →
    b.index.maskGet i = false
  metadata : b.metadata.Inv U
  block : ∀ p ∈ l, p ≠ b.head → (b.node p).map Node.nd = some (p + sizeofNode) ∧
    ∃ len, U p = some (len, false) ∧ sizeofNode + S.sizeofSheet + 32 ≤ len
  /-- The head and its sheet lie in blocks of their own. -/
  home : ∀ p ∈ l, p ≠ b.head → ∀ n, b.node b.head = some n →
    ¬(p ≤ b.head ∧ b.head < p + (sizeofNode + S.sizeofSheet)) ∧
      ¬(p ≤ n.nd ∧ n.nd < p + (sizeofNode + S.sizeofSheet))

theorem next_eq (h : b.node p = some n) : b.next p = n.nxt := by simp [next, h]

theorem prev_eq (h : b.node p = some n) : b.prev p = n.prev := by simp [prev, h]

theorem next_setNxt (n : Node) (v : ℕ) :
    next { b with node := update b.node p (some { n with nxt := v }) } = update b.next p v := by
  funext x
  by_cases hx : x = p
  · simp [next, hx]
  · simp [next, update_of_ne hx]

theorem prev_setNxt (h : b.node p = some n) (v : ℕ) :
    prev { b with node := update b.node p (some { n with nxt := v }) } = b.prev := by
  funext x
  by_cases hx : x = p
  · simp [prev, hx, h]
  · simp [prev, update_of_ne hx]

theorem next_setPrev (h : b.node p = some n) (v : ℕ) :
    next { b with node := update b.node p (some { n with prev := v }) } = b.next := by
  funext x
  by_cases hx : x = p
  · simp [next, hx, h]
  · simp [next, update_of_ne hx]

theorem prev_setPrev (n : Node) (v : ℕ) :
    prev { b with node := update b.node p (some { n with prev := v }) } = update b.prev p v := by
  funext x
  by_cases hx : x = p
  · simp [prev, hx]
  · simp [prev, update_of_ne hx]

theorem Linked.null_not_mem (h : b.Linked S U l) : 0 ∉ l := fun h0 => (h.node 0 h0).1 rfl

/-- A node that is not the head has a predecessor. -/
theorem Linked.split (h : b.Linked S U l) (hp : p ∈ l) (hne : p ≠ b.head) :
    ∃ l₁ z l₂, l = l₁ ++ z :: p :: l₂ := by
  obtain ⟨rest, hl⟩ := h.head
  rw [hl, List.mem_cons] at hp
  obtain ⟨m₁, l₂, hrest⟩ := List.append_of_mem (hp.resolve_left hne)
  rcases List.eq_nil_or_concat m₁ with hm | ⟨m, z, hm⟩
  · subst hm
    exact ⟨[], b.head, l₂, by rw [hl, hrest]; rfl⟩
  · subst hm
    exact ⟨b.head :: m, z, l₂, by rw [hl, hrest]; simp⟩

/-! ## Unlinking -/

theorem writeNode_eq (h : b.node p = some n) (f : Node → Node) :
    b.writeNode p f = .ok { b with node := update b.node p (some (f n)) } := by
  unfold writeNode
  rw [h]

theorem readNode_eq (h : b.node p = some n) : b.readNode p = .ok n := by
  unfold readNode
  rw [h]

/-- `unlink_node` of `p` leaves the list `l`. -/
def Unlinks (b : Listed σ κ) (p : ℕ) (l : List ℕ) : Prop :=
  ∃ node' tail', b.unlinkNode p = .ok { b with node := node', tail := tail' } ∧
    Seg (next { b with node := node', tail := tail' })
    (prev { b with node := node', tail := tail' })
      0 l 0 ∧
    tail' = l.getLastD 0 ∧ ∀ q, (node' q).map Node.nd = (b.node q).map Node.nd

theorem Linked.around (h : b.Linked S U (l₁ ++ z :: p :: l₂)) :
    z ≠ 0 ∧ ∃ m n, b.node z = some m ∧ b.node p = some n ∧ n.prev = z ∧ n.nxt = l₂.headD 0 := by
  obtain ⟨hz₀, m, hz, -⟩ := h.node z (by simp)
  obtain ⟨-, n, hp, -⟩ := h.node p (by simp)
  have hsplit : l₁ ++ z :: p :: l₂ = (l₁ ++ [z]) ++ p :: l₂ := by simp
  have hlinks := (hsplit ▸ h.seg).links
  rw [prev_eq hp, next_eq hp, List.getLastD_concat] at hlinks
  exact ⟨hz₀, m, n, hz, hp, hlinks⟩

theorem unlinkPrev_eq (hz₀ : z ≠ 0) (hz : b.node z = some m) (hp : b.node p = some n)
    (hprev : n.prev = z) :
    b.unlinkPrev p = .ok { b with node := update b.node z (some { m with nxt := n.nxt }) } := by
  unfold unlinkPrev
  rw [readNode_eq hp]
  simp only [bind, Except.bind]
  rw [if_pos (by rw [hprev]; exact hz₀), hprev, writeNode_eq hz]

/-- The tail goes: its predecessor is the new one. -/
theorem unlinks_last (h : b.Linked S U (l₁ ++ [z, p])) : Unlinks b p (l₁ ++ [z]) := by
  obtain ⟨hz₀, m, n, hz, hp, hprev, hnxt⟩ := h.around
  have hnull : n.nxt = 0 := hnxt
  have hnodup := h.nodup
  have hzp : z ≠ p := by
    rintro rfl
    simp [List.nodup_append] at hnodup
  have hp₁ : update b.node z (some { m with nxt := n.nxt }) p = some n := by
    rw [update_of_ne hzp.symm, hp]
  refine ⟨update b.node z (some { m with nxt := n.nxt }), z, ?_, ?_, by simp, ?_⟩
  · have htail : b.tail = p := by
      rw [h.tail]
      simp
    unfold unlinkNode unlinkNext unlinkTail
    rw [unlinkPrev_eq hz₀ hz hp hprev]
    simp only [bind, Except.bind]
    rw [readNode_eq hp₁]
    simp only [hnull, ne_eq, not_true_eq_false, if_false, htail, if_true]
    rw [hnull] at hp₁
    rw [readNode_eq hp₁]
    simp only [hprev]
  · have hseg := h.seg.splice hnodup h.null_not_mem
    rw [next_eq hp, if_neg (by simp [hnull])] at hseg
    rw [← next_setNxt m, ← prev_setNxt hz n.nxt] at hseg
    exact hseg
  · intro q
    by_cases hqz : q = z
    · simp [hqz, hz]
    · rw [update_of_ne hqz]

/-- Any other node goes: its neighbours are linked to each other. -/
theorem unlinks_between {y : ℕ} {ys : List ℕ} (h : b.Linked S U (l₁ ++ z :: p :: y :: ys)) :
    Unlinks b p (l₁ ++ z :: y :: ys) := by
  obtain ⟨hz₀, m, n, hz, hp, rfl, hnxt⟩ := h.around
  obtain rfl : n.nxt = y := hnxt
  obtain ⟨hy₀, k, hy, -⟩ := h.node n.nxt (by simp)
  have hnodup := h.nodup
  obtain ⟨-, hnodup', -⟩ := List.nodup_append.1 hnodup
  simp only [List.nodup_cons, List.mem_cons, not_or] at hnodup'
  obtain ⟨⟨hzp, hzy, -⟩, ⟨hpy, hpys⟩, -⟩ := hnodup'
  have hlast : b.tail = ys.getLastD n.nxt := by
    rw [h.tail, getLastD_append_cons, List.getLastD_cons, List.getLastD_cons]
  have htail : b.tail = (l₁ ++ n.prev :: n.nxt :: ys).getLastD 0 := by
    rw [hlast, getLastD_append_cons, List.getLastD_cons]
  have hp₁ : update b.node n.prev (some { m with nxt := n.nxt }) p = some n := by
    rw [update_of_ne (Ne.symm hzp), hp]
  have hy₁ : update b.node n.prev (some { m with nxt := n.nxt }) n.nxt = some k := by
    rw [update_of_ne (Ne.symm hzy), hy]
  refine ⟨update (update b.node n.prev (some { m with nxt := n.nxt })) n.nxt
    (some { k with prev := n.prev }), b.tail, ?_, ?_, htail, ?_⟩
  · unfold unlinkNode unlinkNext unlinkTail
    rw [unlinkPrev_eq hz₀ hz hp rfl]
    simp only [bind, Except.bind]
    rw [readNode_eq hp₁]
    simp only
    rw [if_pos hy₀, writeNode_eq hy₁]
    simp only
    rw [if_neg (hlast ▸ getLastD_ne hpys hpy)]
  · have hseg := h.seg.splice hnodup h.null_not_mem
    rw [next_eq hp, if_pos hy₀, ← next_setNxt m, ← prev_setNxt hz n.nxt, ← prev_setPrev k,
      ← next_setPrev hy₁ n.prev] at hseg
    exact hseg
  · intro q
    by_cases hqy : q = n.nxt
    · simp [hqy, hy]
    · rw [update_of_ne hqy]
      by_cases hqz : q = n.prev
      · simp [hqz, hz]
      · rw [update_of_ne hqz]

theorem unlinkNode_spec (h : b.Linked S U (l₁ ++ z :: p :: l₂)) :
    Unlinks b p (l₁ ++ z :: l₂) := by
  cases l₂ with
  | nil => exact unlinks_last h
  | cons y ys => exact unlinks_between h

/-! ## One round -/

/-- A position below the number of sheets holds a node of the list. -/
theorem Linked.mem (h : b.Linked S U l) (hi : i < b.index.count) : (b.index.idx i).nd ∈ l := by
  rw [← h.indexed.mem_iff]
  apply List.mem_map.2
  refine ⟨(b.index.idx i, b.index.maskGet i), ?_, rfl⟩
  exact List.mem_of_getElem? (getElem?_toList hi)

/-- The block of a node holds no other node of the list, and not the sheet of one. -/
theorem Linked.outside (h : b.Linked S U l) (hp : p ∈ l) (hne : p ≠ b.head) (hq : q ∈ l)
    (hqp : q ≠ p) (hn : b.node q = some n) :
    ¬(p ≤ q ∧ q < p + (sizeofNode + S.sizeofSheet)) ∧
      ¬(p ≤ n.nd ∧ n.nd < p + (sizeofNode + S.sizeofSheet)) := by
  by_cases hhead : q = b.head
  · subst hhead
    exact h.home p hp hne n hn
  · obtain ⟨-, len, hU, hlen⟩ := h.block p hp hne
    obtain ⟨hnd, len', hU', hlen'⟩ := h.block q hq hhead
    have hnd' : n.nd = q + sizeofNode := by simpa [hn] using hnd
    have hapart := h.metadata.blocks_apart hU hU' hqp.symm
    constructor
    · omega
    · omega

/-- Sheets may change and go, as long as those of the nodes are there. -/
theorem Linked.congr_sheet (h : b.Linked S U l) {s : ℕ → Option (Sheet σ)} {k : κ}
    (hs : ∀ q, (b.sheet q).isSome → (s q).isSome) :
    Linked S U { b with sheet := s, kernel := k } l := by
  obtain ⟨h₁, h₂, h₃, h₄, h₅, h₆, h₇, h₈, h₉, h₁₀, h₁₁, h₁₂⟩ := h
  refine ⟨h₁, h₂, h₃, h₄, h₅, ?_, h₇, h₈, h₉, h₁₀, h₁₁, h₁₂⟩
  intro p hp
  obtain ⟨sh, hsh⟩ := h₆ p hp
  obtain ⟨n, hn, hsh⟩ := Option.bind_eq_some_iff.1 hsh
  have hsome := hs n.nd (by rw [hsh]; rfl)
  obtain ⟨sh', hsh'⟩ := Option.isSome_iff_exists.1 hsome
  exact ⟨sh', Option.bind_eq_some_iff.2 ⟨n, hn, hsh'⟩⟩

/-- `reset` keeps every list and every sheet but the chunk of the one that is reset. -/
theorem resetSheet_spec (h : b.Linked S U l) (hsh : b.sheet z = some sh) :
    ∃ s k, b.resetSheet S z = .ok { b with sheet := s, kernel := k } ∧
      Linked S U { b with sheet := s, kernel := k } l ∧ ∀ q, q ≠ z → s q = b.sheet q := by
  unfold resetSheet readSheet
  rw [hsh]
  simp only [bind, Except.bind]
  split_ifs with hempty
  · exact ⟨b.sheet, b.kernel, rfl, h, fun _ _ => rfl⟩
  · refine ⟨_, _, rfl, h.congr_sheet ?_, fun q hq => update_of_ne hq _ _⟩
    intro q hq
    by_cases hqz : q = z
    · rw [hqz, update_self]
      rfl
    · rw [update_of_ne hqz]
      exact hq

structure Dropped (S : SheetType σ κ) (U : Active) (l : List ℕ) (i p : ℕ) (b b' : Listed σ κ) :
    Prop where
  linked : b'.Linked S (update U p none) (l.filter (· ≠ p))
  sheets : b'.index.sheets = b.index.sheets.eraseIdx i
  unmarked : b'.unmarked = b.unmarked ++ [p]
  head : b'.head = b.head
  sheetOf : ∀ q ∈ l, q ≠ p → b'.sheetOf q = b.sheetOf q

theorem filter_ne_of_nodup (h : (l₁ ++ z :: p :: l₂).Nodup) :
    (l₁ ++ z :: p :: l₂).filter (· ≠ p) = l₁ ++ z :: l₂ := by
  rw [List.nodup_append] at h
  obtain ⟨-, hnodup, hapart⟩ := h
  rw [List.nodup_cons, List.nodup_cons] at hnodup
  obtain ⟨hz, hp, -⟩ := hnodup
  have hzp : z ≠ p := fun he => hz (by simp [he])
  have h₁ : l₁.filter (· ≠ p) = l₁ := by
    rw [List.filter_eq_self]
    intro x hx
    exact decide_eq_true (hapart x hx p (by simp))
  have h₂ : l₂.filter (· ≠ p) = l₂ := by
    rw [List.filter_eq_self]
    intro x hx
    refine decide_eq_true fun he => hp ?_
    rw [← he]
    exact hx
  rw [List.filter_append, h₁, List.filter_cons_of_pos (by simpa using hzp),
    List.filter_cons_of_neg (by simp), h₂]

/-- How a sheet leaves its tier, in `__sweep_tier_tombstones`, `__try_reclaim_empty` and
`__tombstone_accounting`. -/
def giveBack (S : SheetType σ κ) (b : Listed σ κ) (i nd z : ℕ) : Except Halt (Listed σ κ) := do
  let b ← b.resetSheet S z
  let b ← b.unlinkNode nd
  let b := { b with index := b.index.unregister S.params.maxSheets i }
  b.unmarkFromArena nd (sizeofNode + S.sizeofSheet)

/-- The index loses the entry of `p`, the list of nodes the node. -/
theorem Linked.erase_indexed (h : b.Linked S U l) (hi : i < b.index.count)
    (hp : (b.index.idx i).nd = p) :
    ((b.index.sheets.eraseIdx i).map fun e => e.1.nd).Perm (l.filter (· ≠ p)) := by
  have hlt : i < (b.index.sheets.map fun e => e.1.nd).length := by simpa using hi
  have hat : (b.index.sheets.map fun e => e.1.nd)[i] = p := by
    rw [List.getElem_map]
    simp only [RangeIndex.sheets, getElem_toList]
    exact hp
  have herase := List.getElem_cons_eraseIdx_perm hlt
  rw [hat] at herase
  have hrest : l.erase p = l.filter (· ≠ p) := by
    rw [h.nodup.erase_eq_filter]
    apply List.filter_congr
    intro x _
    by_cases hx : x = p
    · simp [hx]
    · simp [hx]
  have hperm := herase.trans (h.indexed.trans (List.perm_cons_erase (hp ▸ h.mem hi)))
  rw [hrest] at hperm
  rw [← List.eraseIdx_map]
  exact hperm.cons_inv

structure Parted (S : SheetType σ κ) (U : Active) (l : List ℕ) (i p : ℕ) (b b' : Listed σ κ) :
    Prop where
  head : b'.head = b.head
  seg : Seg b'.next b'.prev 0 (l.filter (· ≠ p)) 0
  tail : b'.tail = (l.filter (· ≠ p)).getLastD 0
  index : b'.index = b.index.unregister S.params.maxSheets i
  metadata : b'.metadata.Inv (update U p none)
  unmarked : b'.unmarked = b.unmarked ++ [p]
  nd : ∀ q ∈ l, q ≠ p → (b'.node q).map Node.nd = (b.node q).map Node.nd
  sheetOf : ∀ q ∈ l, q ≠ p → b'.sheetOf q = b.sheetOf q

theorem Parted.dropped (hmax : S.params.maxSheets ≤ 2 ^ 32 - 64) (h : b.Linked S U l)
    (hi : i < b.index.count) (hp : (b.index.idx i).nd = p) (hne : p ≠ b.head)
    (hpart : Parted S U l i p b b') : Dropped S U l i p b b' := by
  have hrem : RangeIndex.Removed S.params.maxSheets i b.index _ := RangeIndex.unregister_removed hi
  have hsheets : b'.index.sheets = b.index.sheets.eraseIdx i := by
    rw [hpart.index]
    exact hrem.sheets_eq hmax h.count_le hi
  have hsub : ∀ q ∈ l.filter (· ≠ p), q ∈ l ∧ q ≠ p := by
    intro q hq
    rw [List.mem_filter] at hq
    exact ⟨hq.1, of_decide_eq_true hq.2⟩
  obtain ⟨rest, hrest⟩ := h.head
  have hheadmem : b.head ∈ l := by simp [hrest]
  refine ⟨?_, hsheets, hpart.unmarked, hpart.head, hpart.sheetOf⟩
  constructor
  · refine ⟨rest.filter (· ≠ p), ?_⟩
    rw [hpart.head, hrest, List.filter_cons_of_pos (by simpa using hne.symm)]
  · exact hpart.seg
  · exact hpart.tail
  · exact h.nodup.filter _
  · intro q hq
    obtain ⟨hql, hqp⟩ := hsub q hq
    obtain ⟨hq₀, m, hm, hm₀⟩ := h.node q hql
    have hnd := hpart.nd q hql hqp
    rw [hm, Option.map_some, Option.map_eq_some_iff] at hnd
    obtain ⟨m', hm', hnd⟩ := hnd
    exact ⟨hq₀, m', hm', by rw [hnd]; exact hm₀⟩
  · intro q hq
    obtain ⟨hql, hqp⟩ := hsub q hq
    rw [hpart.sheetOf q hql hqp]
    exact h.sheet q hql
  · rw [hsheets]
    exact h.erase_indexed hi hp
  · have hcount := h.count_le
    rw [hpart.index, hrem.count]
    omega
  · intro j hj hw
    rw [hpart.index, hrem.count] at hj
    have hword := RangeIndex.lt_detailWords hmax (hi.trans_le h.count_le)
    rw [hpart.index, hrem.maskGet hword hw, if_neg (by omega)]
    split_ifs with hnext
    · exact h.clear (j + 1) (by omega) hnext
    · rfl
  · exact hpart.metadata
  · intro q hq hqh
    obtain ⟨hql, hqp⟩ := hsub q hq
    obtain ⟨hblock, len, hU, hlen⟩ := h.block q hql (hpart.head ▸ hqh)
    refine ⟨(hpart.nd q hql hqp).trans hblock, len, ?_, hlen⟩
    rw [update_of_ne hqp]
    exact hU
  · intro q hq hqh m hm
    rw [hpart.head] at hqh hm ⊢
    have hnd := hpart.nd b.head hheadmem hne.symm
    rw [hm, Option.map_some, eq_comm, Option.map_eq_some_iff] at hnd
    obtain ⟨m₀, hm₀, hnd⟩ := hnd
    rw [← hnd]
    exact h.home q (hsub q hq).1 hqh m₀ hm₀

theorem giveBack_spec (hmax : S.params.maxSheets ≤ 2 ^ 32 - 64) (h : b.Linked S U l)
    (hi : i < b.index.count) (hp : (b.index.idx i).nd = p) (hne : p ≠ b.head)
    (hn : b.node p = some n) : ∃ b', b.giveBack S i p n.nd = .ok b' ∧ Dropped S U l i p b b' := by
  have hmem : p ∈ l := hp ▸ h.mem hi
  obtain ⟨sh, hsh⟩ := h.sheet p hmem
  obtain ⟨n', hn', hsheet⟩ := Option.bind_eq_some_iff.1 hsh
  obtain rfl : n = n' := Option.some.inj (hn.symm.trans hn')
  obtain ⟨l₁, z, l₂, hl⟩ := h.split hmem hne
  obtain ⟨s, k, hreset, hlinked, hs⟩ := resetSheet_spec h hsheet
  obtain ⟨node', tail', hunlink, hseg, htail, hnd⟩ := unlinkNode_spec (hl ▸ hlinked)
  obtain ⟨hblock, len, hU, hlen⟩ := h.block p hmem hne
  obtain ⟨t, hunmark, -, hinv⟩ := h.metadata.unmark hU
  have hndp : n.nd = p + sizeofNode := by simpa [hn] using hblock
  have hpos := S.sizeofSheet_pos
  have hlist : l.filter (· ≠ p) = l₁ ++ z :: l₂ := by
    rw [hl]
    exact filter_ne_of_nodup (hl ▸ h.nodup)
  have hgive : b.giveBack S i p n.nd = .ok { b with
      tail := tail'
      index := b.index.unregister S.params.maxSheets i
      node := fun q => if p ≤ q ∧ q < p + (sizeofNode + S.sizeofSheet) then none else node' q
      sheet := fun q => if p ≤ q ∧ q < p + (sizeofNode + S.sizeofSheet) then none else s q
      metadata := { b.metadata with tier := t }
      kernel := k
      unmarked := b.unmarked ++ [p] } := by
    unfold giveBack
    rw [hreset]
    simp only [bind, Except.bind, hunlink]
    unfold unmarkFromArena
    simp only [hunmark, bind, Except.bind]
  -- the nodes that stay, and their sheets, are outside of the block of `p`
  have hnode : ∀ q ∈ l, q ≠ p →
      (if p ≤ q ∧ q < p + (sizeofNode + S.sizeofSheet) then none else node' q) = node' q := by
    intro q hq hqp
    obtain ⟨-, m, hm, -⟩ := h.node q hq
    rw [if_neg (h.outside hmem hne hq hqp hm).1]
  have hstay : ∀ q ∈ l₁ ++ z :: l₂, q ∈ l ∧ q ≠ p := by
    intro q hq
    rw [← hlist, List.mem_filter] at hq
    exact ⟨hq.1, of_decide_eq_true hq.2⟩
  refine ⟨_, hgive, Parted.dropped hmax h hi hp hne ?_⟩
  constructor
  · rfl
  · rw [hlist]
    apply hseg.congr
    · intro q hq
      obtain ⟨hql, hqp⟩ := hstay q hq
      simp only [next]
      rw [hnode q hql hqp]
    · intro q hq
      obtain ⟨hql, hqp⟩ := hstay q hq
      simp only [prev]
      rw [hnode q hql hqp]
  · rw [hlist]
    exact htail
  · rfl
  · exact hinv
  · rfl
  · intro q hq hqp
    simp only
    rw [hnode q hq hqp]
    exact hnd q
  · intro q hq hqp
    obtain ⟨-, m, hm, -⟩ := h.node q hq
    have hmap := hnd q
    rw [hm, Option.map_some, Option.map_eq_some_iff] at hmap
    obtain ⟨m', hm', hndm⟩ := hmap
    have hnot := (h.outside hmem hne hq hqp hm).2
    unfold sheetOf
    simp only
    rw [hnode q hq hqp, hm', hm, Option.bind_some, Option.bind_some, hndm, if_neg hnot,
      hs m.nd (by omega)]

theorem sweepAt_dead (hmax : S.params.maxSheets ≤ 2 ^ 32 - 64) (h : b.Linked S U l)
    (hi : i < b.index.count) (hp : (b.index.idx i).nd = p) (hdead : b.dead S.params p = true) :
    ∃ b', b.sweepAt S i = .ok b' ∧ Dropped S U l i p b b' := by
  have hmem : p ∈ l := hp ▸ h.mem hi
  simp only [dead, Bool.and_eq_true, decide_eq_true_eq] at hdead
  obtain ⟨hne, hdead⟩ := hdead
  obtain ⟨sh, hsh, hrec⟩ := (Option.any_eq_true _ _).1 hdead
  simp only [Sheet.reclaimable, Bool.and_eq_true, decide_eq_true_eq] at hrec
  obtain ⟨n, hn, hsheet⟩ := Option.bind_eq_some_iff.1 hsh
  obtain ⟨hp₀, n', hn', hnd₀⟩ := h.node p hmem
  obtain rfl : n = n' := Option.some.inj (hn.symm.trans hn')
  obtain ⟨b', hgive, hdrop⟩ := giveBack_spec hmax h hi hp hne hn
  refine ⟨b', ?_, hdrop⟩
  rw [← hgive]
  unfold sweepAt
  simp only [hp]
  rw [if_neg hp₀, readNode_eq hn]
  simp only [bind, Except.bind]
  rw [if_neg (by simp [hnd₀, hne]), readSheet, hsheet]
  simp only
  rw [if_neg (by simp [hrec.1]), if_pos hrec.2]
  rfl

theorem sweepAt_alive (h : b.Linked S U l) (hi : i < b.index.count)
    (halive : b.dead S.params (b.index.idx i).nd = false) : b.sweepAt S i = .ok b := by
  have hmem := h.mem hi
  obtain ⟨hp₀, n, hn, hnd₀⟩ := h.node _ hmem
  unfold sweepAt
  simp only
  rw [if_neg hp₀, readNode_eq hn]
  simp only [bind, Except.bind]
  by_cases hhead : (b.index.idx i).nd = b.head
  · rw [if_pos (.inr hhead)]
  · obtain ⟨sh, hsh⟩ := h.sheet _ hmem
    obtain ⟨n', hn', hsheet⟩ := Option.bind_eq_some_iff.1 hsh
    obtain rfl : n = n' := Option.some.inj (hn.symm.trans hn')
    rw [if_neg (by simp [hnd₀, hhead]), readSheet, hsheet]
    simp only [dead, hsh, hhead, Sheet.reclaimable, ne_eq, not_false_eq_true, decide_true,
      Option.any_some, Bool.true_and, Bool.and_eq_false_iff, decide_eq_false_iff_not] at halive
    simp only
    rcases halive with hused | htomb
    · rw [if_pos hused]
    · rw [if_neg htomb, ite_self]

/-! ## All rounds -/

/-- The nodes at positions below `i` that the sweep gives back. -/
def deadBelow (T : Params σ) (b : Listed σ κ) (i : ℕ) : List ℕ :=
  ((b.index.sheets.take i).map fun e => e.1.nd).filter (b.dead T)

structure Swept (S : SheetType σ κ) (U : Active) (l : List ℕ) (i : ℕ) (b b' : Listed σ κ) :
    Prop where
  linked : b'.Linked S (fun q => if q ∈ b.deadBelow S.params i then none else U q)
    (l.filter (· ∉ b.deadBelow S.params i))
  sheets : b'.index.sheets =
    (b.index.sheets.take i).filter (fun e => !b.dead S.params e.1.nd) ++ b.index.sheets.drop i
  unmarked : b'.unmarked = b.unmarked ++ (b.deadBelow S.params i).reverse
  head : b'.head = b.head
  sheetOf : ∀ q ∈ l, q ∉ b.deadBelow S.params i → b'.sheetOf q = b.sheetOf q

theorem deadBelow_succ (T : Params σ) (hi : i < b.index.count) :
    b.deadBelow T (i + 1) = b.deadBelow T i ++
      if b.dead T (b.index.idx i).nd then [(b.index.idx i).nd] else [] := by
  have hget : b.index.sheets[i]? = some (b.index.idx i, b.index.maskGet i) := getElem?_toList hi
  unfold deadBelow
  rw [List.take_add_one, hget, Option.toList_some, List.map_append, List.filter_append]
  simp only [List.map_cons, List.map_nil, List.filter_cons, List.filter_nil]

/-- A sheet that was given back at position `i` leaves the positions in front as they were. -/
theorem Dropped.take (hdrop : Dropped S U l i p b b') (hi : i < b.index.count) :
    b'.index.sheets.take i = b.index.sheets.take i ∧
      b'.index.sheets.drop i = b.index.sheets.drop (i + 1) := by
  have hlength : (b.index.sheets.take i).length = i := by
    rw [List.length_take, b.index.length_sheets]
    omega
  rw [hdrop.sheets, List.eraseIdx_eq_take_drop_succ]
  exact ⟨List.take_left' hlength, List.drop_left' hlength⟩

/-- The sheets in front are as dead as before. -/
theorem Dropped.dead (hdrop : Dropped S U l i p b b') (h : b.Linked S U l) (hi : i < b.index.count)
    (hp : (b.index.idx i).nd = p) {e : Range ℕ × Bool} (he : e ∈ b.index.sheets.take i) :
    b'.dead S.params e.1.nd = b.dead S.params e.1.nd := by
  have hget : b.index.sheets[i]? = some (b.index.idx i, b.index.maskGet i) := getElem?_toList hi
  have hnodup : ((b.index.sheets.take (i + 1)).map fun e => e.1.nd).Nodup :=
    (h.indexed.nodup_iff.2 h.nodup).sublist ((List.take_sublist _ _).map _)
  rw [List.take_add_one, hget, Option.toList_some, List.map_append, List.nodup_append] at hnodup
  have hne : e.1.nd ≠ p := by
    apply hnodup.2.2 _ (List.mem_map_of_mem he)
    simp [hp]
  have hmem : e.1.nd ∈ l := h.indexed.mem_iff.1 (List.mem_map_of_mem (List.mem_of_mem_take he))
  unfold Listed.dead
  rw [hdrop.head, hdrop.sheetOf _ hmem hne]

/-- The rounds below `i` after a round that gave a sheet back. -/
theorem Swept.of_dropped (h : b.Linked S U l) (hi : i < b.index.count)
    (hp : (b.index.idx i).nd = p) (hdead : b.dead S.params p = true)
    (hdrop : Dropped S U l i p b b₁)
    (hswept : Swept S (update U p none) (l.filter (· ≠ p)) i b₁ b') :
    Swept S U l (i + 1) b b' := by
  have hget : b.index.sheets[i]? = some (b.index.idx i, b.index.maskGet i) := getElem?_toList hi
  have hsucc := b.deadBelow_succ S.params hi
  rw [hp, if_pos hdead] at hsucc
  obtain ⟨htake, hdropi⟩ := hdrop.take hi
  have hsame := fun e he => hdrop.dead h hi hp (e := e) he
  have hbelow : b₁.deadBelow S.params i = b.deadBelow S.params i := by
    unfold deadBelow
    rw [htake]
    apply List.filter_congr
    intro q hq
    obtain ⟨e, he, rfl⟩ := List.mem_map.1 hq
    exact hsame e he
  constructor
  · have hlinked := hswept.linked
    rw [hbelow, List.filter_filter] at hlinked
    rw [hsucc]
    convert hlinked using 1
    · funext q
      by_cases hq : q = p
      · simp [hq]
      · simp [hq]
    · apply List.filter_congr
      intro q _
      simp [not_or]
  · rw [hswept.sheets, htake, hdropi, List.take_add_one, hget, Option.toList_some,
      List.filter_append, List.filter_congr fun e he => by rw [hsame e he]]
    simp [hp, hdead]
  · rw [hswept.unmarked, hdrop.unmarked, hbelow, hsucc]
    simp
  · rw [hswept.head, hdrop.head]
  · intro q hq hnot
    rw [hsucc, List.mem_append, not_or, List.mem_singleton] at hnot
    rw [hswept.sheetOf q ?_ ?_, hdrop.sheetOf q hq hnot.2]
    · rw [List.mem_filter]
      exact ⟨hq, decide_eq_true hnot.2⟩
    · rw [hbelow]
      exact hnot.1

/-- The rounds below `i` after a round that left its sheet alone. -/
theorem Swept.of_alive (hi : i < b.index.count)
    (halive : b.dead S.params (b.index.idx i).nd = false) (hswept : Swept S U l i b b') :
    Swept S U l (i + 1) b b' := by
  have hget : b.index.sheets[i]? = some (b.index.idx i, b.index.maskGet i) := getElem?_toList hi
  have hsucc := b.deadBelow_succ S.params hi
  rw [halive, if_neg (by decide), List.append_nil] at hsucc
  constructor
  · rw [hsucc]
    exact hswept.linked
  · have hlen : i < b.index.sheets.length := by
      rw [b.index.length_sheets]
      exact hi
    have hx : b.index.sheets[i] = (b.index.idx i, b.index.maskGet i) :=
      Option.some.inj ((List.getElem?_eq_getElem hlen).symm.trans hget)
    rw [hswept.sheets, List.take_add_one, hget, Option.toList_some, List.filter_append,
      List.drop_eq_getElem_cons hlen, hx]
    simp [halive]
  · rw [hsucc]
    exact hswept.unmarked
  · exact hswept.head
  · rw [hsucc]
    exact hswept.sheetOf

theorem sweepBelow_spec (hmax : S.params.maxSheets ≤ 2 ^ 32 - 64) :
    ∀ {i : ℕ} {b : Listed σ κ} {U : Active} {l : List ℕ}, b.Linked S U l → i ≤ b.index.count →
      ∃ b', sweepBelow S i b = .ok b' ∧ Swept S U l i b b' := by
  intro i
  induction i with
  | zero =>
    intro b U l h _
    have hnone : b.deadBelow S.params 0 = [] := rfl
    refine ⟨b, rfl, ?_, by simp, by simp [hnone], rfl, fun _ _ _ => rfl⟩
    simpa [hnone] using h
  | succ i ih =>
    intro b U l h hi
    have hlt : i < b.index.count := by omega
    rw [sweepBelow]
    cases hdead : b.dead S.params (b.index.idx i).nd with
    | true =>
      obtain ⟨b₁, hstep, hdrop⟩ := sweepAt_dead hmax h hlt rfl hdead
      have hcount : i ≤ b₁.index.count := by
        rw [← b₁.index.length_sheets, hdrop.sheets, List.length_eraseIdx, b.index.length_sheets]
        rw [if_pos hlt]
        omega
      obtain ⟨b', hrun, hswept⟩ := ih hdrop.linked hcount
      rw [hstep]
      exact ⟨b', hrun, .of_dropped h hlt rfl hdead hdrop hswept⟩
    | false =>
      obtain ⟨b', hrun, hswept⟩ := ih h (by omega)
      rw [sweepAt_alive h hlt hdead]
      exact ⟨b', hrun, .of_alive hlt hdead hswept⟩

def sheetType (t : TierId) (κ : Type) (sizeofSheet : ℕ) (hpos : 0 < sizeofSheet)
    (release : κ → Chunk → κ) : SheetType t.Heap κ :=
  ⟨t.params, sizeofSheet, hpos, release⟩

theorem maxSheets_le (t : TierId) : t.params.maxSheets ≤ 2 ^ 32 - 64 := by
  cases t <;> decide

/-- The sweep gives back exactly the sheets that are dead: they leave the index with their bit,
they leave the list, and the block of each goes back once. The others keep their place in the
index and in the list, their bit and their sheet. No node and no sheet is accessed once its block
went back, since that would be undefined. -/
theorem sweep_removes_dead_sheets {t : TierId} {sizeofSheet : ℕ} {hpos : 0 < sizeofSheet}
    {release : κ → Chunk → κ} {b : Listed t.Heap κ}
    (h : b.Linked (sheetType t κ sizeofSheet hpos release) U l) :
    ∃ b', b.sweepTierTombstones (sheetType t κ sizeofSheet hpos release) = .ok b' ∧
      (b'.index.sheets = b.index.sheets.filter (fun e => !b.dead t.params e.1.nd) ∧
        ∀ i, b'.index.count ≤ i → i / 64 < RangeIndex.detailWords t.params.maxSheets →
          b'.index.maskGet i = false) ∧
      (b'.head = b.head ∧ Seg b'.next b'.prev 0 (l.filter fun p => !b.dead t.params p) 0 ∧
        b'.tail = (l.filter fun p => !b.dead t.params p).getLastD 0) ∧
      (∀ p ∈ l, b.dead t.params p = false → b'.sheetOf p = b.sheetOf p) ∧
      ∃ gone, b'.unmarked = b.unmarked ++ gone ∧ gone.Nodup ∧
        (∀ p, p ∈ gone ↔ p ∈ l ∧ b.dead t.params p = true) ∧
        (∀ p ∈ gone, ∃ len, U p = some (len, false)) ∧
        b'.metadata.Inv fun p => if p ∈ gone then none else U p := by
  have hstart : Linked (sheetType t κ sizeofSheet hpos release) U { b with deallocCount := 0 } l :=
    ⟨h.head, h.seg, h.tail, h.nodup, h.node, h.sheet, h.indexed, h.count_le, h.clear, h.metadata,
      h.block, h.home⟩
  obtain ⟨b', hrun, hswept⟩ := sweepBelow_spec (maxSheets_le t) hstart le_rfl
  have hall : b.index.sheets.take b.index.count = b.index.sheets :=
    List.take_of_length_le (b.index.length_sheets ▸ le_rfl)
  -- the nodes given back are the dead ones of the list
  have hgone : ∀ p, p ∈ b.deadBelow t.params b.index.count ↔ p ∈ l ∧ b.dead t.params p = true := by
    intro p
    unfold deadBelow
    rw [hall, List.mem_filter, h.indexed.mem_iff]
  have hlist : l.filter (· ∉ b.deadBelow t.params b.index.count) =
      l.filter fun p => !b.dead t.params p := by
    apply List.filter_congr
    intro p hp
    simp [hgone, hp]
  have hlinked := hswept.linked
  have hnodup : (b.deadBelow t.params b.index.count).Nodup := by
    unfold deadBelow
    rw [hall]
    exact (h.indexed.nodup_iff.2 h.nodup).filter _
  refine ⟨b', hrun, ⟨?_, ?_⟩, ⟨?_, ?_, ?_⟩, ?_, (b.deadBelow t.params b.index.count).reverse, ?_⟩
  · have hdrop : b.index.sheets.drop b.index.count = [] :=
      List.drop_of_length_le (b.index.length_sheets ▸ le_rfl)
    have hsheets : b'.index.sheets = (b.index.sheets.take b.index.count).filter
        (fun e => !b.dead t.params e.1.nd) ++ b.index.sheets.drop b.index.count := hswept.sheets
    rw [hsheets, hall, hdrop, List.append_nil]
  · exact hlinked.clear
  · exact hswept.head
  · rw [← hlist]
    exact hlinked.seg
  · rw [← hlist]
    exact hlinked.tail
  · intro p hp halive
    apply hswept.sheetOf p hp
    intro hmem
    have hdead := ((hgone p).1 hmem).2
    rw [halive] at hdead
    cases hdead
  · refine ⟨hswept.unmarked, List.nodup_reverse.2 hnodup, ?_, ?_, ?_⟩
    · intro p
      rw [List.mem_reverse, hgone]
    · intro p hp
      obtain ⟨hmem, hdead⟩ := (hgone p).1 (List.mem_reverse.1 hp)
      simp only [dead, Bool.and_eq_true, decide_eq_true_eq] at hdead
      obtain ⟨-, len, hU, -⟩ := h.block p hmem hdead.1
      exact ⟨len, hU⟩
    · simp only [List.mem_reverse]
      exact hlinked.metadata

theorem sweep_removes_dead_sheets_two : ∃ (U : Active) (b : Listed Buddy.Heap Unit) (q p : ℕ),
    b.Linked (sheetType .large Unit 1 one_pos fun _ _ => ()) U [q, p] ∧
      ∃ b', b.sweepTierTombstones (sheetType .large Unit 1 one_pos fun _ _ => ()) = .ok b' ∧
        Seg b'.next b'.prev 0 [q] 0 := by
  obtain ⟨m, p, n, hp, hn, hm⟩ := Metadata.exists_inv
  let h : Buddy.Heap := Buddy.initMemory 15 .zero 65536 65536 false fun _ => 0
  let buried : Sheet Buddy.Heap := ⟨⟨65536, 65536⟩, 0,
    { h with ctl := { h.ctl with allocatedBytes := 0, tombstonedBytes := 1, total := 1 } }⟩
  let b : Listed Buddy.Heap Unit :=
    { head := p + 33
      tail := p
      index := ⟨fun i => if i = 0 then ⟨0, 1, p + 33⟩ else ⟨1, 2, p⟩, 2, fun _ => 0, 128⟩
      deallocCount := 64
      node := fun q =>
        if q = p + 33 then some ⟨p + 34, 0, p⟩ else if q = p then some ⟨p + 32, p + 33, 0⟩ else none
      sheet := fun _ => some buried
      metadata := m
      kernel := ()
      unmarked := [] }
  have hq : b.node (p + 33) = some ⟨p + 34, 0, p⟩ := if_pos rfl
  have hp' : b.node p = some ⟨p + 32, p + 33, 0⟩ := by
    show (if p = p + 33 then _ else if p = p then _ else _) = _
    rw [if_neg (by omega), if_pos rfl]
  have hb : b.Linked (sheetType .large Unit 1 one_pos fun _ _ => ())
      (update (fun _ => none) p (some (n, false))) [p + 33, p] := by
    constructor
    · exact ⟨[p], rfl⟩
    · simp [prev_eq hq, next_eq hq, prev_eq hp', next_eq hp']
    · rfl
    · simp
    · simp [hq, hp', hp]
    · simp [sheetOf, b]
    · exact .refl _
    · show 2 ≤ 128
      decide
    · intro i _ _
      simp [b, RangeIndex.maskGet, bit]
    · exact hm
    · intro q hmem hne
      obtain rfl : q = p := by
        rcases List.mem_cons.1 hmem with rfl | hmem
        · exact absurd rfl hne
        · exact List.mem_singleton.1 hmem
      refine ⟨by rw [hp']; rfl, n, update_self _ _ _, ?_⟩
      show 32 + 1 + 32 ≤ n
      omega
    · intro q hmem hne m hm
      obtain rfl : q = p := by
        rcases List.mem_cons.1 hmem with rfl | hmem
        · exact absurd rfl hne
        · exact List.mem_singleton.1 hmem
      rw [show b.node b.head = _ from hq] at hm
      obtain rfl := Option.some.inj hm
      show ¬(q ≤ q + 33 ∧ q + 33 < q + (32 + 1)) ∧ ¬(q ≤ q + 34 ∧ q + 34 < q + (32 + 1))
      omega
  have hburied : buried.reclaimable TierId.large.params = true := by
    simp [Sheet.reclaimable, Sheet.used, TierId.params, TierId.buddyTier, Buddy.buddyBook, buried]
  have hhead : b.dead TierId.large.params (p + 33) = false := by simp [dead, b]
  have hdead : b.dead TierId.large.params p = true := by
    have hsheet : b.sheetOf p = some buried := by simp [sheetOf, b]
    unfold dead
    rw [hsheet, Option.any_some, hburied]
    simp [b]
  obtain ⟨b', hrun, -, ⟨-, hseg, -⟩, -⟩ := sweep_removes_dead_sheets hb
  refine ⟨_, b, p + 33, p, hb, b', hrun, ?_⟩
  simpa [hhead, hdead] using hseg

end Listed
end AbcMalloc.Arena
