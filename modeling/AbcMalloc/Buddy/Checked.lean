import AbcMalloc.Buddy.Tags

/-! `allocate`, `temporal_allocate` and `deallocate` of `__buddy_list` with every access to
memory tested. Each load and store of a block's words must stay inside `[base, base + total)`
and each tag index below `tag_count`; an access anywhere else makes the operation `none`.
Nothing else differs from the model of the operations, so an operation that returns a result
here returns it there and has touched nothing outside the pool. -/
namespace AbcMalloc.Buddy
open Function Foundation

namespace Checked

/-! ## Accesses -/

/-- The `n` bytes at `a` lie inside the pool. -/
def touch (s : BuddyList) (a n : ℕ) : Option Unit :=
  if s.base ≤ a ∧ a + n ≤ s.base + s.total then some () else none

def touchTag (s : BuddyList) (t : ℕ) : Option Unit :=
  if t < s.tagCount then some () else none

def readNext (h : Heap) (a : ℕ) : Option ℕ := do
  touch h.ctl a 8
  some (h.mem.next a)

def readPrev (h : Heap) (a : ℕ) : Option ℕ := do
  touch h.ctl (a + 8) 8
  some (h.mem.w1 a)

def writeNext (h : Heap) (a v : ℕ) : Option Heap := do
  touch h.ctl a 8
  some { h with mem := h.mem.setNext a v }

def writePrev (h : Heap) (a v : ℕ) : Option Heap := do
  touch h.ctl (a + 8) 8
  some { h with mem := h.mem.setW1 a v }

/-- `a->prev = v` unless `a` is null. -/
def linkBack (h : Heap) (a v : ℕ) : Option Heap :=
  if a ≠ 0 then writePrev h a v else some h

def readOrder (h : Heap) (hdr : ℕ) : Option ℕ := do
  touch h.ctl hdr 4
  some (h.mem.lo hdr)

def readFlags (h : Heap) (hdr : ℕ) : Option ℕ := do
  touch h.ctl (hdr + 4) 4
  some (h.mem.hi hdr)

def writeOrder (h : Heap) (hdr v : ℕ) : Option Heap := do
  touch h.ctl hdr 4
  some { h with mem := h.mem.setLo hdr v }

def writeFlags (h : Heap) (hdr v : ℕ) : Option Heap := do
  touch h.ctl (hdr + 4) 4
  some { h with mem := h.mem.setHi hdr v }

def readTag (h : Heap) (t : ℕ) : Option ℕ := do
  touchTag h.ctl t
  some (h.ctl.blockTags t)

def writeTag (h : Heap) (t v : ℕ) : Option Heap := do
  touchTag h.ctl t
  some { h with ctl := h.ctl.setTag t v }

/-! ## Free lists -/

/-- The body of `__freelist_remove_slow` at the block to remove. -/
def unlinkAfter (h : Heap) (o prev nx : ℕ) : Option (Bool × Heap) :=
  if prev ≠ 0 then do
    let h ← writeNext h prev nx
    let h ← linkBack h nx prev
    some (true, { h with ctl := h.ctl.clearIfEmpty o })
  else
    let s := { h.ctl with freeLists := update h.ctl.freeLists o nx }
    some (true, { h with ctl := s.clearIfEmpty o })

def removeSlow (h : Heap) (buddy o : ℕ) : ℕ → ℕ → ℕ → Option (Bool × Heap)
  | 0, _, _ => some (false, h)
  | fuel + 1, prev, cur =>
    if cur = 0 then some (false, h)
    else do
      let next ← readNext h cur
      let nx := if h.ctl.linkValid next then next else 0
      if cur = buddy then unlinkAfter h o prev nx
      else removeSlow h buddy o fuel cur nx

def freelistRemoveSlow (h : Heap) (buddy o : ℕ) : Option (Bool × Heap) :=
  removeSlow h buddy o (h.ctl.tagCount + 1) 0 (h.ctl.freeLists o)

/-- `next && next->prev != node`. -/
def badBack (h : Heap) (next buddy : ℕ) : Option Bool :=
  if next = 0 then some false
  else do
    let back ← readPrev h next
    some (decide (back ≠ buddy))

/-- `!__link_valid(prev) || prev == nullptr || prev->next != node || (next && next->prev != node)`,
with the loads that the disjuncts before do not spare. -/
def mismatched (h : Heap) (prev next buddy : ℕ) : Option Bool :=
  if ¬h.ctl.linkValid prev ∨ prev = 0 then some true
  else do
    let forth ← readNext h prev
    if forth ≠ buddy then some true else badBack h next buddy

/-- The end of `freelist_remove`: both links are right. -/
def unlinkMiddle (h : Heap) (prev next : ℕ) : Option (Bool × Heap) := do
  let h ← writeNext h prev next
  let h ← linkBack h next prev
  some (true, h)

def freelistRemoveHead (h : Heap) (buddy o next : ℕ) : Option (Bool × Heap) :=
  if h.ctl.linkValid next then
    let s := { h.ctl with freeLists := update h.ctl.freeLists o next }
    some (true,
      ⟨if next = 0 then { s with freeMask := s.freeMask &&& ~~~(1#64 <<< o) } else s, h.mem⟩)
  else freelistRemoveSlow h buddy o

def freelistRemoveInner (h : Heap) (buddy o next : ℕ) : Option (Bool × Heap) := do
  let prev ← readPrev h buddy
  if ¬h.ctl.linkValid next then freelistRemoveSlow h buddy o
  else do
    let bad ← mismatched h prev next buddy
    if bad then freelistRemoveSlow h buddy o else unlinkMiddle h prev next

def freelistRemove (h : Heap) (buddy o : ℕ) : Option (Bool × Heap) := do
  let next ← readNext h buddy
  if h.ctl.freeLists o = buddy then freelistRemoveHead h buddy o next
  else freelistRemoveInner h buddy o next

def pushFree (h : Heap) (addr o tidx : ℕ) : Option Heap := do
  let head := h.ctl.freeLists o
  let h ← writeNext h addr head
  let h ← linkBack h head addr
  let s := if head ≠ 0 then h.ctl else { h.ctl with freeMask := h.ctl.freeMask ||| (1#64 <<< o) }
  writeTag { h with ctl := { s with freeLists := update s.freeLists o addr } } tidx (tagFree o)

def freelistPushOff (h : Heap) (addr o off : ℕ) : Option Heap :=
  pushFree h addr o (off / 2 ^ h.ctl.minLog)

def splitDown (blk target : ℕ) : ℕ → Heap → Option Heap
  | 0, h => some h
  | o + 1, h =>
    if target < o + 1 then do
      let right := blk + h.ctl.orderSize (o + 1) / 2
      let h ← pushFree h right o (h.ctl.tagIndex right)
      splitDown blk target o h
    else some h

def takeAndSplit (h : Heap) (o target : ℕ) : Option (ℕ × Heap) := do
  let blk := h.ctl.freeLists o
  let link ← readNext h blk
  let next := if h.ctl.linkValid link then link else 0
  let s := { h.ctl with freeLists := update h.ctl.freeLists o next }
  let s := if next = 0 then { s with freeMask := s.freeMask &&& ~~~(1#64 <<< o) } else s
  let h ← splitDown blk target o ⟨s, h.mem⟩
  some (blk, h)

/-! ## Temporal cache and merging -/

def tcachePop (h : Heap) (o : ℕ) : Option (ℕ × Heap) :=
  if h.ctl.tcacheCount o = 0 then some (0, h)
  else do
    let blk := h.ctl.tcache o
    let nx ← readNext h blk
    some (blk,
      { h with ctl :=
        if h.ctl.linkValid nx then
          { h.ctl with
            tcache := update h.ctl.tcache o nx
            tcacheCount := update h.ctl.tcacheCount o (h.ctl.tcacheCount o - 1) }
        else
          { h.ctl with
            tcache := update h.ctl.tcache o 0
            tcacheCount := update h.ctl.tcacheCount o 0 } })

def tcachePush (h : Heap) (blk o : ℕ) : Option (Bool × Heap) :=
  if 4 ≤ h.ctl.tcacheCount o then some (false, h)
  else do
    let h ← writeNext h blk (h.ctl.tcache o)
    some (true,
      { h with ctl :=
        { h.ctl with
          tcache := update h.ctl.tcache o blk
          tcacheCount := update h.ctl.tcacheCount o (h.ctl.tcacheCount o + 1) } })

def mergeUp : ℕ → Heap → ℕ → ℕ → Option (Heap × ℕ × ℕ)
  | 0, h, off, o => some (h, off, o)
  | fuel + 1, h, off, o => do
    let buddyOff := buddy (h.ctl.minLog + o) off
    let tag ← readTag h (buddyOff / 2 ^ h.ctl.minLog)
    if tag ≠ tagFree o then some (h, off, o)
    else do
      let r ← freelistRemove h (h.ctl.base + buddyOff) o
      if r.1 = false then some (r.2, off, o)
      else do
        let interior := if off < buddyOff then buddyOff else off
        let h ← writeTag r.2 (interior / 2 ^ h.ctl.minLog) 255
        mergeUp fuel h (if buddyOff < off then buddyOff else off) (o + 1)

def mergeAndFree (h : Heap) (addr o : ℕ) : Option Heap := do
  let r ← mergeUp (h.ctl.maxOrder - 1 - o) h (addr - h.ctl.base) o
  freelistPushOff r.1 (r.1.ctl.base + r.2.1) r.2.2 r.2.1

/-! ## Operations -/

def isAllocated (h : Heap) (ptr : ℕ) : Option Bool :=
  if ptr = 0 ∨ h.ctl.base = 0 ∨ ptr < h.ctl.base ∨ h.ctl.base + h.ctl.total ≤ ptr ∨
      (ptr - h.ctl.base) % 2 ^ h.ctl.minLog ≠ 0 then some false
  else do
    let tag ← readTag h (h.ctl.tagIndex ptr)
    some (decide (tag < 128) && decide (tag < h.ctl.maxOrder))

def handOut (h : Heap) (blk o flags : ℕ) : Option (Chunk × Heap) := do
  let size := h.ctl.orderSize o
  let hdr := h.ctl.hdrOf blk o
  let h ← writeOrder h hdr o
  let h ← writeFlags h hdr flags
  let h ← writeTag h (h.ctl.tagIndex blk) o
  some (⟨blk, size - 32⟩,
    { h with ctl := { h.ctl with allocatedBytes := (h.ctl.allocatedBytes + size) % 2 ^ 64 } })

def handOutTemporal (h : Heap) (blk o r : ℕ) : Option (Chunk × Heap) := do
  let c ← handOut h blk o (blockAlloc + blockTemporal)
  some (c.1,
    { c.2 with ctl :=
      { c.2.ctl with
        active := update c.2.ctl.active o (update (c.2.ctl.active o) r blk)
        activeRotor := update c.2.ctl.activeRotor o (r ^^^ 1) } })

def allocate (h : Heap) (n : ℕ) : Option (Chunk × Heap) :=
  if 2 ^ 64 - 1 - 32 < n then some (.null, h)
  else if h.ctl.base = 0 then some (.null, h)
  else
    let o := h.ctl.orderForSize (n + 32)
    if h.ctl.maxOrder ≤ o then some (.null, h)
    else
      let i := h.ctl.findFreeOrder o
      if h.ctl.maxOrder ≤ i then some (.null, h)
      else do
        let (blk, h) ← takeAndSplit h i o
        handOut h blk o blockAlloc

/-- `temporal_allocate` once the active ring is empty. -/
def temporalFresh (h : Heap) (o r : ℕ) : Option (Chunk × Heap) := do
  let (cached, h) ← tcachePop h o
  if cached ≠ 0 then handOutTemporal h cached o r
  else
    let i := h.ctl.findFreeOrder o
    if h.ctl.maxOrder ≤ i then some (.null, h)
    else do
      let (blk, h) ← takeAndSplit h i o
      handOutTemporal h blk o r

def temporalAllocate (h : Heap) (n : ℕ) : Option (Chunk × Heap) :=
  if 2 ^ 64 - 1 - 32 < n then some (.null, h)
  else if h.ctl.base = 0 then some (.null, h)
  else
    let o := h.ctl.orderForSize (n + 32)
    if h.ctl.maxOrder ≤ o then some (.null, h)
    else
      let r := activeSlot h.ctl o
      let blk := h.ctl.active o r
      if blk ≠ 0 then
        some (⟨blk, h.ctl.orderSize o - 32⟩,
          { h with ctl :=
            { h.ctl with activeRotor := update h.ctl.activeRotor o (r ^^^ 1) } })
      else temporalFresh h o r

/-- The end of `deallocate`: into the cache if the block is temporal and there is room. -/
def retire (h : Heap) (ptr o flags : ℕ) : Option (RetFlag × Heap) :=
  let size := h.ctl.orderSize o
  let s := { h.ctl with
    allocatedBytes := (h.ctl.allocatedBytes + (2 ^ 64 - size)) % 2 ^ 64
    tombstonedBytes :=
      if flags &&& blockTombstone ≠ 0 then (h.ctl.tombstonedBytes + (2 ^ 64 - size)) % 2 ^ 64
      else h.ctl.tombstonedBytes }
  if flags &&& blockTemporal ≠ 0 then do
    let r ← tcachePush ⟨clearActive s ptr o, h.mem⟩ ptr o
    if r.1 then do
      let h ← writeTag r.2 (r.2.ctl.tagIndex ptr) 255
      some (.ok, h)
    else do
      let h ← mergeAndFree r.2 ptr o
      some (.ok, h)
  else do
    let h ← mergeAndFree ⟨s, h.mem⟩ ptr o
    some (.ok, h)

/-- `deallocate` once `is_allocated` accepted the pointer. -/
def deallocateAt (h : Heap) (ptr : ℕ) : Option (RetFlag × Heap) := do
  let tag ← readTag h (h.ctl.tagIndex ptr)
  let hdr := h.ctl.hdrOf ptr (tag % 128)
  let o ← readOrder h hdr
  if h.ctl.maxOrder ≤ o then some (.invalid, h)
  else do
    let flags ← readFlags h hdr
    if flags = blockFree then some (.invalid, h) else retire h ptr o flags

def deallocate (h : Heap) (ptr : ℕ) : Option (RetFlag × Heap) := do
  let allocated ← isAllocated h ptr
  if allocated = false then some (.invalid, h) else deallocateAt h ptr

/-- A client's step with every access tested. -/
def step (w : Client Heap) : Op → Option (Client Heap)
  | .allocate n => do
    let (c, s) ← allocate w.book n
    some (w.receive buddyBook c s)
  | .temporalAllocate n => do
    let (c, s) ← temporalAllocate w.book n
    some (w.receive buddyBook c s)
  | .deallocate p => do
    let r ← deallocate w.book p
    if r.1 = .ok then
      some { w with
        book := r.2
        held := update w.held p none
        dead := update w.dead p false
        freed := update w.freed p true }
    else some { w with book := r.2 }
  | _ => none

end Checked
end AbcMalloc.Buddy
