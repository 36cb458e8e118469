import AbcMalloc.Foundation.Buddies
import AbcMalloc.Memory
import Mathlib.Tactic

/-! `__buddy_list` of `free_list.hpp`: the binary buddy allocator behind the medium, large
and huge tiers. Every function follows the source statement by statement. `Min` is
`2^minLog`, the block tags are a function of the tag index, and the tail header of a block
lies in its last cell. The cold cache is compiled out (`__cold_cap` is 0). An operation whose
C++ counterpart dereferences a null pointer returns `none`. The constants are written out:
`__hdr_offset` is 32, `__tag_free` is 128, `__tag_none` is 255, `__cache_cap` is 4, `Mx` is
64 and an active ring has two slots. -/
namespace AbcMalloc.Buddy
open Function Foundation

/-- The members of `__buddy_list`. Arrays are functions of their index. -/
structure BuddyList where
  /-- `__log2_min`, from the template argument `Min`. -/
  minLog : ℕ
  base : ℕ
  total : ℕ
  maxOrder : ℕ
  allocatedBytes : ℕ
  tombstonedBytes : ℕ
  freeMask : BitVec 64
  blockTags : ℕ → ℕ
  tagCount : ℕ
  tagsExternal : Bool
  freeLists : ℕ → ℕ
  active : ℕ → ℕ → ℕ
  activeRotor : ℕ → ℕ
  tcache : ℕ → ℕ
  tcacheCount : ℕ → ℕ

structure Heap where
  ctl : BuddyList
  mem : Mem

/-! ## Orders, tags and headers -/

def ceilLog2 (v : ℕ) : ℕ := Nat.log2 (v - 1) + 1

def BuddyList.orderForSize (s : BuddyList) (n : ℕ) : ℕ :=
  let units := (n - 1) / 2 ^ s.minLog + 1
  if units ≤ 1 then 0 else ceilLog2 units

def BuddyList.orderSize (s : BuddyList) (o : ℕ) : ℕ := 2 ^ (s.minLog + o)

def BuddyList.tagIndex (s : BuddyList) (addr : ℕ) : ℕ := (addr - s.base) / 2 ^ s.minLog

/-- Tag of a free block: `(u8)(o | __tag_free)`. -/
def tagFree (o : ℕ) : ℕ := (o ||| 128) % 256

def BuddyList.setTag (s : BuddyList) (t v : ℕ) : BuddyList :=
  { s with blockTags := update s.blockTags t v }

def BuddyList.clearIfEmpty (s : BuddyList) (o : ℕ) : BuddyList :=
  if s.freeLists o = 0 then { s with freeMask := s.freeMask &&& ~~~(1#64 <<< o) } else s

def BuddyList.findFreeOrder (s : BuddyList) (o : ℕ) : ℕ :=
  let m := s.freeMask >>> o
  if m = 0 then s.maxOrder else o + m.ctz.toNat

/-- Address of the tail header. -/
def BuddyList.hdrOf (s : BuddyList) (blockStart o : ℕ) : ℕ := blockStart + s.orderSize o - 32

def BuddyList.hdrOfTagged (s : BuddyList) (blockStart : ℕ) : ℕ :=
  s.hdrOf blockStart (s.blockTags (s.tagIndex blockStart) % 128)

def BuddyList.linkValid (s : BuddyList) (n : ℕ) : Bool :=
  n = 0 ∨ (s.base ≤ n ∧ n < s.base + s.total ∧ (n - s.base) % 2 ^ s.minLog = 0)

/-! ## Free lists -/

/-- `__freelist_remove_slow` from node `cur` on; `fuel` counts down the guard. -/
def removeSlow (h : Heap) (buddy o : ℕ) : ℕ → ℕ → ℕ → Bool × Heap
  | 0, _, _ => (false, h)
  | fuel + 1, prev, cur =>
    if cur = 0 then (false, h)
    else
      let nx := if h.ctl.linkValid (h.mem.next cur) then h.mem.next cur else 0
      if cur = buddy then
        let m := if prev ≠ 0 then h.mem.setNext prev nx else h.mem
        let s := if prev ≠ 0 then h.ctl
          else { h.ctl with freeLists := update h.ctl.freeLists o nx }
        let m := if prev ≠ 0 ∧ nx ≠ 0 then m.setW1 nx prev else m
        (true, ⟨s.clearIfEmpty o, m⟩)
      else removeSlow h buddy o fuel cur nx

def freelistRemoveSlow (h : Heap) (buddy o : ℕ) : Bool × Heap :=
  removeSlow h buddy o (h.ctl.tagCount + 1) 0 (h.ctl.freeLists o)

def freelistRemove (h : Heap) (buddy o : ℕ) : Bool × Heap :=
  let next := h.mem.next buddy
  let head := h.ctl.freeLists o
  if head = buddy then
    if h.ctl.linkValid next then
      let s := { h.ctl with freeLists := update h.ctl.freeLists o next }
      (true, ⟨if next = 0 then { s with freeMask := s.freeMask &&& ~~~(1#64 <<< o) } else s, h.mem⟩)
    else freelistRemoveSlow h buddy o
  else
    let prev := h.mem.w1 buddy
    if ¬h.ctl.linkValid next then freelistRemoveSlow h buddy o
    else if ¬h.ctl.linkValid prev ∨ prev = 0 ∨ h.mem.next prev ≠ buddy ∨
        (next ≠ 0 ∧ h.mem.w1 next ≠ buddy) then freelistRemoveSlow h buddy o
    else
      let m := h.mem.setNext prev next
      (true, ⟨h.ctl, if next ≠ 0 then m.setW1 next prev else m⟩)

/-- Link a block in front of a free list and set the tag `tidx`: `freelist_push_off` and the
body of the loop of `__take_and_split`. -/
def pushFree (h : Heap) (addr o tidx : ℕ) : Heap :=
  let head := h.ctl.freeLists o
  let m := h.mem.setNext addr head
  let m := if head ≠ 0 then m.setW1 head addr else m
  let s := if head ≠ 0 then h.ctl else { h.ctl with freeMask := h.ctl.freeMask ||| (1#64 <<< o) }
  ⟨{ s with freeLists := update s.freeLists o addr }.setTag tidx (tagFree o), m⟩

def freelistPushOff (h : Heap) (addr o off : ℕ) : Heap :=
  pushFree h addr o (off / 2 ^ h.ctl.minLog)

/-- The loop of `__take_and_split`: halve the block at `blk` down to order `target`. The
source keeps the mask in a local variable and stores it once at the end. -/
def splitDown (blk target : ℕ) : ℕ → Heap → Heap
  | 0, h => h
  | o + 1, h =>
    if target < o + 1 then
      let right := blk + h.ctl.orderSize (o + 1) / 2
      splitDown blk target o (pushFree h right o (h.ctl.tagIndex right))
    else h

def takeAndSplit (h : Heap) (o target : ℕ) : Option (ℕ × Heap) :=
  let blk := h.ctl.freeLists o
  if blk = 0 then none
  else
    let next := if h.ctl.linkValid (h.mem.next blk) then h.mem.next blk else 0
    let s := { h.ctl with freeLists := update h.ctl.freeLists o next }
    let s := if next = 0 then { s with freeMask := s.freeMask &&& ~~~(1#64 <<< o) } else s
    some (blk, splitDown blk target o ⟨s, h.mem⟩)

/-! ## Temporal cache and merging -/

/-- `tcache_pop`; block `0` is the null result. -/
def tcachePop (h : Heap) (o : ℕ) : Option (ℕ × Heap) :=
  if h.ctl.tcacheCount o = 0 then some (0, h)
  else
    let blk := h.ctl.tcache o
    if blk = 0 then none
    else
      let nx := h.mem.next blk
      some (blk,
        { h with ctl :=
          if h.ctl.linkValid nx then
            { h.ctl with
              tcache := update h.ctl.tcache o nx
              tcacheCount := update h.ctl.tcacheCount o (h.ctl.tcacheCount o - 1) }
          else
            { h.ctl with
              tcache := update h.ctl.tcache o 0
              tcacheCount := update h.ctl.tcacheCount o 0 } })

def tcachePush (h : Heap) (blk o : ℕ) : Bool × Heap :=
  if 4 ≤ h.ctl.tcacheCount o then (false, h)
  else
    (true,
      ⟨{ h.ctl with
          tcache := update h.ctl.tcache o blk
          tcacheCount := update h.ctl.tcacheCount o (h.ctl.tcacheCount o + 1) },
        h.mem.setNext blk (h.ctl.tcache o)⟩)

/-- The loop of `__merge_and_free`; `fuel` is the number of orders above `o`. -/
def mergeUp : ℕ → Heap → ℕ → ℕ → Heap × ℕ × ℕ
  | 0, h, off, o => (h, off, o)
  | fuel + 1, h, off, o =>
    let buddyOff := buddy (h.ctl.minLog + o) off
    if h.ctl.blockTags (buddyOff / 2 ^ h.ctl.minLog) ≠ tagFree o then (h, off, o)
    else
      let r := freelistRemove h (h.ctl.base + buddyOff) o
      if r.1 = false then (r.2, off, o)
      else
        let interior := if off < buddyOff then buddyOff else off
        let s := r.2.ctl.setTag (interior / 2 ^ h.ctl.minLog) 255
        mergeUp fuel { r.2 with ctl := s } (if buddyOff < off then buddyOff else off) (o + 1)

def mergeAndFree (h : Heap) (addr o : ℕ) : Heap :=
  let r := mergeUp (h.ctl.maxOrder - 1 - o) h (addr - h.ctl.base) o
  freelistPushOff r.1 (r.1.ctl.base + r.2.1) r.2.2 r.2.1

/-! ## Initialisation -/

/-- The list before `__impl_init_memory`, or after it refused the pool. -/
def BuddyList.empty (minLog : ℕ) : BuddyList :=
  { minLog := minLog, base := 0, total := 0, maxOrder := 0, allocatedBytes := 0
    tombstonedBytes := 0, freeMask := 0, blockTags := fun _ => 0, tagCount := 0
    tagsExternal := false, freeLists := fun _ => 0, active := fun _ _ => 0
    activeRotor := fun _ => 0, tcache := fun _ => 0, tcacheCount := fun _ => 0 }

/-- The end of `__impl_init_memory`: one free block of the largest order. `tags` is the tag
memory before it is filled. -/
def formatPool (minLog : ℕ) (m : Mem) (base total : ℕ) (ext : Bool) (tags : ℕ → ℕ) : Heap :=
  let tagCount := total / 2 ^ minLog
  let maxOrder := min 64 (Nat.log2 tagCount + 1)
  let s := { BuddyList.empty minLog with
    base := base
    total := total
    maxOrder := maxOrder
    tagCount := tagCount
    tagsExternal := ext
    blockTags := fun t => if t < tagCount then 255 else tags t
    freeLists := update (fun _ => 0) (maxOrder - 1) base
    freeMask := 1#64 <<< (maxOrder - 1) }
  ⟨s.setTag (s.tagIndex base) (tagFree (maxOrder - 1)), m.setNext base 0⟩

/-- `__impl_init_memory` on a fresh list; `base = 0` means that the pool was refused.
`ext` says whether the caller supplies the tag memory, whose old content is `tags`. -/
def initMemory (minLog : ℕ) (m : Mem) (ptr len : ℕ) (ext : Bool) (tags : ℕ → ℕ) : Heap :=
  let min := 2 ^ minLog
  let r := (ptr + 7) % 2 ^ 64 / 8 * 8
  let adjust := (r + (2 ^ 64 - ptr)) % 2 ^ 64
  if len ≤ adjust then ⟨.empty minLog, m⟩
  else
    let usable := len - adjust
    if ext then
      let data := usable / min * min
      if data < min then ⟨.empty minLog, m⟩ else formatPool minLog m r data ext tags
    else
      let approxTags := (usable + min) % 2 ^ 64 / (min + 1)
      let tagArea := (approxTags + min - 1) % 2 ^ 64 / min * min
      if usable ≤ tagArea then ⟨.empty minLog, m⟩
      else
        let data := (usable - tagArea) / min * min
        if data < min then ⟨.empty minLog, m⟩
        else formatPool minLog m (r + tagArea) data ext tags

/-! ## Operations -/

def isAllocated (h : Heap) (ptr : ℕ) : Bool :=
  let tag := h.ctl.blockTags (h.ctl.tagIndex ptr)
  ptr ≠ 0 && h.ctl.base ≠ 0 && h.ctl.base ≤ ptr && ptr < h.ctl.base + h.ctl.total &&
    (ptr - h.ctl.base) % 2 ^ h.ctl.minLog = 0 && tag < 128 && tag < h.ctl.maxOrder

/-- Write the tail header and the tag of a detached block and hand it out. -/
def handOut (h : Heap) (blk o flags : ℕ) : Chunk × Heap :=
  let size := h.ctl.orderSize o
  let hdr := h.ctl.hdrOf blk o
  (⟨blk, size - 32⟩,
    ⟨{ h.ctl.setTag (h.ctl.tagIndex blk) o with
        allocatedBytes := (h.ctl.allocatedBytes + size) % 2 ^ 64 },
      (h.mem.setLo hdr o).setHi hdr flags⟩)

def allocate (h : Heap) (n : ℕ) : Option (Chunk × Heap) :=
  if 2 ^ 64 - 1 - 32 < n then some (.null, h)
  else if h.ctl.base = 0 then some (.null, h)
  else
    let o := h.ctl.orderForSize (n + 32)
    if h.ctl.maxOrder ≤ o then some (.null, h)
    else
      let i := h.ctl.findFreeOrder o
      if h.ctl.maxOrder ≤ i then some (.null, h)
      else do
        let (blk, h) ← takeAndSplit h i o
        some (handOut h blk o blockAlloc)

/-- The ring lookup of `temporal_allocate`: the slot at the rotor first, then the other. -/
def activeSlot (s : BuddyList) (o : ℕ) : ℕ :=
  let r := s.activeRotor o &&& 1
  if s.active o r = 0 then r ^^^ 1 else r

/-- Hand out a detached block as temporal and remember it in slot `r` of its order. -/
def handOutTemporal (h : Heap) (blk o r : ℕ) : Chunk × Heap :=
  let c := handOut h blk o (blockAlloc + blockTemporal)
  (c.1,
    { c.2 with ctl :=
      { c.2.ctl with
        active := update c.2.ctl.active o (update (c.2.ctl.active o) r blk)
        activeRotor := update c.2.ctl.activeRotor o (r ^^^ 1) } })

def temporalAllocate (h : Heap) (n : ℕ) : Option (Chunk × Heap) :=
  if 2 ^ 64 - 1 - 32 < n then some (.null, h)
  else if h.ctl.base = 0 then some (.null, h)
  else
    let o := h.ctl.orderForSize (n + 32)
    if h.ctl.maxOrder ≤ o then some (.null, h)
    else
      let r := activeSlot h.ctl o
      let blk := h.ctl.active o r
      if blk ≠ 0 then
        some (⟨blk, h.ctl.orderSize o - 32⟩,
          { h with ctl :=
            { h.ctl with activeRotor := update h.ctl.activeRotor o (r ^^^ 1) } })
      else do
        let (cached, h) ← tcachePop h o
        if cached ≠ 0 then some (handOutTemporal h cached o r)
        else
          let i := h.ctl.findFreeOrder o
          if h.ctl.maxOrder ≤ i then some (.null, h)
          else
            let (blk, h) ← takeAndSplit h i o
            some (handOutTemporal h blk o r)

def tombstone (h : Heap) (ptr : ℕ) : RetFlag × Heap :=
  if isAllocated h ptr = false then (.invalid, h)
  else
    let hdr := h.ctl.hdrOfTagged ptr
    let o := h.mem.lo hdr
    if h.ctl.maxOrder ≤ o then (.invalid, h)
    else if h.mem.hi hdr &&& blockAlloc = 0 then (.invalid, h)
    else
      let size := h.ctl.orderSize o
      (.tombstoned,
        ⟨{ h.ctl with
            allocatedBytes := (h.ctl.allocatedBytes + (2 ^ 64 - size)) % 2 ^ 64
            tombstonedBytes := (h.ctl.tombstonedBytes + size) % 2 ^ 64 },
          h.mem.setHi hdr blockTombstone⟩)

/-- Clear the first active slot of order `o` that holds `addr`. -/
def clearActive (s : BuddyList) (addr o : ℕ) : BuddyList :=
  if s.active o 0 = addr then
    { s with active := update s.active o (update (s.active o) 0 0) }
  else if s.active o 1 = addr then
    { s with active := update s.active o (update (s.active o) 1 0) }
  else s

def deallocate (h : Heap) (ptr : ℕ) : RetFlag × Heap :=
  if isAllocated h ptr = false then (.invalid, h)
  else
    let hdr := h.ctl.hdrOfTagged ptr
    let o := h.mem.lo hdr
    let flags := h.mem.hi hdr
    if h.ctl.maxOrder ≤ o then (.invalid, h)
    else if flags = blockFree then (.invalid, h)
    else
      let size := h.ctl.orderSize o
      let s := { h.ctl with
        allocatedBytes := (h.ctl.allocatedBytes + (2 ^ 64 - size)) % 2 ^ 64
        tombstonedBytes :=
          if flags &&& blockTombstone ≠ 0 then (h.ctl.tombstonedBytes + (2 ^ 64 - size)) % 2 ^ 64
          else h.ctl.tombstonedBytes }
      if flags &&& blockTemporal ≠ 0 then
        let r := tcachePush ⟨clearActive s ptr o, h.mem⟩ ptr o
        if r.1 then (.ok, { r.2 with ctl := r.2.ctl.setTag (r.2.ctl.tagIndex ptr) 255 })
        else (.ok, mergeAndFree r.2 ptr o)
      else (.ok, mergeAndFree ⟨s, h.mem⟩ ptr o)

/-! ## Queries -/

def isTombstoned (h : Heap) (ptr : ℕ) : Bool :=
  h.mem.hi (h.ctl.hdrOfTagged ptr) &&& blockTombstone ≠ 0

def isTemporal (h : Heap) (ptr : ℕ) : Bool :=
  h.mem.hi (h.ctl.hdrOfTagged ptr) &&& blockTemporal ≠ 0

def blockSize (h : Heap) (ptr : ℕ) : ℕ :=
  if h.ctl.base = 0 ∨ ptr = 0 ∨ ptr < h.ctl.base ∨ h.ctl.base + h.ctl.total ≤ ptr ∨
      (ptr - h.ctl.base) % 2 ^ h.ctl.minLog ≠ 0 then 0
  else
    let o := h.ctl.blockTags (h.ctl.tagIndex ptr) % 128
    if h.ctl.maxOrder ≤ o then 0 else h.ctl.orderSize o

end AbcMalloc.Buddy
