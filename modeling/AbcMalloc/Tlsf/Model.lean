import AbcMalloc.Memory
import Mathlib.Tactic

/-! `__tlsf_list` of `cache_list.hpp`: the two-level segregated fit list behind the
precise and small tiers. Every function follows the source statement by statement.
`usize` arithmetic is taken modulo `2^64`, `bsize` modulo `2^32`, and an operation whose
C++ counterpart has undefined behaviour (a negative array index, a null or stray header
access) returns `none`. The constants of the source are written out: `__hdr_offset` and
`__block_align` are 32, `__min_block` is 64, `__sl_count` is 16 (`__sl_log2` 4),
`__fl_shift` is 6, `__fl_count` is 26 and a temporal ring has two slots. -/
namespace AbcMalloc.Tlsf
open Function

/-- The members of `__tlsf_list`. Arrays are functions of their index. -/
structure TlsfList where
  base : ℕ
  total : ℕ
  flCount : ℕ
  allocatedBytes : ℕ
  tombstonedBytes : ℕ
  flBitmap : BitVec 32
  slBitmap : ℕ → BitVec 32
  heads : ℕ → ℕ
  temporalActive : ℕ → ℕ → ℕ
  temporalRotor : ℕ → ℕ

structure Heap where
  ctl : TlsfList
  mem : Mem

/-! ## Size classes -/

/-- `v` rounded down to a multiple of the power of two `a`, i.e. `v & ~(a - 1)`. -/
def alignDown (v a : ℕ) : ℕ := v / a * a

def alignUp (v a : ℕ) : ℕ := alignDown ((v + a - 1) % 2 ^ 64) a

/-- `63 - __builtin_clzll(v)`, the position of the highest set bit. -/
def fls64 (v : ℕ) : ℕ := Nat.log2 v

def idx (fi si : ℕ) : ℕ := fi * 16 + si

/-- First- and second-level class of a block size. The first level is negative for sizes
below 64. -/
def mappingInsert (size : ℕ) : ℤ × ℕ :=
  let fl := fls64 size
  ((fl : ℤ) - 6, (size >>> (fl - 4)) &&& 15)

/-- Class in which a search for `size` starts: the size is first rounded up to the next
second-level boundary. -/
def mappingSearch (size : ℕ) : ℤ × ℕ :=
  let shift := fls64 size - 4
  mappingInsert ((size + (1 <<< shift - 1)) % 2 ^ 64)

def classIndex (size : ℕ) : ℕ := idx (mappingInsert size).1.toNat (mappingInsert size).2

def adjustedBlockSize (userN : ℕ) : ℕ :=
  let overhead := 32 + 32
  let alignMask := 31
  if 2 ^ 64 - 1 - overhead - alignMask < userN then 0
  else max 64 (alignDown (userN + overhead + alignMask) 32)

/-! ## Free lists -/

def nextPhys (m : Mem) (b : ℕ) : ℕ := b + m.lo b

def TlsfList.endSentinel (s : TlsfList) : ℕ := s.base + 32 + s.total

/-- Clear the bitmap bits of an empty list. -/
def clearBits (s : TlsfList) (fi si : ℕ) : TlsfList :=
  let newSl := s.slBitmap fi &&& ~~~(1#32 <<< si)
  { s with
    slBitmap := update s.slBitmap fi newSl
    flBitmap := if newSl = 0 then s.flBitmap &&& ~~~(1#32 <<< fi) else s.flBitmap }

def flInsert (h : Heap) (block : ℕ) : Heap :=
  let c := mappingInsert (h.mem.lo block)
  let fi := c.1.toNat
  let i := idx fi c.2
  let head := h.ctl.heads i
  let m := (h.mem.setW2 block head).setW3 block 0
  let m := if head ≠ 0 then m.setW3 head block else m
  { ctl := { h.ctl with
      heads := update h.ctl.heads i block
      flBitmap := h.ctl.flBitmap ||| (1#32 <<< fi)
      slBitmap := update h.ctl.slBitmap fi (h.ctl.slBitmap fi ||| (1#32 <<< c.2)) }
    mem := m.setHi block blockFree }

def flRemove (h : Heap) (block : ℕ) : Heap :=
  let c := mappingInsert (h.mem.lo block)
  let fi := c.1.toNat
  let i := idx fi c.2
  let prev := h.mem.w3 block
  let next := h.mem.w2 block
  let m := if prev ≠ 0 then h.mem.setW2 prev next else h.mem
  let s := if prev ≠ 0 then h.ctl else { h.ctl with heads := update h.ctl.heads i next }
  let m := if next ≠ 0 then m.setW3 next prev else m
  { ctl := if s.heads i = 0 then clearBits s fi c.2 else s
    mem := m }

/-- The second half of `find_free`: detach the head of a list that the bitmaps report as
non-empty. -/
def takeHead (h : Heap) (fi si : ℕ) : Option (ℕ × Heap) :=
  let i := idx fi si
  let block := h.ctl.heads i
  if block = 0 then none
  else
    let next := h.mem.w2 block
    let s := { h.ctl with heads := update h.ctl.heads i next }
    some (block,
      if next ≠ 0 then { ctl := s, mem := h.mem.setW3 next 0 }
      else { ctl := clearBits s fi si, mem := h.mem })

/-- `find_free`; block `0` is the null result. -/
def findFree (h : Heap) (needed : ℕ) : Option (ℕ × Heap) :=
  let c := mappingSearch needed
  if (h.ctl.flCount : ℤ) ≤ c.1 then some (0, h)
  else if c.1 < 0 then none -- `sl_bitmap[fi]` with a negative index
  else
    let fi := c.1.toNat
    let slMap := h.ctl.slBitmap fi &&& (BitVec.allOnes 32 <<< c.2)
    if slMap ≠ 0 then takeHead h fi slMap.ctz.toNat
    else
      let flMap := h.ctl.flBitmap &&& (BitVec.allOnes 32 <<< (fi + 1))
      if flMap = 0 then some (0, h)
      else
        let fi := flMap.ctz.toNat
        if h.ctl.slBitmap fi = 0 then none else takeHead h fi (h.ctl.slBitmap fi).ctz.toNat

/-! ## Splitting and coalescing -/

def trySplit (h : Heap) (block needed : ℕ) : Option Heap :=
  let remain := (h.mem.lo block + (2 ^ 64 - needed)) % 2 ^ 64
  if remain < 64 then some h
  else
    let rem := (block + needed) % 2 ^ 64
    -- the header of the remainder is written without a bounds check
    if rem < h.ctl.base + 32 ∨ h.ctl.endSentinel ≤ rem then none
    else
      let m := h.mem.setLo block (needed % 2 ^ 32)
      let m := (m.setLo rem (remain % 2 ^ 32)).setW1 rem block
      let m := m.setW1 (nextPhys m rem) rem
      some (flInsert { h with mem := m } rem)

/-- Forward half of `coalesce_and_free`; the flag says whether a merge happened. -/
def mergeForward (h : Heap) (block : ℕ) : Heap × Bool :=
  let next := nextPhys h.mem block
  if h.mem.hi next = blockFree then
    let h := flRemove h next
    ({ h with mem := h.mem.setLo block ((h.mem.lo block + h.mem.lo next) % 2 ^ 32) }, true)
  else (h, false)

/-- Backward half of `coalesce_and_free`; returns the block that remains. -/
def mergeBackward (h : Heap) (block : ℕ) (merged : Bool) : Heap × ℕ × Bool :=
  let prev := h.mem.w1 block
  if prev ≠ 0 ∧ h.mem.hi prev = blockFree then
    let h := flRemove h prev
    ({ h with mem := h.mem.setLo prev ((h.mem.lo prev + h.mem.lo block) % 2 ^ 32) }, prev, true)
  else (h, block, merged)

def coalesceAndFree (h : Heap) (block : ℕ) : Heap :=
  let f := mergeForward h block
  let r := mergeBackward f.1 block f.2
  let m := if r.2.2 then r.1.mem.setW1 (nextPhys r.1.mem r.2.1) r.2.1 else r.1.mem
  flInsert { r.1 with mem := m } r.2.1

/-! ## Initialisation -/

/-- The list before `__impl_init_memory`, or after it refused the pool. -/
def TlsfList.empty : TlsfList :=
  { base := 0, total := 0, flCount := 0, allocatedBytes := 0, tombstonedBytes := 0
    flBitmap := 0, slBitmap := fun _ => 0, heads := fun _ => 0
    temporalActive := fun _ _ => 0, temporalRotor := fun _ => 0 }

def writeHdr (m : Mem) (a bsize flags prevPhys : ℕ) : Mem :=
  ((m.setLo a bsize).setHi a flags).setW1 a prevPhys

/-- The end of `__impl_init_memory`: both sentinels and one free block between them. -/
def formatPool (m : Mem) (r data : ℕ) : Heap :=
  let s := { TlsfList.empty with
    base := r
    total := data
    flCount := max 1 (min 26 (fls64 data - 6 + 1)) }
  let es := s.endSentinel
  let blk := r + 32
  let m := ((writeHdr m r 32 blockAlloc 0).setW2 r 0).setW3 r 0
  let m := ((writeHdr m es 32 blockAlloc 0).setW2 es 0).setW3 es 0
  let m := (writeHdr m blk data blockFree r).setW1 es blk
  flInsert ⟨s, m⟩ blk

/-- `__impl_init_memory` on a fresh list; `base = 0` means that the pool was refused. -/
def initMemory (m : Mem) (ptr len : ℕ) : Heap :=
  let r := alignUp ptr 32
  let adjust := (r + (2 ^ 64 - ptr)) % 2 ^ 64
  if len ≤ adjust then ⟨.empty, m⟩
  else
    let usable := alignDown (len - adjust) 32
    if usable < 2 * 32 + 64 then ⟨.empty, m⟩
    else
      let data := usable - 2 * 32
      if 0xFFFFFFFF < data then ⟨.empty, m⟩ else formatPool m r data

/-! ## Operations -/

/-- Mark a detached block and hand it out: the common end of both allocation paths. -/
def handOut (h : Heap) (block flags : ℕ) : Chunk × Heap :=
  let blockSize := h.mem.lo block
  (⟨block + 32, blockSize - 32⟩,
    { ctl := { h.ctl with allocatedBytes := (h.ctl.allocatedBytes + blockSize) % 2 ^ 64 }
      mem := h.mem.setHi block flags })

def allocate (h : Heap) (n : ℕ) : Option (Chunk × Heap) :=
  if h.ctl.base = 0 then some (.null, h)
  else
    let needed := adjustedBlockSize n
    if needed = 0 then some (.null, h)
    else do
      let (block, h) ← findFree h needed
      if block = 0 then some (.null, h)
      else
        let h ← trySplit h block needed
        some (handOut h block blockAlloc)

/-- The ring lookup of `temporal_allocate`: the slot at the rotor first, then the other. -/
def ringSlot (s : TlsfList) (i : ℕ) : ℕ :=
  let r := s.temporalRotor i &&& 1
  if s.temporalActive i r = 0 then r ^^^ 1 else r

/-- `fi >= 0 && fi < fl_count`. -/
def inClasses (s : TlsfList) (c : ℤ × ℕ) : Bool := 0 ≤ c.1 ∧ c.1 < s.flCount

/-- Remember a freshly carved temporal block in the ring of its class. -/
def ringInstall (s : TlsfList) (c : ℤ × ℕ) (block : ℕ) : TlsfList :=
  if inClasses s c then
    let i := idx c.1.toNat c.2
    let r := s.temporalRotor i
    { s with
      temporalActive := update s.temporalActive i (update (s.temporalActive i) r block)
      temporalRotor := update s.temporalRotor i (r ^^^ 1) }
  else s

/-- The slow path of `temporal_allocate`: carve a block and remember it. -/
def temporalCarve (h : Heap) (needed : ℕ) : Option (Chunk × Heap) := do
  let (block, h) ← findFree h needed
  if block = 0 then some (.null, h)
  else
    let h ← trySplit h block needed
    let r := handOut h block (blockAlloc + blockTemporal)
    some (r.1, { r.2 with ctl := ringInstall r.2.ctl (mappingSearch needed) block })

def temporalAllocate (h : Heap) (n : ℕ) : Option (Chunk × Heap) :=
  if h.ctl.base = 0 then some (.null, h)
  else
    let needed := adjustedBlockSize n
    if needed = 0 then some (.null, h)
    else
      let c := mappingSearch needed
      let i := idx c.1.toNat c.2
      let r := ringSlot h.ctl i
      let blk := h.ctl.temporalActive i r
      if inClasses h.ctl c ∧ blk ≠ 0 then
        some (⟨blk + 32, h.mem.lo blk - 32⟩,
          { h with ctl := { h.ctl with temporalRotor := update h.ctl.temporalRotor i (r ^^^ 1) } })
      else temporalCarve h needed

def tombstone (h : Heap) (ptr : ℕ) : RetFlag × Heap :=
  let hdr := ptr - 32
  if h.mem.hi hdr &&& blockAlloc = 0 then (.invalid, h)
  else
    let bsz := h.mem.lo hdr
    (.tombstoned,
      { ctl := { h.ctl with
          allocatedBytes := (h.ctl.allocatedBytes + (2 ^ 64 - bsz)) % 2 ^ 64
          tombstonedBytes := (h.ctl.tombstonedBytes + bsz) % 2 ^ 64 }
        mem := h.mem.setHi hdr blockTombstone })

/-- Clear the slot of one class that holds `block`; `none` if there is no such slot. -/
def clearTemporalClass (s : TlsfList) (block size : ℕ) : Option TlsfList :=
  let c := mappingSearch size
  if inClasses s c then
    let i := idx c.1.toNat c.2
    if s.temporalActive i 0 = block then
      some { s with temporalActive := update s.temporalActive i (update (s.temporalActive i) 0 0) }
    else if s.temporalActive i 1 = block then
      some { s with temporalActive := update s.temporalActive i (update (s.temporalActive i) 1 0) }
    else none
  else none

/-- A block keeps a 32-byte remainder that cannot be split off, so it may have been
installed under its own class or under that of the size 32 bytes below. -/
def clearTemporal (s : TlsfList) (block size : ℕ) : TlsfList :=
  match clearTemporalClass s block size with
  | some s => s
  | none =>
    if 64 < size then (clearTemporalClass s block (size - 32)).getD s else s

def deallocate (h : Heap) (ptr : ℕ) : RetFlag × Heap :=
  if ptr = 0 ∨ h.ctl.base = 0 then (.failure, h)
  else
    let block := ptr - 32
    let bsz := h.mem.lo block
    let flags := h.mem.hi block
    if flags = blockFree then (.invalid, h)
    else
      let s := { h.ctl with
        allocatedBytes := (h.ctl.allocatedBytes + (2 ^ 64 - bsz)) % 2 ^ 64
        tombstonedBytes :=
          if flags &&& blockTombstone ≠ 0 then (h.ctl.tombstonedBytes + (2 ^ 64 - bsz)) % 2 ^ 64
          else h.ctl.tombstonedBytes }
      let s := if flags &&& blockTemporal ≠ 0 then clearTemporal s block bsz else s
      (.ok, coalesceAndFree { h with ctl := s } block)

/-! ## Queries -/

/-- `blk >= data_lo && blk < data_hi` for the header of `ptr`. -/
def inData (s : TlsfList) (ptr : ℕ) : Bool :=
  s.base + 32 ≤ ptr - 32 ∧ ptr - 32 < s.endSentinel

def isAllocated (h : Heap) (ptr : ℕ) : Bool :=
  ptr ≠ 0 && h.ctl.base ≠ 0 && inData h.ctl ptr && h.mem.hi (ptr - 32) ≠ blockFree

def isTombstoned (h : Heap) (ptr : ℕ) : Bool :=
  h.mem.hi (ptr - 32) &&& blockTombstone ≠ 0

def isTemporal (h : Heap) (ptr : ℕ) : Bool :=
  h.mem.hi (ptr - 32) &&& blockTemporal ≠ 0

def blockSize (h : Heap) (ptr : ℕ) : ℕ :=
  if h.ctl.base ≠ 0 ∧ ptr ≠ 0 ∧ inData h.ctl ptr then h.mem.lo (ptr - 32) else 0

end AbcMalloc.Tlsf
