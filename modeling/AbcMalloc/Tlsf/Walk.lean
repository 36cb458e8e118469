import AbcMalloc.Foundation.Bytes
import AbcMalloc.Tlsf.Lists

/-! `__doctor_walk` of `cache_list.hpp`. The walk meets links that nobody vouches for, so headers
are read from a memory of bytes here: a link may point into the middle of another header. -/
namespace AbcMalloc.Tlsf
open Function Foundation

/-! ## Headers -/

def bsizeAt (m : Bytes) (b : ℕ) : ℕ := m.load b 4
def flagsAt (m : Bytes) (b : ℕ) : ℕ := m.load (b + 4) 4
def prevPhysAt (m : Bytes) (b : ℕ) : ℕ := m.load (b + 8) 8
def nextFreeAt (m : Bytes) (b : ℕ) : ℕ := m.load (b + 16) 8
def prevFreeAt (m : Bytes) (b : ℕ) : ℕ := m.load (b + 24) 8

/-! ## The walk -/

/-- What the walk reports, with the address that goes with each text. -/
structure Visitor where
  repair : Bool
  blocks : ℕ
  freelistNodes : ℕ
  notes : List (String × ℕ)
  repairs : List (String × ℕ)

structure Walk where
  ctl : TlsfList
  mem : Bytes
  visitor : Visitor

namespace Walk

def note (w : Walk) (what : String) (p : ℕ) : Walk :=
  { w with visitor := { w.visitor with notes := w.visitor.notes ++ [(what, p)] } }

def didRepair (w : Walk) (what : String) (p : ℕ) : Walk :=
  { w with visitor := { w.visitor with repairs := w.visitor.repairs ++ [(what, p)] } }

def noteIf (w : Walk) (c : Bool) (what : String) (p : ℕ) : Walk := if c then w.note what p else w

/-- `maxg` -/
def maxGuard (s : TlsfList) : ℕ := s.total / 64 + 8

def sentinels (w : Walk) : Walk :=
  let bad (p : ℕ) := bsizeAt w.mem p ≠ 32 || flagsAt w.mem p ≠ blockAlloc
  let w := w.noteIf (bad w.ctl.base) "tlsf: start sentinel corrupt" w.ctl.base
  w.noteIf (bad w.ctl.endSentinel) "tlsf: end sentinel corrupt" w.ctl.endSentinel

def flagsKnown (f : ℕ) : Bool :=
  f = blockFree || f = blockAlloc || f = blockTombstone || f = blockAlloc ||| blockTemporal

def countBlock (w : Walk) : Walk :=
  { w with visitor := { w.visitor with blocks := w.visitor.blocks + 1 } }

def countNode (w : Walk) : Walk :=
  { w with visitor := { w.visitor with freelistNodes := w.visitor.freelistNodes + 1 } }

/-- A back-link of `p`, found as `found`, is to be `want`. -/
def backLink (w : Walk) (p off found want : ℕ) (bad fixed : String) : Walk :=
  if found ≠ want then
    let w := w.note bad p
    if w.visitor.repair then { w with mem := w.mem.store (p + off) 8 want }.didRepair fixed p else w
  else w

/-- The chain of the physical blocks from `cur` on. Returns the last block, and whether the guard
ran out. -/
def physical (w : Walk) (cur prev : ℕ) : ℕ → Walk × ℕ × Bool
  | 0 => (w, prev, true)
  | k + 1 =>
    if w.ctl.endSentinel ≤ cur then (w, prev, false)
    else
      let w := w.countBlock
      let bs := bsizeAt w.mem cur
      if bs = 0 ∨ bs % 32 ≠ 0 then
        (w.note "tlsf: block bsize zero or misaligned" cur, prev, k = 0)
      else if w.ctl.endSentinel < cur + bs then
        (w.note "tlsf: block extends past data region" cur, prev, k = 0)
      else
        let w := w.noteIf (!flagsKnown (flagsAt w.mem cur))
          "tlsf: block flags not a valid block_flags" cur
        let w := w.backLink cur 8 (prevPhysAt w.mem cur) prev "tlsf: prev_phys back-link mismatch"
          "tlsf: fixed prev_phys back-link"
        let nx := cur + bsizeAt w.mem cur
        let w := w.noteIf (flagsAt w.mem cur = blockFree && nx < w.ctl.endSentinel &&
          flagsAt w.mem nx = blockFree) "tlsf: adjacent free blocks (missed coalescing)" cur
        physical w nx cur k

def physicalChain (w : Walk) : Walk :=
  match w.physical (w.ctl.base + 32) w.ctl.base (maxGuard w.ctl) with
  | (w, _, true) => w.note "tlsf: physical walk overran (corrupt bsize chain)" w.ctl.base
  | (w, prev, false) => w.noteIf (prevPhysAt w.mem w.ctl.endSentinel ≠ prev)
      "tlsf: end sentinel prev_phys != last block" w.ctl.endSentinel

/-- `want_sl`, the bits of the non-empty lists of a first-level class. -/
def wantSl (heads : ℕ → ℕ) (fi : ℕ) : BitVec 32 :=
  (List.range 16).foldl
    (fun acc si => if heads (idx fi si) ≠ 0 then acc ||| (1#32 <<< si) else acc) 0#32

def wantFl (sl : ℕ → BitVec 32) : BitVec 32 :=
  (List.range 26).foldl (fun acc fi => if sl fi ≠ 0 then acc ||| (1#32 <<< fi) else acc) 0#32

def secondLevel (w : Walk) (fi : ℕ) : Walk :=
  if w.ctl.slBitmap fi ≠ wantSl w.ctl.heads fi then
    if w.visitor.repair then
      { w with ctl := { w.ctl with
          slBitmap := update w.ctl.slBitmap fi (wantSl w.ctl.heads fi) } }.didRepair
        "tlsf: recomputed sl_bitmap from heads" w.ctl.base
    else w.note "tlsf: sl_bitmap disagrees with heads[]" w.ctl.base
  else w

def firstLevel (w : Walk) : Walk :=
  if w.ctl.flBitmap ≠ wantFl w.ctl.slBitmap then
    if w.visitor.repair then
      { w with ctl := { w.ctl with flBitmap := wantFl w.ctl.slBitmap } }.didRepair
        "tlsf: recomputed fl_bitmap from sl_bitmap" w.ctl.base
    else w.note "tlsf: fl_bitmap disagrees with sl_bitmap" w.ctl.base
  else w

def bitmaps (w : Walk) : Walk := ((List.range 26).foldl secondLevel w).firstLevel

/-- Cut the list `i` behind `pr`, or at its head. -/
def truncate (w : Walk) (i pr : ℕ) : Walk :=
  if pr ≠ 0 then { w with mem := w.mem.store (pr + 16) 8 0 }
  else { w with ctl := { w.ctl with heads := update w.ctl.heads i 0 } }

/-- The free list `i` from the node `n` on, behind `pr`; says whether the guard ran out. -/
def freeNodes (w : Walk) (i n pr : ℕ) : ℕ → Walk × Bool
  | 0 => (w, true)
  | k + 1 =>
    if n = 0 then (w, false)
    else
      let w := w.countNode
      if n < w.ctl.base + 32 ∨ w.ctl.endSentinel ≤ n then
        let w := w.note "tlsf: free-list node out of bounds" n
        (if w.visitor.repair then
          (w.truncate i pr).didRepair "tlsf: truncated free-list at bad node" n
        else w, k = 0)
      else
        let w := w.noteIf (flagsAt w.mem n ≠ blockFree) "tlsf: free-list node not flagged free" n
        let w := w.backLink n 24 (prevFreeAt w.mem n) pr
          "tlsf: free-list prev_free back-link mismatch" "tlsf: fixed prev_free back-link"
        freeNodes w i (nextFreeAt w.mem n) n k

def freeList (w : Walk) (i : ℕ) : Walk :=
  let r := w.freeNodes i (w.ctl.heads i) 0 (maxGuard w.ctl)
  r.1.noteIf r.2 "tlsf: free-list cycle / overrun" r.1.ctl.base

def freeLists (w : Walk) : Walk := (List.range 416).foldl freeList w

def doctorWalk (w : Walk) : Walk :=
  if w.ctl.base = 0 then w else w.sentinels.physicalChain.bitmaps.freeLists

end Walk
end AbcMalloc.Tlsf
