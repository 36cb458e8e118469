import Mathlib.Logic.Function.Basic
import Mathlib.Tactic

/-! The ledger of `doctor.hpp`: a hash table from user pointers to allocation records, with open
addressing and linear probing. The table doubles at 70% load; past `maxRecords` slots all records
that are not live are evicted first. The doctor's lock makes every call one atomic step. A slot
with key `0` and state `empty` is what a fresh mapping holds. The size in bytes of a table that
the kernel maps is below `2^64`, so that capacities and counters are natural numbers. The
backtrace of a record is left out. -/
namespace AbcMalloc.Doctor
open Function

inductive RecState
  | empty | live | freed | tombstoned | quarantined
  deriving DecidableEq, Repr

structure Rec where
  key : ℕ
  reqSize : ℕ
  blkSize : ℕ
  allocOp : ℕ
  freeOp : ℕ
  owner : ℕ
  allocTid : ℕ
  freeTid : ℕ
  state : RecState
  flags : ℕ
  hdrShadow : ℕ
  freeLen : ℕ
  deriving DecidableEq, Repr

def Rec.zero : Rec := ⟨0, 0, 0, 0, 0, 0, 0, 0, .empty, 0, 0, 0⟩

/-- The ledger part of `__doctor_state`; `slots` is `none` before the first mapping. -/
structure State where
  slots : Option (ℕ → Rec)
  cap : ℕ
  mask : ℕ
  occupied : ℕ
  nLive : ℕ
  nFreed : ℕ
  opCounter : ℕ

def State.initial : State := ⟨none, 0, 0, 0, 0, 0, 0⟩

/-- What a call reads outside the ledger: the calling thread, the arena that owns the pointer,
the flags of a new record, and the block's size and header as far as they can be read. -/
structure Site where
  tid : ℕ
  owner : ℕ
  flags : ℕ
  blkSize : ℕ
  hdrShadow : ℕ

/-! ## Probing -/

/-- `__hash`, the finaliser of splitmix64. -/
def hash (k : ℕ) : ℕ :=
  let x := k >>> 4
  let x := x ^^^ x >>> 30
  let x := x * 0xbf58476d1ce4e5b9 % 2 ^ 64
  let x := x ^^^ x >>> 27
  let x := x * 0x94d049bb133111eb % 2 ^ 64
  x ^^^ x >>> 31

/-- The loop of `__slot_for`. -/
def slotFrom (slots : ℕ → Rec) (mask key : ℕ) : ℕ → ℕ → Option ℕ
  | 0, _ => none
  | n + 1, i =>
    if (slots i).state = .empty ∨ (slots i).key = key then some i
    else slotFrom slots mask key n ((i + 1) &&& mask)

/-- `__slot_for`: the slot of a key, or the slot for a new record of it. -/
def State.slotFor (d : State) (key : ℕ) : Option ℕ :=
  d.slots.bind fun slots => slotFrom slots d.mask key (d.cap + 1) (hash key &&& d.mask)

/-- The loop of `__find`. -/
def findFrom (slots : ℕ → Rec) (mask key : ℕ) : ℕ → ℕ → Option ℕ
  | 0, _ => none
  | n + 1, i =>
    if (slots i).state = .empty then none
    else if (slots i).key = key then some i
    else findFrom slots mask key n ((i + 1) &&& mask)

/-- `__find`: the slot of a key. -/
def State.find (d : State) (key : ℕ) : Option ℕ :=
  d.slots.bind fun slots => findFrom slots d.mask key (d.cap + 1) (hash key &&& d.mask)

/-- The record in a slot, as `__find` shows it to its callers. -/
def State.record (d : State) (key : ℕ) : Option Rec :=
  d.slots.bind fun slots => (d.find key).map slots

def State.write (d : State) (i : ℕ) (r : Rec) : State :=
  { d with slots := d.slots.map fun slots => update slots i r }

/-! ## Growth and eviction -/

/-- Copy a record of the old table to the current one. -/
def State.reinsert (d : State) (r : Rec) : State :=
  match d.slotFor r.key with
  | none => d
  | some i => { d.write i r with occupied := d.occupied + 1 }

/-- The loop of `__rehash` and of `__drop_freed` over the old table. -/
def State.reinsertAll (keep : Rec → Bool) (old : ℕ → Rec) (oldcap : ℕ) (d : State) : State :=
  (List.range oldcap).foldl (fun d i => if keep (old i) then d.reinsert (old i) else d) d

/-- `__rehash`; the flag says whether the kernel grants the mapping. -/
def State.rehash (mapped : Bool) (d : State) (newcap : ℕ) : State :=
  if newcap = 0 then d
  else if !mapped then d
  else
    let fresh :=
      { d with slots := some fun _ => .zero, cap := newcap, mask := newcap - 1, occupied := 0 }
    match d.slots with
    | none => fresh
    | some old => fresh.reinsertAll (fun r => r.state ≠ .empty && r.key ≠ 0) old d.cap

def State.ensure (mapped : Bool) (d : State) : State :=
  if d.slots.isNone then d.rehash mapped (1 <<< 12) else d

/-- `__drop_freed`: evict every record that is not live. -/
def State.dropFreed (mapped : Bool) (d : State) : Bool × State :=
  match d.slots with
  | none => (false, d)
  | some old =>
    if d.occupied ≤ d.nLive then (false, d)
    else if !mapped then (false, d)
    else
      let fresh := { d with slots := some fun _ => .zero, mask := d.cap - 1, occupied := 0 }
      (true, { fresh.reinsertAll (fun r => r.state = .live) old d.cap with nFreed := 0 })

def State.growIfNeeded (maxRecords : ℕ) (mapped : Bool) (d : State) : State :=
  if d.cap = 0 then d
  else if d.occupied * 10 < d.cap * 7 then d
  else
    let newcap := d.cap <<< 1
    if maxRecords < newcap then
      let r := d.dropFreed mapped
      if r.1 ∧ r.2.occupied * 10 < r.2.cap * 7 then r.2 else r.2.rehash mapped newcap
    else d.rehash mapped newcap

/-! ## Recording -/

/-- `__doctor_arm_canaries`. -/
def Rec.arm (r : Rec) (site : Site) : Rec :=
  { r with hdrShadow := site.hdrShadow, blkSize := site.blkSize }

/-- The record that `record_alloc` writes. -/
def Rec.alloc (ptr reqSize op : ℕ) (site : Site) : Rec :=
  { key := ptr, reqSize := reqSize, blkSize := site.blkSize, allocOp := op, freeOp := 0
    owner := site.owner, allocTid := site.tid, freeTid := 0, state := .live, flags := site.flags
    hdrShadow := site.hdrShadow, freeLen := 0 }

def State.recordAlloc (maxRecords : ℕ) (mapped : Bool) (d : State) (ptr reqSize : ℕ) (site : Site) :
    State :=
  if ptr = 0 then d
  else
    let d := d.ensure mapped
    if d.slots.isNone then d
    else
      let d := d.growIfNeeded maxRecords mapped
      match d.slots, d.slotFor ptr with
      | some slots, some i =>
        let state := (slots i).state
        { d.write i (.alloc ptr reqSize d.opCounter site) with
          occupied := if state = .empty then d.occupied + 1 else d.occupied
          nFreed := if state = .freed ∨ state = .tombstoned then d.nFreed - 1 else d.nFreed
          nLive := if state ≠ .live then d.nLive + 1 else d.nLive
          opCounter := d.opCounter + 1 }
      | _, _ => d

/-- Change the record of a pointer that is tracked. -/
def State.modify (d : State) (ptr : ℕ) (f : Rec → State → State × Rec) : State :=
  match d.find ptr, d.record ptr with
  | some i, some r =>
    let s := f r d
    s.1.write i s.2
  | _, _ => d

def State.recordRealloc (d : State) (ptr newReqSize : ℕ) (site : Site) : State :=
  if ptr = 0 then d
  else d.modify ptr fun r d =>
    if r.state ≠ .live then (d, r)
    else ({ d with opCounter := d.opCounter + 1 }, { r with reqSize := newReqSize }.arm site)

def State.markChunkAlloc (d : State) (ptr : ℕ) : State :=
  if ptr = 0 then d
  else d.modify ptr fun r d =>
    if r.state = .live then (d, { r with flags := r.flags ||| 1 }) else (d, r)

/-- `__mark_free_locked`. -/
def State.markFree (d : State) (ptr : ℕ) (dest : RecState) (len : ℕ) (site : Site) : State :=
  d.modify ptr fun r d =>
    if r.state = .freed ∨ r.state = .tombstoned ∨ r.state = .quarantined then (d, r)
    else
      ({ d with
          nLive := if r.state = .live then d.nLive - 1 else d.nLive
          nFreed := d.nFreed + 1
          opCounter := d.opCounter + 1 },
        { r with state := dest, freeOp := d.opCounter, freeTid := site.tid, freeLen := len })

def State.recordFree (d : State) (ptr len : ℕ) (site : Site) : State :=
  if ptr = 0 then d else d.markFree ptr .freed len site

def State.recordTombstone (d : State) (ptr len : ℕ) (site : Site) : State :=
  if ptr = 0 then d else d.markFree ptr .tombstoned len site

/-- `__quarantine_locked`. -/
def State.quarantine (d : State) (ptr : ℕ) : State :=
  d.modify ptr fun r d =>
    ({ d with nLive := if r.state = .live then d.nLive - 1 else d.nLive },
      { r with state := .quarantined })

inductive Call
  | recordAlloc (ptr reqSize : ℕ) (site : Site)
  | recordRealloc (ptr newReqSize : ℕ) (site : Site)
  | markChunkAlloc (ptr : ℕ)
  | recordFree (ptr len : ℕ) (site : Site)
  | recordTombstone (ptr len : ℕ) (site : Site)
  | quarantine (ptr : ℕ)

def State.call (maxRecords : ℕ) (mapped : Bool) (d : State) : Call → State
  | .recordAlloc ptr reqSize site => d.recordAlloc maxRecords mapped ptr reqSize site
  | .recordRealloc ptr newReqSize site => d.recordRealloc ptr newReqSize site
  | .markChunkAlloc ptr => d.markChunkAlloc ptr
  | .recordFree ptr len site => d.recordFree ptr len site
  | .recordTombstone ptr len site => d.recordTombstone ptr len site
  | .quarantine ptr => d.quarantine ptr

end AbcMalloc.Doctor
