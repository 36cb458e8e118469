import Mathlib.Logic.Function.Basic
import Mathlib.Tactic

/-! The registry of external ranges, `external.hpp`: a list of pages, each a table of ranges in
which a null base marks a vacant entry. The lock serialises every call, so that the functions
are atomic steps on one state. Entries at `highWater` and above are never read. Addresses and
lengths are taken modulo `2^64`; the counters `used` and `__external_count` are natural numbers,
since there are fewer ranges than addresses. -/
namespace AbcMalloc.External
open Function

inductive Provenance
  | none | caller | fixed | guarded | huge | secure | immutable
  deriving DecidableEq, Repr

/-- `__external_range`. -/
structure Range where
  base : ℕ
  len : ℕ
  provenance : Provenance
  deriving DecidableEq, Repr

/-- `{ nullptr, 0, external_provenance::none }`. -/
def Range.vacant : Range := ⟨0, 0, .none⟩

/-- `__external_page`. The table is a function of the index. -/
structure Page where
  capacity : ℕ
  used : ℕ
  highWater : ℕ
  ranges : ℕ → Range

/-- `__external_pages`, as the list of the pages that `next` links, and `__external_count`. -/
structure Registry where
  pages : List Page
  count : ℕ

def Registry.empty : Registry := ⟨[], 0⟩

/-! ## Bounds and pages -/

/-- `__external_bounds`: both ends of the range. -/
def bounds (base len : ℕ) : Option (ℕ × ℕ) :=
  if base = 0 ∨ len = 0 then none
  else if 2 ^ 64 - 1 - base < len then none
  else
    let hi := (base + len) % 2 ^ 64
    if base < hi then some (base, hi) else none

def overlap (alo ahi : ℕ) (range : Range) : Bool :=
  if range.base = 0 then false
  else
    let bhi := (range.base + range.len) % 2 ^ 64
    alo < bhi && range.base < ahi

/-- `__external_new_page`; a header of a page is 32 bytes and a range 24. The flag says whether
the kernel grants the mapping. -/
def newPage (pageSize : ℕ) (mapped : Bool) : Option Page :=
  let mappingLen := if pageSize < 32 + 24 then 32 + 24 else pageSize
  if mapped then
    some
      { capacity := (mappingLen - 32) / 24
        used := 0
        highWater := 1
        ranges := fun _ => .vacant }
  else none

/-! ## Registration -/

/-- The inner loop of `__external_register_slow` over the entries `is` of the page at position
`k`: `none` if one overlaps, else the first vacant entry seen so far. -/
def scanRanges (lo hi k : ℕ) (page : Page) :
    List ℕ → Option (ℕ × ℕ) → Option (Option (ℕ × ℕ))
  | [], vacant => some vacant
  | i :: is, vacant =>
    if overlap lo hi (page.ranges i) then none
    else
      scanRanges lo hi k page is
        (if vacant = none ∧ (page.ranges i).base = 0 then some (k, i) else vacant)

/-- The outer loop, over the pages from position `k` on: the first vacant entry, and the first
page with room behind its `highWater` that was met before any vacant entry. -/
def scanPages (lo hi : ℕ) : ℕ → List Page → Option (ℕ × ℕ) → Option ℕ →
    Option (Option (ℕ × ℕ) × Option ℕ)
  | _, [], vacant, tail => some (vacant, tail)
  | k, page :: pages, vacant, tail => do
    let vacant ← scanRanges lo hi k page (List.range page.highWater) vacant
    scanPages lo hi (k + 1) pages vacant
      (if vacant = none ∧ tail = none ∧ page.highWater < page.capacity then some k else tail)

def Page.place (page : Page) (i : ℕ) (range : Range) : Page :=
  { page with ranges := update page.ranges i range, used := page.used + 1 }

def registerSlow (pageSize : ℕ) (mapped : Bool) (r : Registry) (range : Range) (lo hi : ℕ) :
    Bool × Registry :=
  match scanPages lo hi 0 r.pages none none with
  | none => (false, r)
  | some (some (k, i), _) =>
    (true, ⟨r.pages.modify k (·.place i range), r.count + 1⟩)
  | some (none, some k) =>
    (true, ⟨r.pages.modify k fun page =>
      { page with highWater := page.highWater + 1 }.place page.highWater range, r.count + 1⟩)
  | some (none, none) =>
    match newPage pageSize mapped with
    | none => (false, r)
    | some page => (true, ⟨page.place 0 range :: r.pages, r.count + 1⟩)

/-- `register_external`. An empty registry reuses its first page. -/
def registerExternal (pageSize : ℕ) (mapped : Bool) (r : Registry) (base len : ℕ)
    (provenance : Provenance) : Bool × Registry :=
  match bounds base len with
  | none => (false, r)
  | some (lo, hi) =>
    match r.count, r.pages with
    | 0, page :: pages =>
      (true, ⟨{ page with
        ranges := update page.ranges 0 ⟨base, len, provenance⟩
        used := 1
        highWater := 1 } :: pages, 1⟩)
    | _, _ => registerSlow pageSize mapped r ⟨base, len, provenance⟩ lo hi

/-! ## Removal -/

def locateIn (base : ℕ) (page : Page) : List ℕ → Option ℕ
  | [] => none
  | i :: is => if (page.ranges i).base = base then some i else locateIn base page is

/-- Position of the first entry with this base: the page, from position `k` on, and the index. -/
def locate (base : ℕ) : ℕ → List Page → Option (ℕ × ℕ)
  | _, [] => none
  | k, page :: pages =>
    match locateIn base page (List.range page.highWater) with
    | some i => some (k, i)
    | none => locate base (k + 1) pages

/-- `while ( high_water && ranges[high_water - 1].base == nullptr ) --high_water`. -/
def lowerWater (ranges : ℕ → Range) : ℕ → ℕ
  | 0 => 0
  | h + 1 => if (ranges h).base = 0 then lowerWater ranges h else h + 1

/-- Vacate an entry; the last one takes the vacant entries before it along. -/
def Page.vacate (page : Page) (i : ℕ) : Page :=
  let ranges := update page.ranges i .vacant
  { page with
    ranges := ranges
    used := page.used - 1
    highWater := if i + 1 = page.highWater then lowerWater ranges page.highWater
      else page.highWater }

def Registry.entry (r : Registry) (k i : ℕ) : Range :=
  match r.pages[k]? with
  | some page => page.ranges i
  | none => .vacant

def unregisterSlow (r : Registry) (base len : ℕ) : Bool × Registry :=
  match locate base 0 r.pages with
  | none => (false, r)
  | some (k, i) =>
    if (r.entry k i).len ≠ len then (false, r)
    else (true, ⟨r.pages.modify k (·.vacate i), r.count - 1⟩)

/-- `unregister_external`, with its own path for the first entry of the first page. -/
def unregisterExternal (r : Registry) (base len : ℕ) : Bool × Registry :=
  if base = 0 ∨ len = 0 then (false, r)
  else
    match r.pages with
    | [] => unregisterSlow r base len
    | page :: pages =>
      if page.highWater ≠ 0 ∧ (page.ranges 0).base = base then
        if (page.ranges 0).len ≠ len then (false, r)
        else
          (true, ⟨{ page with
            ranges := update page.ranges 0 .vacant
            used := page.used - 1
            highWater := if page.highWater = 1 then 0 else page.highWater } :: pages, r.count - 1⟩)
      else unregisterSlow r base len

/-! ## Queries -/

def Registry.find (r : Registry) (base : ℕ) : Option Range :=
  if base = 0 then none else (locate base 0 r.pages).map fun p => r.entry p.1 p.2

def externalIsPresent (r : Registry) (base : ℕ) : Bool := (r.find base).isSome

def externalQuerySize (r : Registry) (base : ℕ) : ℕ := (r.find base).elim 0 Range.len

def externalQueryProvenance (r : Registry) (base : ℕ) : Provenance :=
  (r.find base).elim .none Range.provenance

def externalWithin (r : Registry) (address : ℕ) : Bool :=
  address ≠ 0 && r.pages.any fun page => (List.range page.highWater).any fun i =>
    let range := page.ranges i
    range.base ≠ 0 && (range.base ≤ address && address - range.base < range.len)

/-! ## Sequences of calls -/

inductive Call
  | register (base len : ℕ) (provenance : Provenance)
  | unregister (base len : ℕ)

def Registry.call (pageSize : ℕ) (mapped : Bool) (r : Registry) : Call → Bool × Registry
  | .register base len provenance => registerExternal pageSize mapped r base len provenance
  | .unregister base len => unregisterExternal r base len

end AbcMalloc.External
