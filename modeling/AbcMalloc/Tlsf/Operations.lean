import AbcMalloc.Tlsf.Physical

/-! The invariant of a TLSF pool and what allocation and deallocation do to its blocks.
`Core` is the part that also holds in the middle of an operation, while a block is detached
and one back link is stale; `Inv` is the state between operations. -/
namespace AbcMalloc.Tlsf
open Function Foundation

structure Geometry (s : TlsfList) : Prop where
  base_pos : 0 < s.base
  base_mod : s.base % 32 = 0
  total_pos : 0 < s.total
  total_lt : s.total < 2 ^ 32
  top : s.endSentinel + 32 ≤ 2 ^ 64

/-- Headers and lists represent `A`; handed-out blocks have no back link in a list. -/
structure Core (h : Heap) (A : Blocks) (d : ℕ) : Prop where
  geo : Geometry h.ctl
  phys : Phys h.ctl.base h.ctl.endSentinel h.mem A d
  lists : ∃ fl, FreeLists h.ctl h.mem A fl
  quiet : ∀ {a n f}, A a = some (n, some f) → f ≠ blockFree → h.mem.w3 a = 0

/-- The state of a pool between two operations. -/
structure Inv (h : Heap) (A : Blocks) : Prop extends Core h A 0 where
  coalesced : ∀ {a n n'}, A a = some (n, some blockFree) → A (a + n) ≠ some (n', some blockFree)
  closed : ∀ {a n}, A a ≠ some (n, none)

def Header (s : TlsfList) (A : Blocks) (x : ℕ) : Prop := A x ≠ none ∨ x = s.endSentinel

theorem header_update {s s' : TlsfList} {A : Blocks} {b x : ℕ} {v : Option (ℕ × Option ℕ)}
    (hs : SameBook s s') (hA : A b ≠ none) (hx : Header s' (update A b v) x) : Header s A x := by
  obtain ⟨_, _, _, rfl⟩ := hs
  rcases hx with hx | hx
  · by_cases hxb : x = b
    · exact Or.inl (hxb ▸ hA)
    · rw [update_of_ne hxb] at hx
      exact Or.inl hx
  · exact Or.inr hx

/-! ## Handed-out blocks -/

def usedEntry : Option (ℕ × Option ℕ) → Option (ℕ × ℕ)
  | some (n, some f) => if f = blockFree then none else some (n, f)
  | _ => none

def used (A : Blocks) (a : ℕ) : Option (ℕ × ℕ) := usedEntry (A a)

theorem used_eq_some {A : Blocks} {a n f : ℕ} :
    used A a = some (n, f) ↔ A a = some (n, some f) ∧ f ≠ blockFree := by
  unfold used usedEntry
  split
  next n' f' h =>
    split_ifs with hf
    · simp only [h]
      grind
    · simp only [h]
      grind
  next h =>
    constructor
    · simp
    · rintro ⟨hA, -⟩
      exact absurd hA (h n f)

theorem used_update (A : Blocks) (b : ℕ) (v : Option (ℕ × Option ℕ)) :
    used (update A b v) = update (used A) b (usedEntry v) := by
  funext x
  by_cases hx : x = b
  · subst hx
    simp [used]
  · simp [used, update_of_ne hx]

@[simp] theorem usedEntry_free (n : ℕ) : usedEntry (some (n, some blockFree)) = none := rfl

@[simp] theorem usedEntry_detached (n : ℕ) : usedEntry (some (n, none)) = none := rfl

@[simp] theorem usedEntry_none : usedEntry none = none := rfl

theorem usedEntry_flags {n f : ℕ} (hf : f ≠ blockFree) :
    usedEntry (some (n, some f)) = some (n, f) := if_neg hf

/-! ## Primitive steps -/

namespace Core
variable {h : Heap} {A : Blocks} {d b n n' q : ℕ}

theorem geometry_of_sameBook {s s' : TlsfList} (hs : SameBook s s') (hg : Geometry s) :
    Geometry s' := by
  obtain ⟨_, _, _, rfl⟩ := hs
  exact ⟨hg.base_pos, hg.base_mod, hg.total_pos, hg.total_lt, hg.top⟩

theorem pos (hC : Core h A d) {k : Option ℕ} (hA : A b = some (n, k)) : b ≠ 0 := by
  have := (hC.phys.base_lt hA).1
  omega

theorem size_lt (hC : Core h A d) {k : Option ℕ} (hA : A b = some (n, k)) : n < 2 ^ 32 := by
  have hb := hC.phys.base_lt hA
  have ht := hC.geo.total_lt
  unfold TlsfList.endSentinel at hb
  omega

theorem congr (hC : Core h A d) {s : TlsfList} (hb : s.base = h.ctl.base)
    (ht : s.total = h.ctl.total) (hh : s.heads = h.ctl.heads)
    (hsl : s.slBitmap = h.ctl.slBitmap) (hfl : s.flBitmap = h.ctl.flBitmap) :
    Core ⟨s, h.mem⟩ A d := by
  have he : s.endSentinel = h.ctl.endSentinel := by
    unfold TlsfList.endSentinel
    rw [hb, ht]
  obtain ⟨fl, hL⟩ := hC.lists
  refine ⟨⟨?_, ?_, ?_, ?_, ?_⟩, ?_, ⟨fl, ?_⟩, hC.quiet⟩
  · rw [hb]; exact hC.geo.base_pos
  · rw [hb]; exact hC.geo.base_mod
  · rw [ht]; exact hC.geo.total_pos
  · rw [ht]; exact hC.geo.total_lt
  · rw [he]; exact hC.geo.top
  · rw [hb, he]; exact hC.phys
  · exact hL.congr hh hsl hfl (fun _ _ => Iff.rfl) (fun _ _ _ => ⟨rfl, rfl, rfl⟩)

theorem remove (hC : Core h A d) (hA : A b = some (n, some blockFree)) :
    Core (flRemove h b) (update A b (some (n, none))) d ∧
      AgreeOff (Header h.ctl A) h.mem (flRemove h b).mem := by
  obtain ⟨fl, hL⟩ := hC.lists
  have hframe := hL.flRemove_frame hA
  have hbook := flRemove_sameBook h b
  refine ⟨⟨geometry_of_sameBook hbook hC.geo, ?_, ⟨_, hL.flRemove hA⟩, fun {a j f} ha hf => ?_⟩,
    fun x hx => ⟨by simp, by simp, by simp, ?_⟩⟩
  · have hp := (hC.phys.detach hA).congr (flRemove_lo h b) (flRemove_hi h b) (flRemove_w1 h b)
    obtain ⟨_, _, _, hs⟩ := hbook
    rw [hs]
    exact hp
  · have hab : a ≠ b := by
      rintro rfl
      simp at ha
    rw [update_of_ne hab] at ha
    rw [(hframe a fun j' hj' => ?_).2]
    · exact hC.quiet ha hf
    · rw [ha] at hj'
      simp only [Option.some.injEq, Prod.mk.injEq] at hj'
      exact hf hj'.2
  · exact hframe x fun j hj => hx (Or.inl (by simp [hj]))

theorem insert (hC : Core h A d) (hA : A b = some (n, none)) :
    Core (flInsert h b) (update A b (some (n, some blockFree))) d ∧
      AgreeOff (Header h.ctl A) h.mem (flInsert h b).mem := by
  obtain ⟨fl, hL⟩ := hC.lists
  have hframe := hL.flInsert_frame (b := b)
  refine ⟨⟨geometry_of_sameBook (flInsert_sameBook h b) hC.geo, ?_,
    ⟨_, hL.flInsert (hC.pos hA) hA (hC.phys.lo hA) (hC.phys.size_ge hA) (hC.size_lt hA)⟩,
    fun {a j f} ha hf => ?_⟩, fun x hx => ⟨by simp, ?_, by simp, ?_⟩⟩
  · exact (hC.phys.setFlags hA blockFree).congr (by simp) (by simp) (by simp)
  · have hab : a ≠ b := by
      rintro rfl
      simp only [update_self, Option.some.injEq, Prod.mk.injEq] at ha
      exact hf ha.2.symm
    rw [update_of_ne hab] at ha
    rw [(hframe a hab fun j' hj' => ?_).2]
    · exact hC.quiet ha hf
    · rw [ha] at hj'
      simp only [Option.some.injEq, Prod.mk.injEq] at hj'
      exact hf hj'.2
  · have hxb : x ≠ b := by
      rintro rfl
      exact hx (Or.inl (by simp [hA]))
    simp [update_of_ne hxb]
  · have hxb : x ≠ b := by
      rintro rfl
      exact hx (Or.inl (by simp [hA]))
    exact hframe x hxb fun j hj => hx (Or.inl (by simp [hj]))

theorem mark (hC : Core h A d) (hA : A b = some (n, none)) (hw : h.mem.w3 b = 0) {f : ℕ}
    (hf : f ≠ blockFree) :
    Core ⟨h.ctl, h.mem.setHi b f⟩ (update A b (some (n, some f))) d := by
  obtain ⟨fl, hL⟩ := hC.lists
  refine ⟨hC.geo, hC.phys.setFlags hA f, ⟨fl, hL.congr rfl rfl rfl (fun x j => ?_)
    (fun x j _ => ⟨rfl, rfl, rfl⟩)⟩, fun {a j f'} ha hf' => ?_⟩
  · by_cases hx : x = b
    · subst hx
      simp [hA, hf]
    · rw [update_of_ne hx]
  · by_cases hab : a = b
    · exact hab ▸ hw
    · rw [update_of_ne hab] at ha
      exact hC.quiet ha hf'

theorem unmark (hC : Core h A d) {f : ℕ} (hA : A b = some (n, some f)) (hf : f ≠ blockFree) :
    Core h (update A b (some (n, none))) d := by
  obtain ⟨fl, hL⟩ := hC.lists
  refine ⟨hC.geo, hC.phys.detach hA, ⟨fl, hL.congr rfl rfl rfl (fun x j => ?_)
    (fun x j _ => ⟨rfl, rfl, rfl⟩)⟩, fun {a j f'} ha hf' => ?_⟩
  · by_cases hx : x = b
    · subst hx
      simp [hA, hf]
    · rw [update_of_ne hx]
  · have hab : a ≠ b := by
      rintro rfl
      simp at ha
    rw [update_of_ne hab] at ha
    exact hC.quiet ha hf'

theorem split (hC : Core h A 0) (hA : A b = some (n, none)) (hq : 64 ≤ q) (hqm : q % 32 = 0)
    (hrem : q + 64 ≤ n) :
    Core ⟨h.ctl,
        (((h.mem.setLo b q).setLo (b + q) (n - q)).setW1 (b + q) b).setW1 (b + n) (b + q)⟩
      (update (update A b (some (q, none))) (b + q) (some (n - q, none))) 0 := by
  obtain ⟨fl, hL⟩ := hC.lists
  have hgap : A (b + q) = none := hC.phys.tiles.gap hA (by omega) (by omega)
  have hne : ∀ {x j f}, A x = some (j, some f) → x ≠ b ∧ x ≠ b + q := by
    intro x j f hx
    constructor
    · rintro rfl
      simp [hA] at hx
    · rintro rfl
      simp [hgap] at hx
  refine ⟨hC.geo, hC.phys.split hA hq hqm hrem, ⟨fl, hL.congr rfl rfl rfl (fun x j => ?_)
    (fun x j hx => ?_)⟩, fun {a j f} ha hf => ?_⟩
  · constructor
    · intro hx
      rcases Tiles.split_entry hx with ⟨-, -, hk⟩ | ⟨-, -, -, hk⟩ | ⟨-, -, hx⟩
      · cases hk
      · cases hk
      · exact hx
    · intro hx
      rw [update_of_ne (hne hx).2, update_of_ne (hne hx).1]
      exact hx
  · simp [update_of_ne (hne hx).1, update_of_ne (hne hx).2]
  · rcases Tiles.split_entry ha with ⟨-, -, hk⟩ | ⟨-, -, -, hk⟩ | ⟨-, -, ha⟩
    · cases hk
    · cases hk
    · exact hC.quiet ha hf

theorem merge (hC : Core h A d) (hA : A b = some (n, none)) (hB : A (b + n) = some (n', none))
    (hd : d = 0 ∨ d = b + n + n') :
    Core ⟨h.ctl, h.mem.setLo b (n + n')⟩ (update (update A (b + n) none) b (some (n + n', none)))
      (b + n + n') := by
  obtain ⟨fl, hL⟩ := hC.lists
  have hne : ∀ {x j f}, A x = some (j, some f) → x ≠ b ∧ x ≠ b + n := by
    intro x j f hx
    constructor <;> rintro rfl <;> simp_all
  refine ⟨hC.geo, hC.phys.merge hA hB hd, ⟨fl, hL.congr rfl rfl rfl (fun x j => ?_)
    (fun x j hx => ?_)⟩, fun {a j f} ha hf => ?_⟩
  · constructor
    · intro hx
      rcases Tiles.merge_entry hx with ⟨-, -, hk⟩ | ⟨-, -, hx⟩
      · cases hk
      · exact hx
    · intro hx
      rw [update_of_ne (hne hx).1, update_of_ne (hne hx).2]
      exact hx
  · simp [update_of_ne (hne hx).1]
  · rcases Tiles.merge_entry ha with ⟨-, -, hk⟩ | ⟨-, -, ha⟩
    · cases hk
    · exact hC.quiet ha hf

/-- A detached block absorbs the free block behind it. -/
theorem absorbNext (hC : Core h A d) (hA : A b = some (n, none))
    (hB : A (b + n) = some (n', some blockFree)) (hd : d = 0 ∨ d = b + n + n') :
    Core ⟨(flRemove h (b + n)).ctl, (flRemove h (b + n)).mem.setLo b (n + n')⟩
      (update (update A (b + n) none) b (some (n + n', none))) (b + n + n') := by
  have hn := hC.phys.size_ge hA
  have hR := (hC.remove hB).1
  have hM := hR.merge (show _ = some (n, none) by rw [update_of_ne (by omega), hA])
    (update_self ..) hd
  rwa [update_idem] at hM

theorem absorbPrev (hC : Core h A d) (hA : A b = some (n, some blockFree))
    (hB : A (b + n) = some (n', none)) (hd : d = 0 ∨ d = b + n + n') :
    Core ⟨(flRemove h b).ctl, (flRemove h b).mem.setLo b (n + n')⟩
      (update (update A (b + n) none) b (some (n + n', none))) (b + n + n') := by
  have hn := hC.phys.size_ge hA
  have hR := (hC.remove hA).1
  have hM := hR.merge (update_self ..)
    (show _ = some (n', none) by rw [update_of_ne (by omega), hB]) hd
  rwa [update_comm (by omega), update_idem, update_comm (by omega)] at hM

/-- Repairing the stale back link. -/
theorem repair (hC : Core h A d) (hA : A b = some (n, none)) (hd : b + n = d) :
    Core ⟨h.ctl, h.mem.setW1 d b⟩ A 0 := by
  obtain ⟨fl, hL⟩ := hC.lists
  exact ⟨hC.geo, hC.phys.repair hA hd, ⟨fl, hL.congr rfl rfl rfl (fun _ _ => Iff.rfl)
    (fun _ _ _ => ⟨rfl, rfl, rfl⟩)⟩, hC.quiet⟩

end Core

/-! ## Taking a block -/

/-- Size that `try_split` leaves to a block of `n` bytes when `q` are needed. -/
def cutSize (n q : ℕ) : ℕ := if n < q + 64 then n else q

def carve (A : Blocks) (b n q : ℕ) (k : Option ℕ) : Blocks :=
  if n < q + 64 then update A b (some (n, k))
  else update (update A b (some (q, k))) (b + q) (some (n - q, some blockFree))

theorem cutSize_cases {n q : ℕ} (hqn : q ≤ n) (hn : n % 32 = 0) (hq : q % 32 = 0) :
    cutSize n q = q ∨ cutSize n q = q + 32 := by
  unfold cutSize
  split_ifs <;> omega

theorem cutSize_le {n q : ℕ} (hqn : q ≤ n) : q ≤ cutSize n q ∧ cutSize n q ≤ n := by
  unfold cutSize
  split_ifs <;> omega

theorem carve_entry {A : Blocks} {b n q x j : ℕ} {k l : Option ℕ}
    (hx : carve A b n q k x = some (j, l)) :
    (x = b ∧ l = k) ∨ (q + 64 ≤ n ∧ x = b + q ∧ j = n - q ∧ l = some blockFree) ∨
      (x ≠ b ∧ A x = some (j, l)) := by
  unfold carve at hx
  split_ifs at hx <;> grind [update_apply]

theorem carve_update {A : Blocks} {b n q : ℕ} {k k' : Option ℕ} (hq : q ≠ 0) :
    update (carve A b n q k) b (some (cutSize n q, k')) = carve A b n q k' := by
  unfold carve cutSize
  split_ifs
  · rw [update_idem]
  · rw [update_comm (by omega), update_idem]

theorem carve_self {A : Blocks} {b n q : ℕ} {k : Option ℕ} : 
    carve (update A b (some (n, none))) b n q k = carve A b n q k := by
  unfold carve
  split_ifs <;> simp only [update_idem]

/-- `try_split` of a detached block that is large enough. -/
theorem Core.trySplit {h : Heap} {A : Blocks} {b n q : ℕ} (hC : Core h A 0)
    (hA : A b = some (n, none)) (hq : 64 ≤ q) (hqm : q % 32 = 0) (hqn : q ≤ n) :
    ∃ h', trySplit h b q = some h' ∧ Core h' (carve A b n q none) 0 ∧ SameBook h.ctl h'.ctl ∧
      AgreeOff (fun x => Header h.ctl A x ∨ (q < n ∧ x = b + q)) h.mem h'.mem ∧
      h'.mem.w3 b = h.mem.w3 b ∧ ∀ x, h.mem.hi x = blockFree → h'.mem.hi x = blockFree := by
  obtain ⟨hb, hb'⟩ := hC.phys.base_lt hA
  have hlt := hC.size_lt hA
  have htop := hC.geo.top
  have hlo := hC.phys.lo hA
  have hremain : (n + (2 ^ 64 - q)) % 2 ^ 64 = n - q := by omega
  simp only [Tlsf.trySplit, hlo, hremain]
  by_cases hcut : n < q + 64
  · rw [if_pos (by omega)]
    refine ⟨h, rfl, ?_, SameBook.refl _, AgreeOff.refl _ _, rfl, fun _ hx => hx⟩
    simp only [carve, if_pos hcut]
    rwa [update_eq_self_iff.2 hA.symm]
  · have hrem : (b + q) % 2 ^ 64 = b + q := by omega
    rw [if_neg (by omega), hrem, if_neg (by omega), Nat.mod_eq_of_lt (show q < 2 ^ 32 by omega),
      Nat.mod_eq_of_lt (show n - q < 2 ^ 32 by omega)]
    have hafter : nextPhys (((h.mem.setLo b q).setLo (b + q) (n - q)).setW1 (b + q) b) (b + q) =
        b + n := by
      simp only [nextPhys, Mem.setW1_lo, Mem.setLo_lo, update_self]
      omega
    rw [hafter]
    have hS := hC.split hA hq hqm (by omega)
    have hwrites : AgreeOff (fun x => Header h.ctl A x ∨ (q < n ∧ x = b + q)) h.mem
        ((((h.mem.setLo b q).setLo (b + q) (n - q)).setW1 (b + q) b).setW1 (b + n) (b + q)) := by
      intro x hx
      have hxb : x ≠ b := by
        rintro rfl
        exact hx (Or.inl (Or.inl (by simp [hA])))
      have hxq : x ≠ b + q := fun he => hx (Or.inr ⟨by omega, he⟩)
      have hxn : x ≠ b + n := by
        rintro rfl
        rcases hC.phys.tiles.next hA with he | ⟨j, l, hj⟩
        · exact hx (Or.inl (Or.inr he))
        · exact hx (Or.inl (Or.inl (by simp [hj])))
      simp [update_of_ne hxb, update_of_ne hxq, update_of_ne hxn]
    have hhi : ((((h.mem.setLo b q).setLo (b + q) (n - q)).setW1 (b + q) b).setW1 (b + n)
        (b + q)).hi = h.mem.hi := rfl
    have hw3 : ((((h.mem.setLo b q).setLo (b + q) (n - q)).setW1 (b + q) b).setW1 (b + n)
        (b + q)).w3 = h.mem.w3 := rfl
    generalize (((h.mem.setLo b q).setLo (b + q) (n - q)).setW1 (b + q) b).setW1 (b + n)
      (b + q) = m₁
      at hS hwrites hhi hw3 ⊢
    obtain ⟨hI, hagree⟩ := hS.insert (b := b + q) (n := n - q) (update_self ..)
    refine ⟨flInsert ⟨h.ctl, m₁⟩ (b + q), rfl, ?_, flInsert_sameBook ⟨h.ctl, m₁⟩ (b + q),
      hwrites.trans (hagree.mono fun x hx => ?_), ?_, fun x hx => ?_⟩
    · simpa only [carve, if_neg hcut, update_idem] using hI
    · rcases hx with hx | hx
      · by_cases hxq : x = b + q
        · exact Or.inr ⟨by omega, hxq⟩
        · refine Or.inl (Or.inl fun hnone => hx ?_)
          have hxb : x ≠ b := by
            rintro rfl
            simp [hA] at hnone
          rw [update_of_ne hxq, update_of_ne hxb]
          exact hnone
      · exact Or.inl (Or.inr hx)
    · obtain ⟨fl, hL⟩ := hS.lists
      rw [(hL.flInsert_frame b (by omega) fun j hj => ?_).2, hw3]
      rw [update_of_ne (by omega), update_self] at hj
      cases hj
    · simp only [flInsert_hi, update_apply]
      split_ifs
      · rfl
      · rw [hhi]
        exact hx

def Payload (A : Blocks) (x : ℕ) : Prop := ∃ a n f, used A a = some (n, f) ∧ a < x ∧ x < a + n

structure Takes (h h' : Heap) (A A' : Blocks) (b sz f : ℕ) : Prop where
  inv : Inv h' A'
  free : ∃ n, A b = some (n, some blockFree) ∧ sz ≤ n
  used : used A' = update (used A) b (some (sz, f))
  payload : AgreeOff (fun x => ¬ Payload A x) h.mem h'.mem
  flags : ∀ x, x ≠ b → h.mem.hi x = blockFree → h'.mem.hi x = blockFree

theorem Inv.congr {h : Heap} {A : Blocks} (hI : Inv h A) {s : TlsfList} (hb : s.base = h.ctl.base)
    (ht : s.total = h.ctl.total) (hh : s.heads = h.ctl.heads)
    (hsl : s.slBitmap = h.ctl.slBitmap) (hfl : s.flBitmap = h.ctl.flBitmap) :
    Inv ⟨s, h.mem⟩ A :=
  { hI.toCore.congr hb ht hh hsl hfl with coalesced := hI.coalesced, closed := hI.closed }

theorem Core.header_not_payload {h : Heap} {A : Blocks} {d x : ℕ} (hC : Core h A d)
    (hx : Header h.ctl A x) : ¬ Payload A x := by
  rintro ⟨a, j, f, ha, h₁, h₂⟩
  obtain ⟨ha, -⟩ := used_eq_some.1 ha
  rcases hx with hx | hx
  · exact hx (hC.phys.tiles.gap ha h₁ h₂)
  · have := (hC.phys.base_lt ha).2
    omega

theorem Core.not_payload {h : Heap} {A : Blocks} {d b n x : ℕ} (hC : Core h A d)
    (hA : A b = some (n, some blockFree)) (hx : Header h.ctl A x ∨ (b < x ∧ x < b + n)) :
    ¬ Payload A x := by
  rcases hx with hx | ⟨h₃, h₄⟩
  · exact hC.header_not_payload hx
  · rintro ⟨a, j, f, ha, h₁, h₂⟩
    obtain ⟨ha, hf⟩ := used_eq_some.1 ha
    have hab : a ≠ b := by
      rintro rfl
      simp only [hA, Option.some.injEq, Prod.mk.injEq] at ha
      exact hf ha.2.symm
    have := hC.phys.tiles.disjoint ha hA hab
    omega

/-- The blocks after a cut are coalesced again: the block behind the remainder is not free,
since it follows a free block. -/
theorem Inv.carve_coalesced {h : Heap} {A : Blocks} {b n q f : ℕ} (hI : Inv h A)
    (hA : A b = some (n, some blockFree)) (hq : 0 < q) (hf : f ≠ blockFree) {a j j' : ℕ}
    (ha : carve A b n q (some f) a = some (j, some blockFree)) :
    carve A b n q (some f) (a + j) ≠ some (j', some blockFree) := by
  intro ha'
  have hlab : ∀ {x i l}, carve A b n q (some f) x = some (i, some l) → l = blockFree → x ≠ b := by
    rintro x i l hx rfl rfl
    unfold carve at hx
    split_ifs at hx
    · simp only [update_self, Option.some.injEq, Prod.mk.injEq] at hx
      exact hf hx.2
    · rw [update_of_ne (by omega)] at hx
      simp only [update_self, Option.some.injEq, Prod.mk.injEq] at hx
      exact hf hx.2
  have hab := hlab ha rfl
  have hab' := hlab ha' rfl
  rcases carve_entry ha with ⟨hb, -⟩ | ⟨hcut, rfl, rfl, -⟩ | ⟨-, ha⟩
  · exact hab hb
  · rcases carve_entry ha' with ⟨hb, -⟩ | ⟨-, he, -, -⟩ | ⟨-, ha'⟩
    · exact hab' hb
    · omega
    · rw [show b + q + (n - q) = b + n by omega] at ha'
      exact hI.coalesced hA ha'
  · rcases carve_entry ha' with ⟨hb, -⟩ | ⟨hcut, he, -, -⟩ | ⟨-, ha'⟩
    · exact hab' hb
    · have := hI.phys.tiles.disjoint hA ha (Ne.symm hab)
      omega
    · exact hI.coalesced ha ha'

theorem used_carve {h : Heap} {A : Blocks} {b n q f : ℕ} (hI : Inv h A)
    (hA : A b = some (n, some blockFree)) (hq : 0 < q) (hf : f ≠ blockFree) :
    used (carve A b n q (some f)) = update (used A) b (some (cutSize n q, f)) := by
  unfold carve cutSize
  split_ifs with hcut
  · rw [used_update, usedEntry_flags hf]
  · have hgap : A (b + q) = none := hI.phys.tiles.gap hA (by omega) (by omega)
    rw [used_update, used_update, usedEntry_flags hf, usedEntry_free, update_eq_self_iff]
    rw [update_of_ne (by omega)]
    simp [used, hgap]

/-- The common part of all allocation paths: find a block, cut it and mark it. -/
theorem Inv.take {h : Heap} {A : Blocks} {q : ℕ} (hI : Inv h A) (hq : 64 ≤ q) (hqm : q % 32 = 0)
    (hlim : q ≤ 2 ^ 64 - 2 ^ 59) :
    findFree h q = some (0, h) ∨
      ∃ b h₁ h₂ sz, b ≠ 0 ∧ findFree h q = some (b, h₁) ∧ trySplit h₁ b q = some h₂ ∧
        h₂.mem.lo b = sz ∧ (sz = q ∨ sz = q + 32) ∧ SameBook h.ctl h₂.ctl ∧
        ∀ f, f ≠ blockFree → ∃ A', Takes h ⟨h₂.ctl, h₂.mem.setHi b f⟩ A A' b sz f := by
  obtain ⟨fl, hL⟩ := hI.lists
  rcases hL.findFree hq hlim with hnone | ⟨b, n, hA, hqn, hw3, hfind⟩
  · exact Or.inl hnone
  · right
    obtain ⟨hR, hagree⟩ := hI.toCore.remove hA
    have hw3' : (flRemove h b).mem.w3 b = 0 := (hL.flRemove_w3_self hA).trans hw3
    obtain ⟨h₂, hsplit, hC₂, hbook, hagree₂, hw3₂, hflags⟩ :=
      hR.trySplit (n := n) (update_self ..) hq hqm hqn
    rw [carve_self] at hC₂
    have hB : carve A b n q none b = some (cutSize n q, none) := by
      rw [← carve_update (k := none) (by omega : q ≠ 0), update_self]
    have hbook' := (flRemove_sameBook h b).trans hbook
    refine ⟨b, flRemove h b, h₂, cutSize n q, hI.pos hA, hfind, hsplit, hC₂.phys.lo hB,
      cutSize_cases hqn (hI.phys.size_mod hA) hqm, hbook', fun f hf => ?_⟩
    have hM := hC₂.mark hB (hw3₂.trans hw3') hf
    rw [carve_update (by omega)] at hM
    refine ⟨carve A b n q (some f), ⟨hM, hI.carve_coalesced hA (by omega) hf, fun {a j} ha => ?_⟩,
      ⟨n, hA, (cutSize_le hqn).2⟩, used_carve hI hA (by omega) hf, ?_, fun x hx hfree => ?_⟩
    · rcases carve_entry ha with ⟨-, hk⟩ | ⟨-, -, -, hk⟩ | ⟨-, ha⟩
      · cases hk
      · cases hk
      · exact hI.closed ha
    · have hhead : ∀ x, Header (flRemove h b).ctl (update A b (some (n, none))) x →
          Header h.ctl A x := fun x hx => header_update (flRemove_sameBook h b) (by simp [hA]) hx
      refine ((hagree.mono fun x hx => hI.not_payload hA (Or.inl hx)).trans
        (hagree₂.mono fun x hx => hI.not_payload hA ?_)).trans fun x hx => ?_
      · rcases hx with hx | ⟨hlt, rfl⟩
        · exact Or.inl (hhead x hx)
        · exact Or.inr ⟨by omega, by omega⟩
      · have hxb : x ≠ b := fun he =>
          hx (he ▸ hI.not_payload hA (Or.inl (Or.inl (by simp [hA]))))
        simp [update_of_ne hxb]
    · rw [Mem.setHi_hi, update_of_ne hx]
      exact hflags x (by rw [flRemove_hi]; exact hfree)

end AbcMalloc.Tlsf
