import AbcMalloc.Arena.Clients
import AbcMalloc.Arena.Entries

/-! Which sheets a call reaches. A request reads the bitmap of its tier and leaves alone every
sheet without a bit there; a free touches the sheet of its pointer and releases drained ones. -/
namespace AbcMalloc.Arena
open Function Foundation

section Bitmap
variable {σ : Type*} {T : Params σ} {t t' : Tier σ} {e e' : Entry σ} {i pos sz : ℕ} {c : Chunk}
  {temporal : Bool}

/-- The bits in front of an inserted one stay. -/
theorem maskInsert_of_lt {mask : ℕ → BitVec 64} (hi : i < pos) :
    (Tier.maskInsert T mask pos (i / 64)).getLsbD (i % 64) = (mask (i / 64)).getLsbD (i % 64) := by
  have hmod : i % 64 < 64 := Nat.mod_lt _ (by decide)
  unfold Tier.maskInsert
  simp only
  by_cases hw : i / 64 = pos / 64
  · have hlt : i % 64 < pos % 64 := by omega
    rw [if_pos hw]
    simp only [BitVec.getLsbD_or, BitVec.getLsbD_and,
      getLsbD_below hmod (Nat.mod_lt pos (by decide : 0 < 64)),
      hlt, decide_true, Bool.and_true]
    split_ifs with hbit
    · simp [hmod, hlt]
    · rw [BitVec.getLsbD_not, getLsbD_below hmod (by omega)]
      have : i % 64 < pos % 64 + 1 := by omega
      simp [hmod, hlt, this]
  · rw [if_neg hw, if_neg (by omega)]

theorem maskInsert_of_le {mask : ℕ → BitVec 64} (hi : pos ≤ i)
    (hd : (i + 1) / 64 < Tier.detailWords T) :
    (Tier.maskInsert T mask pos ((i + 1) / 64)).getLsbD ((i + 1) % 64) =
      (mask (i / 64)).getLsbD (i % 64) := by
  have hmod : (i + 1) % 64 < 64 := Nat.mod_lt _ (by decide)
  unfold Tier.maskInsert
  simp only
  by_cases hw : (i + 1) / 64 = pos / 64
  · have hsucc : (i + 1) % 64 = i % 64 + 1 := by omega
    have hword : (i + 1) / 64 = i / 64 := by omega
    have hne : pos % 64 ≠ 63 := by omega
    have hlt : ¬(i + 1) % 64 < pos % 64 := by omega
    have hlt' : ¬(i + 1) % 64 < pos % 64 + 1 := by omega
    have hsub : ¬(i + 1) % 64 - pos % 64 = 0 := by omega
    rw [if_pos hw, if_neg hne]
    simp only [BitVec.getLsbD_or, BitVec.getLsbD_and, BitVec.getLsbD_not, BitVec.getLsbD_shiftLeft,
      getLsbD_below hmod (Nat.mod_lt pos (by decide : 0 < 64)),
      getLsbD_below hmod (show pos % 64 + 1 < 64 by omega), hlt, hlt', hmod, hword]
    rw [hsucc] at hsub ⊢
    simp [hsub]
  · rw [if_neg hw, if_pos ⟨by omega, hd⟩]
    simp only [BitVec.getLsbD_or, BitVec.getLsbD_shiftLeft, BitVec.getLsbD_ushiftRight]
    by_cases hz : (i + 1) % 64 = 0
    · have hlast : i % 64 = 63 := by omega
      have hword : (i + 1) / 64 - 1 = i / 64 := by omega
      rw [hz, hlast, hword]
      simp
    · have hsucc : (i + 1) % 64 = i % 64 + 1 := by omega
      have hword : (i + 1) / 64 = i / 64 := by omega
      have hover : (mask ((i + 1) / 64 - 1)).getLsbD (63 + (i + 1) % 64) = false :=
        BitVec.getLsbD_of_ge _ _ (by omega)
      have hmod' : i % 64 + 1 < 64 := by omega
      rw [hover, hword, hsucc]
      simp [hmod']

end Bitmap

/-! ## Requests -/

section Requests
variable {σ : Type*} {T : Params σ} {t t' : Tier σ} {e e' : Entry σ} {i pos sz : ℕ} {c : Chunk}
  {temporal : Bool}

def Entry.Dry (T : Params σ) (temporal : Bool) (sz : ℕ) (e : Entry σ) : Prop :=
  e.sheet.mark T temporal sz = .ok (.null, e.sheet)

/-- The entry `e` is at position `i`. Its sheet is not in the bitmap or has no block for the
request. -/
structure Tier.Rests (T : Params σ) (temporal : Bool) (sz : ℕ) (e : Entry σ) (i : ℕ) (t : Tier σ) :
    Prop where
  entry : t.idx[i]? = some e
  idle : t.maskGet i = false ∨ e.Dry T temporal sz

namespace Tier

theorem getElem?_setSheet_of_ne (h : pos ≠ i) (s : Sheet σ) :
    (t.setSheet pos s).idx[i]? = t.idx[i]? := by
  unfold setSheet
  rw [List.getElem?_modify]
  simp [h]

theorem Rests.markExhausted (h : t.Rests T temporal sz e i) (pos : ℕ) :
    (t.markExhausted pos).Rests T temporal sz e i where
  entry := h.entry
  idle := by
    refine h.idle.imp_left fun hclear => ?_
    unfold maskGet at hclear ⊢
    unfold Tier.markExhausted
    by_cases hw : i / 64 = pos / 64
    · simp only [hw, update_self, BitVec.getLsbD_and]
      rw [← hw, hclear, Bool.false_and]
    · simp only [update_of_ne hw]
      exact hclear

theorem insertAt_rests (h : t.Rests T temporal sz e i) (hi : t.idx[pos]? = some e')
    (hpos : pos = i → e.Dry T temporal sz)
    (hrun : insertAt T temporal sz t pos e' = .ok (c, t')) :
    t'.Rests T temporal sz e i ∧ (c.ptr ≠ 0 → t'.lastHit ≠ i) := by
  unfold insertAt at hrun
  by_cases hpi : pos = i
  · have hdry := hpos hpi
    rw [hpi, h.entry] at hi
    obtain rfl := Option.some.inj hi
    rw [show e.sheet.mark T temporal sz = .ok (.null, e.sheet) from hdry] at hrun
    simp only [bind, Except.bind, Chunk.null, ne_eq, not_true_eq_false, if_false,
      Except.ok.injEq, Prod.mk.injEq] at hrun
    obtain ⟨rfl, rfl⟩ := hrun
    have hset : (t.setSheet pos e.sheet).Rests T temporal sz e i := by
      constructor
      · unfold setSheet
        rw [hpi, List.getElem?_modify, h.entry]
        simp
      · exact Or.inr hdry
    exact ⟨hset.markExhausted pos, fun hne => absurd rfl hne⟩
  · cases hmark : e'.sheet.mark T temporal sz with
    | error x =>
      rw [hmark] at hrun
      exact absurd hrun (by simp [bind, Except.bind])
    | ok r =>
      simp only [hmark, bind, Except.bind, Except.ok.injEq, Prod.mk.injEq] at hrun
      obtain ⟨rfl, rfl⟩ := hrun
      have hset : (t.setSheet pos r.2).Rests T temporal sz e i := by
        constructor
        · rw [getElem?_setSheet_of_ne hpi]
          exact h.entry
        · exact h.idle
      split_ifs with hc
      · exact ⟨⟨hset.entry, hset.idle⟩, fun _ => hpi⟩
      · exact ⟨hset.markExhausted pos, fun hne => absurd hne hc⟩

theorem scanWord_rests (w : ℕ) : ∀ (bits : List ℕ) {t : Tier σ}, t.Rests T temporal sz e i →
    (∀ bit ∈ bits, 64 * w + bit = i → e.Dry T temporal sz) →
    scanWord T temporal sz w bits t = .ok (c, t') →
    t'.Rests T temporal sz e i ∧ (c.ptr ≠ 0 → t'.lastHit ≠ i) := by
  intro bits
  induction bits with
  | nil =>
    intro t h _ hrun
    simp only [scanWord, Except.ok.injEq, Prod.mk.injEq] at hrun
    obtain ⟨rfl, rfl⟩ := hrun
    exact ⟨h, fun hne => absurd rfl hne⟩
  | cons bit bits ih =>
    intro t h hbits hrun
    unfold scanWord at hrun
    split at hrun
    · simp only [Except.ok.injEq, Prod.mk.injEq] at hrun
      obtain ⟨rfl, rfl⟩ := hrun
      exact ⟨h, fun hne => absurd rfl hne⟩
    · next x hx =>
      cases hat : insertAt T temporal sz t (64 * w + bit) x with
      | error y =>
        rw [hat] at hrun
        exact absurd hrun (by simp [bind, Except.bind])
      | ok r =>
        have hstep := insertAt_rests h hx (hbits bit List.mem_cons_self) hat
        simp only [hat, bind, Except.bind] at hrun
        split_ifs at hrun with hc
        · simp only [Except.ok.injEq, Prod.mk.injEq] at hrun
          obtain ⟨rfl, rfl⟩ := hrun
          exact hstep
        · exact ih hstep.1 (fun b hb => hbits b (List.mem_cons_of_mem _ hb)) hrun

theorem scanWords_rests : ∀ (ws : List ℕ) {t : Tier σ}, t.Rests T temporal sz e i →
    scanWords T temporal sz ws t = .ok (c, t') →
    t'.Rests T temporal sz e i ∧ (c.ptr ≠ 0 → t'.lastHit ≠ i) := by
  intro ws
  induction ws with
  | nil =>
    intro t h hrun
    simp only [scanWords, Except.ok.injEq, Prod.mk.injEq] at hrun
    obtain ⟨rfl, rfl⟩ := hrun
    exact ⟨h, fun hne => absurd rfl hne⟩
  | cons w ws ih =>
    intro t h hrun
    unfold scanWords at hrun
    simp only at hrun
    cases hscan : scanWord T temporal sz w
        ((List.range 64).filter fun j => (t.spaceMask w).getLsbD j) t with
    | error y =>
      rw [hscan] at hrun
      exact absurd hrun (by simp [bind, Except.bind])
    | ok r =>
      -- only bits that are set are tried
      have hbits : ∀ bit ∈ (List.range 64).filter fun j => (t.spaceMask w).getLsbD j,
          64 * w + bit = i → e.Dry T temporal sz := by
        intro bit hbit heq
        obtain ⟨hlt, hset⟩ := List.mem_filter.1 hbit
        have hlt := List.mem_range.1 hlt
        refine h.idle.resolve_left fun hclear => ?_
        unfold maskGet at hclear
        rw [show i / 64 = w by omega, show i % 64 = bit by omega, hset] at hclear
        exact absurd hclear (by decide)
      have hstep := scanWord_rests w _ h hbits hscan
      simp only [hscan, bind, Except.bind] at hrun
      split_ifs at hrun with hc
      · simp only [Except.ok.injEq, Prod.mk.injEq] at hrun
        obtain ⟨rfl, rfl⟩ := hrun
        exact hstep
      · exact ih hstep.1 hrun

theorem insertLastHit_rests (h : t.Rests T temporal sz e i)
    (hrun : insertLastHit T temporal t sz = .ok (c, t')) :
    t'.Rests T temporal sz e i ∧ (c.ptr ≠ 0 → t'.lastHit ≠ i) := by
  unfold insertLastHit at hrun
  split at hrun
  · next x hx =>
    split_ifs at hrun with hm
    · refine insertAt_rests h hx (fun heq => h.idle.resolve_left fun hclear => ?_) hrun
      rw [heq, hclear] at hm
      exact absurd hm (by decide)
    · simp only [Except.ok.injEq, Prod.mk.injEq] at hrun
      obtain ⟨rfl, rfl⟩ := hrun
      exact ⟨h, fun hne => absurd rfl hne⟩
  · simp only [Except.ok.injEq, Prod.mk.injEq] at hrun
    obtain ⟨rfl, rfl⟩ := hrun
    exact ⟨h, fun hne => absurd rfl hne⟩

/-- A request of the tier takes nothing from a sheet without a bit or without a block for it. -/
theorem bucketInsert_rests (h : t.Rests T temporal sz e i)
    (hrun : bucketInsert T temporal t sz = .ok (c, t')) :
    t'.Rests T temporal sz e i ∧ (c.ptr ≠ 0 → t'.lastHit ≠ i) := by
  unfold bucketInsert at hrun
  cases hlast : insertLastHit T temporal t sz with
  | error y =>
    rw [hlast] at hrun
    exact absurd hrun (by simp [bind, Except.bind])
  | ok r =>
    have hstep := insertLastHit_rests h hlast
    simp only [hlast, bind, Except.bind] at hrun
    split_ifs at hrun with hc
    · simp only [Except.ok.injEq, Prod.mk.injEq] at hrun
      obtain ⟨rfl, rfl⟩ := hrun
      exact hstep
    · exact scanWords_rests _ hstep.1 hrun

theorem registerSheet_rests (h : t.Rests T temporal sz e i)
    (hrun : t.registerSheet T e' = some t') : ∃ j, t'.Rests T temporal sz e j := by
  unfold registerSheet at hrun
  by_cases hfull : T.maxSheets ≤ t.idx.length
  · rw [if_pos hfull] at hrun
    exact absurd hrun (by simp)
  rw [if_neg hfull] at hrun
  have hrun := Option.some.inj hrun
  have hlt : i < t.idx.length := (List.getElem?_eq_some_iff.1 h.entry).1
  set pos := (t.idx.takeWhile fun x => x.lo < e'.lo).length with hpos
  by_cases hi : i < pos
  · refine ⟨i, ?_, ?_⟩
    · rw [← hrun]
      show (t.idx.insertIdx pos e')[i]? = some e
      rw [List.getElem?_insertIdx_of_lt hi]
      exact h.entry
    · rw [← hrun]
      exact h.idle.imp_left (maskInsert_of_lt hi).trans
  · have hle : pos ≤ i := Nat.le_of_not_lt hi
    refine ⟨i + 1, ?_, ?_⟩
    · rw [← hrun]
      show (t.idx.insertIdx pos e')[i + 1]? = some e
      rw [List.getElem?_insertIdx_of_gt (by omega), Nat.add_sub_cancel]
      exact h.entry
    · rw [← hrun]
      refine h.idle.imp_left (maskInsert_of_le hle ?_).trans
      unfold detailWords
      omega

end Tier
end Requests

/-! ## Frees -/

section Frees
variable {σ : Type*} {T : Params σ} {t t' : Tier σ} {e : Entry σ} {pos p : ℕ} {ok : Bool}

/-- The accounting of tombstones does not give the sheet back. -/
def Entry.Kept (T : Params σ) (e : Entry σ) : Prop :=
  e.head = true ∨ e.sheet.reclaimable T = false

instance (e : Entry σ) : Decidable (e.Kept T) := inferInstanceAs (Decidable (_ ∨ _))

def Tier.Other (t : Tier σ) (pos : ℕ) (e : Entry σ) : Prop :=
  ∀ x, t.idx[pos]? = some x → x.lo ≠ e.lo

namespace Tier

theorem Other.ne (h : t.Other pos e) : t.idx[pos]? ≠ some e := fun he => h e he rfl

theorem Other.setSheet (h : t.Other pos e) (s : Sheet σ) : (t.setSheet pos s).Other pos e := by
  intro x hx
  unfold Tier.setSheet at hx
  rw [List.getElem?_modify] at hx
  obtain ⟨y, hy, hxy⟩ := Option.map_eq_some_iff.1 hx
  rw [if_pos rfl] at hxy
  rw [← hxy]
  exact h y hy

theorem mem_setSheet (h : e ∈ t.idx) (hpos : t.Other pos e) (s : Sheet σ) :
    e ∈ (t.setSheet pos s).idx := by
  obtain ⟨i, hi⟩ := List.mem_iff_getElem?.1 h
  have hne : pos ≠ i := by
    rintro rfl
    exact hpos.ne hi
  apply List.mem_iff_getElem?.2
  exact ⟨i, by rw [getElem?_setSheet_of_ne hne]; exact hi⟩

theorem mem_unregister (h : e ∈ t.idx) (hpos : t.idx[pos]? ≠ some e) :
    e ∈ (t.unregister T pos).idx := by
  obtain ⟨i, hi⟩ := List.mem_iff_getElem?.1 h
  apply List.mem_eraseIdx_iff_getElem?.2
  refine ⟨i, ?_, hi⟩
  rintro rfl
  exact hpos hi

theorem ne_of_sweeps (hk : e.Kept T) (hs : t.sweeps T pos = true) : t.idx[pos]? ≠ some e := by
  intro he
  unfold sweeps at hs
  rw [he] at hs
  simp only [Option.any_some, Bool.and_eq_true, Bool.not_eq_true'] at hs
  rcases hk with hk | hk
  · rw [hk] at hs
    exact absurd hs.1 (by decide)
  · rw [hk] at hs
    exact absurd hs.2 (by decide)

theorem mem_sweepBelow (hk : e.Kept T) : ∀ (n : ℕ) {t : Tier σ}, e ∈ t.idx →
    e ∈ (sweepBelow T n t).idx := by
  intro n
  induction n with
  | zero =>
    intro t h
    exact h
  | succ n ih =>
    intro t h
    simp only [sweepBelow]
    split_ifs with hs
    · exact ih (mem_unregister h (ne_of_sweeps hk hs))
    · exact ih h

theorem mem_tombstoneAccounting (hk : e.Kept T) (h : e ∈ t.idx) (pos : ℕ) :
    e ∈ (t.tombstoneAccounting T pos).idx := by
  simp only [tombstoneAccounting]
  split_ifs with hs
  · exact mem_unregister h (ne_of_sweeps hk hs)
  · exact mem_sweepBelow hk _ h
  · exact h

theorem mem_tryReclaimEmpty (h : e ∈ t.idx) (hpos : t.Other pos e) :
    e ∈ (t.tryReclaimEmpty T pos).idx := by
  unfold tryReclaimEmpty
  split_ifs
  · exact mem_unregister h hpos.ne
  · exact h

theorem mem_removeImpl {cfg : Config} {force sized : Bool} (hk : e.Kept T) (h : e ∈ t.idx)
    (hpos : t.Other pos e) (hrun : t.removeImpl T cfg force sized pos p = .ok (ok, t')) :
    e ∈ t'.idx := by
  obtain ⟨x, r, -, -, ht'⟩ := removeImpl_outcome hrun
  have hset := mem_setSheet h hpos r.2
  rcases ht' with rfl | rfl | rfl
  · exact mem_tombstoneAccounting hk (t := (t.setSheet pos r.2).markAvailable pos) hset pos
  · exact mem_tryReclaimEmpty (t := (t.setSheet pos r.2).markAvailable pos) hset
      (hpos.setSheet r.2)
  · exact hset

theorem mem_removeAt {cfg : Config} (hk : e.Kept T) (h : e ∈ t.idx) (hpos : t.Other pos e)
    (hrun : t.removeAt T cfg pos p = .ok (ok, t')) : e ∈ t'.idx := by
  rcases removeAt_outcome hrun with rfl | ⟨x, m, d, -, -, -, rfl⟩ | ⟨-, hrun⟩
  · exact h
  · exact h
  · exact mem_removeImpl hk h hpos hrun

theorem mem_cachePushOrRemove {cfg : Config} {c : Chunk} (hk : e.Kept T) (h : e ∈ t.idx)
    (hpos : t.Other pos e) (hrun : t.cachePushOrRemove T cfg pos c = .ok (ok, t')) :
    e ∈ t'.idx := by
  rcases cachePushOrRemove_outcome hrun with rfl | ⟨x, m, d, -, -, -, rfl⟩ | ⟨-, hrun⟩
  · exact h
  · exact h
  · exact mem_removeImpl hk h hpos hrun

end Tier
end Frees
end AbcMalloc.Arena
