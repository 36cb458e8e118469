import AbcMalloc.Foundation.Fifo
import AbcMalloc.Remote.Ring

/-! `__mpsc_free_queue` with counters of `w` bits that wrap, one call after another. `push` tells
a free cell from a full ring and from a race by the sign of a difference that is computed in
`long long`, whatever the width of the counters. -/
namespace AbcMalloc.Remote
open Function Foundation

/-! ## The queue -/

/-- `__mpsc_free_queue` where `usize` has `w` bits. -/
structure FreeQueue (w : ℕ) where
  seq : ℕ → BitVec w
  payload : ℕ → Payload
  tail : BitVec w
  head : BitVec w

/-- `static_cast<long long>(seq) - static_cast<long long>(n)`. -/
def diff {w : ℕ} (seq n : BitVec w) : BitVec 64 := seq.setWidth 64 - n.setWidth 64

/-- `n & __mask`. -/
def cellOf {w : ℕ} (N : ℕ) (n : BitVec w) : ℕ := (n &&& BitVec.ofNat w (N - 1)).toNat

namespace FreeQueue
variable {w : ℕ}

def init (w : ℕ) : FreeQueue w :=
  { seq := fun i => BitVec.ofNat w i, payload := fun _ => ⟨0, 0⟩, tail := 0, head := 0 }

/-- The loop of `push` with `tail` in hand. `weak i` says that the compare-exchange of round `i`
fails spuriously; no other thread is in the queue. -/
def pushLoop (N : ℕ) (q : FreeQueue w) (b : Payload) (weak : ℕ → Bool) :
    ℕ → ℕ → BitVec w → Option (Bool × FreeQueue w)
  | 0, _, _ => none
  | fuel + 1, i, tail =>
    let d := diff (q.seq (cellOf N tail)) tail
    if d = 0 then
      if q.tail = tail ∧ weak i = false then
        some (true, { q with
          tail := tail + 1
          payload := update q.payload (cellOf N tail) b
          seq := update q.seq (cellOf N tail) (tail + 1) })
      else pushLoop N q b weak fuel (i + 1) q.tail
    else if d.toInt < 0 then some (false, q)
    else pushLoop N q b weak fuel (i + 1) q.tail

/-- `push`, given up with `none` after `fuel` rounds. -/
def push (N : ℕ) (q : FreeQueue w) (b : Payload) (weak : ℕ → Bool) (fuel : ℕ) :
    Option (Bool × FreeQueue w) :=
  pushLoop N q b weak fuel 0 q.tail

def pop (N : ℕ) (q : FreeQueue w) : Option Payload × FreeQueue w :=
  let c := cellOf N q.head
  if diff (q.seq c) (q.head + 1) ≠ 0 then (none, q)
  else
    (some (q.payload c), { q with
      seq := update q.seq c (q.head + BitVec.ofNat w N)
      head := q.head + 1 })

end FreeQueue

/-- The calls of a run; a `push` that does not return within its fuel is not completed. -/
inductive QueueCall
  | push (b : Payload) (weak : ℕ → Bool) (fuel : ℕ)
  | pop

def FreeQueue.step {w : ℕ} (N : ℕ) (q : FreeQueue w) : QueueCall → Option (FreeQueue w)
  | .push b weak fuel => (q.push N b weak fuel).map Prod.snd
  | .pop => some (q.pop N).2

def QueueCall.on {N : ℕ} (f : Fifo Payload N) : QueueCall → Fifo Payload N
  | .push b _ _ => f.push b
  | .pop => f.pop

def pending (N : ℕ) (calls : List QueueCall) : Fifo Payload N :=
  calls.foldl QueueCall.on (.empty Payload N)

/-- The next call does what a queue of capacity `N` that holds `f` does. A `push` that finds room
returns as soon as one compare-exchange does not fail spuriously, one that finds none returns in
its first round. -/
structure FreeQueue.ActsAs {w N : ℕ} (q : FreeQueue w) (f : Fifo Payload N) : Prop where
  pop : (q.pop N).1 = f.items.head?
  empty : f.items = [] → (q.pop N).2 = q
  push : f.items.length < N → ∀ b weak fuel, (∃ i < fuel, weak i = false) →
    ∃ q', q.push N b weak fuel = some (true, q')
  full : f.items.length = N → ∀ b weak, q.push N b weak 1 = some (false, q)

/-! ## Differences of counters -/

section Counters
variable {w N i j h : ℕ}

theorem toNat_diff (hw : w ≤ 64) (x y : BitVec w) :
    (diff x y).toNat = (2 ^ 64 - y.toNat + x.toNat) % 2 ^ 64 := by
  have hlt : ∀ z : BitVec w, z.toNat % 2 ^ 64 = z.toNat := fun z =>
    Nat.mod_eq_of_lt (z.isLt.trans_le (Nat.pow_le_pow_right (by norm_num) hw))
  rw [diff, BitVec.toNat_sub, BitVec.toNat_setWidth, BitVec.toNat_setWidth, hlt, hlt]

theorem diff_eq_zero (hw : w ≤ 64) {x y : BitVec w} : diff x y = 0 ↔ x = y := by
  have hpow : 2 ^ w ≤ 2 ^ 64 := Nat.pow_le_pow_right (by norm_num) hw
  have hx := x.isLt
  have hy := y.isLt
  rw [← BitVec.toNat_inj, ← BitVec.toNat_inj, toNat_diff hw]
  show _ % 2 ^ 64 = 0 ↔ _
  omega

theorem ofNat_eq_iff : BitVec.ofNat w i = BitVec.ofNat w j ↔ i % 2 ^ w = j % 2 ^ w := by
  rw [← BitVec.toNat_inj, BitVec.toNat_ofNat, BitVec.toNat_ofNat]

theorem cellOf_ofNat (hN : IsCapacity N) (hle : N ≤ 2 ^ w) (n : ℕ) :
    cellOf N (BitVec.ofNat w n) = n % N := by
  obtain ⟨k, rfl⟩ := hN
  have hpos := Nat.two_pow_pos (k + 1)
  unfold cellOf
  rw [BitVec.toNat_and, BitVec.toNat_ofNat, BitVec.toNat_ofNat,
    Nat.mod_eq_of_lt (show 2 ^ (k + 1) - 1 < 2 ^ w by omega), Nat.and_two_pow_sub_one_eq_mod]
  exact Nat.mod_mod_of_dvd n ((Nat.pow_dvd_pow_iff_le_right (by norm_num)).2
    ((Nat.pow_le_pow_iff_right (by norm_num)).1 hle))

/-- A full ring: the cell at the tail was published one number after the head. With 64 bits the
difference is negative; with 32 bits only while the tail has not just wrapped. -/
theorem diff_full (hw : w = 32 ∨ w = 64) (h2 : 2 ≤ N) (hmax : N ≤ 2 ^ 16) (h : ℕ) :
    diff (BitVec.ofNat w (h + 1)) (BitVec.ofNat w (h + N)) ≠ 0 ∧
      ((diff (BitVec.ofNat w (h + 1)) (BitVec.ofNat w (h + N))).toInt < 0 ↔
        w = 64 ∨ N - 1 ≤ (BitVec.ofNat w (h + N)).toNat) := by
  rw [BitVec.toInt_neg_iff]
  rcases hw with rfl | rfl
  · rw [ne_eq, diff_eq_zero (by norm_num), ofNat_eq_iff, toNat_diff (by norm_num),
      BitVec.toNat_ofNat, BitVec.toNat_ofNat]
    omega
  · rw [ne_eq, diff_eq_zero (by norm_num), ofNat_eq_iff, toNat_diff (by norm_num),
      BitVec.toNat_ofNat, BitVec.toNat_ofNat]
    omega

end Counters
/-! ## What the queue holds -/

/-- The cells from number `h` on hold the elements of `l` in their order, and the rest are free.
The counters are the numbers modulo `2^w`. -/
structure FreeQueue.Holds {w : ℕ} (N : ℕ) (q : FreeQueue w) (h : ℕ) (l : List Payload) : Prop where
  head : q.head = BitVec.ofNat w h
  tail : q.tail = BitVec.ofNat w (h + l.length)
  free : ∀ i, h + l.length ≤ i → i < h + N → q.seq (i % N) = BitVec.ofNat w i
  ready : ∀ i, h ≤ i → i < h + l.length → q.seq (i % N) = BitVec.ofNat w (i + 1)
  stored : Stored q.payload N h l

def FreeQueue.pushed {w : ℕ} (N : ℕ) (q : FreeQueue w) (b : Payload) : FreeQueue w :=
  { q with
    tail := q.tail + 1
    payload := update q.payload (cellOf N q.tail) b
    seq := update q.seq (cellOf N q.tail) (q.tail + 1) }

namespace FreeQueue
variable {w N h fuel i : ℕ} {q q' : FreeQueue w} {b : Payload} {weak : ℕ → Bool} {l : List Payload}

theorem ofNat_add_one (n : ℕ) : BitVec.ofNat w n + 1 = BitVec.ofNat w (n + 1) := by
  rw [BitVec.ofNat_add]
  rfl

/-! ## The loop of `push` -/

theorem diff_self (x : BitVec w) : diff x x = 0 := BitVec.sub_self _

/-- While the cell at the tail is free, the loop ends only by taking it. -/
theorem pushLoop_free (hfree : q.seq (cellOf N q.tail) = q.tail) {r : Bool × FreeQueue w}
    (hrun : pushLoop N q b weak fuel i q.tail = some r) : r = (true, q.pushed N b) := by
  induction fuel generalizing i with
  | zero => exact absurd hrun (by simp [pushLoop])
  | succ fuel ih =>
    simp only [pushLoop, hfree, diff_self, if_true] at hrun
    split_ifs at hrun
    · exact (Option.some.inj hrun).symm
    · exact ih hrun

theorem pushLoop_takes (hfree : q.seq (cellOf N q.tail) = q.tail)
    (hstrong : ∃ j, i ≤ j ∧ j < i + fuel ∧ weak j = false) :
    pushLoop N q b weak fuel i q.tail = some (true, q.pushed N b) := by
  induction fuel generalizing i with
  | zero =>
    obtain ⟨j, hij, hj, -⟩ := hstrong
    omega
  | succ fuel ih =>
    simp only [pushLoop, hfree, diff_self, if_true]
    by_cases hi : weak i = false
    · rw [if_pos ⟨trivial, hi⟩]
      rfl
    · rw [if_neg fun hc => hi hc.2]
      obtain ⟨j, hij, hj, hweak⟩ := hstrong
      have hne : i ≠ j := by
        rintro rfl
        exact hi hweak
      exact ih ⟨j, by omega, by omega, hweak⟩

theorem pushLoop_spins (hne : diff (q.seq (cellOf N q.tail)) q.tail ≠ 0)
    (hpos : ¬(diff (q.seq (cellOf N q.tail)) q.tail).toInt < 0) :
    pushLoop N q b weak fuel i q.tail = none := by
  induction fuel generalizing i with
  | zero => rfl
  | succ fuel ih =>
    simp only [pushLoop, if_neg hne, if_neg hpos]
    exact ih

/-- A cell behind the tail means a full ring. -/
theorem pushLoop_full (hne : diff (q.seq (cellOf N q.tail)) q.tail ≠ 0)
    (hneg : (diff (q.seq (cellOf N q.tail)) q.tail).toInt < 0) :
    pushLoop N q b weak (fuel + 1) i q.tail = some (false, q) := by
  simp only [pushLoop, if_neg hne, if_pos hneg]

/-! ## Calls on a queue that holds a list -/

variable (hN : IsCapacity N) (hle : N ≤ 2 ^ w)
include hN hle

theorem Holds.cell_tail (hq : q.Holds N h l) : cellOf N q.tail = (h + l.length) % N := by
  rw [hq.tail, cellOf_ofNat hN hle]

theorem Holds.tail_free (hq : q.Holds N h l) (hroom : l.length < N) :
    q.seq (cellOf N q.tail) = q.tail := by
  rw [hq.cell_tail hN hle, hq.free _ le_rfl (by omega), hq.tail]

theorem Holds.pushed (hq : q.Holds N h l) (hroom : l.length < N) (b : Payload) :
    (q.pushed N b).Holds N h (l ++ [b]) := by
  have hcell := hq.cell_tail hN hle
  have hlen : (l ++ [b]).length = l.length + 1 := List.length_append
  have hother : ∀ i, h ≤ i → i < h + N → i ≠ h + l.length →
      (q.pushed N b).seq (i % N) = q.seq (i % N) := by
    intro i hi hi' hne
    refine update_of_ne ?_ _ _
    rw [hcell]
    exact mod_ne_of_window (h := h) hi hi' (by omega) (by omega) hne
  refine ⟨hq.head, ?_, fun i hi hi' => ?_, fun i hi hi' => ?_, ?_⟩
  · show q.tail + 1 = _
    rw [hq.tail, ofNat_add_one, hlen, Nat.add_assoc]
  · rw [hother i (by omega) hi' (by omega)]
    exact hq.free i (by omega) hi'
  · by_cases hlast : i = h + l.length
    · show update q.seq (cellOf N q.tail) (q.tail + 1) (i % N) = _
      rw [hlast, hcell, update_self, hq.tail, ofNat_add_one]
    · rw [hother i hi (by omega) hlast]
      exact hq.ready i hi (by omega)
  · show Stored (update q.payload (cellOf N q.tail) b) N h (l ++ [b])
    rw [hcell]
    exact hq.stored.append hroom

theorem Holds.pop_nil (hw : w ≤ 64) (hpos : 0 < w) (hq : q.Holds N h []) :
    q.pop N = (none, q) := by
  have h2 := hN.two_le
  have hone : 1 < 2 ^ w := Nat.one_lt_two_pow (by omega)
  have hne : q.seq (cellOf N q.head) ≠ q.head + 1 := by
    rw [hq.head, cellOf_ofNat hN hle, hq.free h le_rfl (by omega), ofNat_add_one, ne_eq,
      ofNat_eq_iff]
    intro he
    have : (h + 1) % 2 ^ w = (h % 2 ^ w + 1) % 2 ^ w := by rw [Nat.mod_add_mod]
    have hlt := Nat.mod_lt h (Nat.two_pow_pos w)
    rw [this] at he
    by_cases hlast : h % 2 ^ w + 1 = 2 ^ w
    · rw [hlast, Nat.mod_self] at he
      omega
    · rw [Nat.mod_eq_of_lt (show h % 2 ^ w + 1 < 2 ^ w by omega)] at he
      omega
  unfold pop
  dsimp only
  rw [if_pos fun he => hne ((diff_eq_zero hw).1 he)]

theorem Holds.pop_cons (hw : w ≤ 64) (hq : q.Holds N h (b :: l)) (hroom : l.length < N) :
    (q.pop N).1 = some b ∧ (q.pop N).2.Holds N (h + 1) l := by
  have hlen : (b :: l).length = l.length + 1 := List.length_cons
  have hcell : cellOf N q.head = h % N := by rw [hq.head, cellOf_ofNat hN hle]
  have hready : q.seq (cellOf N q.head) = q.head + 1 := by
    rw [hcell, hq.ready h le_rfl (by omega), hq.head, ofNat_add_one]
  have hpop : q.pop N = (some (q.payload (cellOf N q.head)), { q with
      seq := update q.seq (cellOf N q.head) (q.head + BitVec.ofNat w N)
      head := q.head + 1 }) := by
    unfold FreeQueue.pop
    dsimp only
    rw [if_neg (not_not.2 ((diff_eq_zero hw).2 hready))]
  have hother : ∀ i, h + 1 ≤ i → i < h + N → update q.seq (cellOf N q.head)
      (q.head + BitVec.ofNat w N) (i % N) = q.seq (i % N) := by
    intro i hi hi'
    refine update_of_ne ?_ _ _
    rw [hcell]
    exact mod_ne_of_window (h := h) (by omega) hi' le_rfl (by omega) (by omega)
  rw [hpop]
  constructor
  · rw [hcell, hq.stored.head]
  · refine ⟨?_, ?_, fun i hi hi' => ?_, fun i hi hi' => ?_, hq.stored.tail⟩
    · show q.head + 1 = _
      rw [hq.head, ofNat_add_one]
    · show q.tail = _
      rw [hq.tail, hlen]
      congr 1
      omega
    · show update q.seq (cellOf N q.head) (q.head + BitVec.ofNat w N) (i % N) = _
      by_cases hlast : i = h + N
      · rw [hlast, Nat.add_mod_right, hcell, update_self, hq.head, ← BitVec.ofNat_add]
      · rw [hother i (by omega) (by omega)]
        exact hq.free i (by omega) (by omega)
    · show update q.seq (cellOf N q.head) (q.head + BitVec.ofNat w N) (i % N) = _
      rw [hother i hi (by omega)]
      exact hq.ready i (by omega) (by omega)

theorem Holds.diff_of_full (hq : q.Holds N h l) (hfull : l.length = N) :
    diff (q.seq (cellOf N q.tail)) q.tail =
      diff (BitVec.ofNat w (h + 1)) (BitVec.ofNat w (h + N)) := by
  have h2 := hN.two_le
  rw [hq.cell_tail hN hle, hfull, Nat.add_mod_right, hq.ready h le_rfl (by omega), hq.tail, hfull]

omit hle in
/-- A `push` on a full ring returns at once, or never. -/
theorem Holds.push_full (hw : w = 32 ∨ w = 64) (hmax : N ≤ 2 ^ 16) (hq : q.Holds N h l)
    (hfull : l.length = N) :
    ((w = 64 ∨ N - 1 ≤ q.tail.toNat) →
      ∀ b weak fuel, q.push N b weak (fuel + 1) = some (false, q)) ∧
    (¬(w = 64 ∨ N - 1 ≤ q.tail.toNat) → ∀ b weak fuel, q.push N b weak fuel = none) := by
  have hle : N ≤ 2 ^ w :=
    hmax.trans (Nat.pow_le_pow_right (by norm_num) (by omega))
  have hd := hq.diff_of_full hN hle hfull
  obtain ⟨hne, hneg⟩ := diff_full hw hN.two_le hmax h
  have htail : q.tail = BitVec.ofNat w (h + N) := by rw [hq.tail, hfull]
  rw [← hd] at hne hneg
  rw [← htail] at hneg
  constructor
  · intro hcond b weak fuel
    exact pushLoop_full hne (hneg.2 hcond)
  · intro hcond b weak fuel
    exact pushLoop_spins hne fun hlt => hcond (hneg.1 hlt)

end FreeQueue

/-! ## Runs -/

section Runs
variable {w N h : ℕ} {q q' : FreeQueue w}

theorem holds_init : (FreeQueue.init w).Holds N 0 [] where
  head := rfl
  tail := rfl
  free i _ hi := by
    show BitVec.ofNat w (i % N) = _
    rw [Nat.mod_eq_of_lt (by omega)]
  ready i _ hi := by
    rw [List.length_nil] at hi
    omega
  stored j hj := absurd hj (Nat.not_lt_zero j)

theorem FreeQueue.Holds.step (hw : w = 32 ∨ w = 64) (hN : IsCapacity N) (hmax : N ≤ 2 ^ 16)
    {f : Fifo Payload N} {c : QueueCall} (hq : q.Holds N h f.items)
    (hstep : q.step N c = some q') : ∃ h', q'.Holds N h' (c.on f).items := by
  have hle : N ≤ 2 ^ w := hmax.trans (Nat.pow_le_pow_right (by norm_num) (by omega))
  cases c with
  | push b weak fuel =>
    obtain ⟨r, hr, rfl⟩ := Option.map_eq_some_iff.1 hstep
    by_cases hroom : f.items.length < N
    · obtain rfl := pushLoop_free (hq.tail_free hN hle hroom) hr
      refine ⟨h, ?_⟩
      show FreeQueue.Holds N _ h (f.push b).items
      rw [Fifo.push_items hroom]
      exact hq.pushed hN hle hroom b
    · have hfull : f.items.length = N := le_antisymm f.bounded (not_lt.1 hroom)
      refine ⟨h, ?_⟩
      show FreeQueue.Holds N _ h (f.push b).items
      rw [Fifo.push_of_full hfull]
      obtain ⟨hreturns, hspins⟩ := hq.push_full hN hw hmax hfull
      by_cases hcond : w = 64 ∨ N - 1 ≤ q.tail.toNat
      · cases fuel with
        | zero => exact absurd hr (by simp [FreeQueue.push, FreeQueue.pushLoop])
        | succ fuel =>
          obtain rfl := Option.some.inj ((hreturns hcond b weak fuel).symm.trans hr)
          exact hq
      · rw [hspins hcond b weak fuel] at hr
        exact absurd hr (by simp)
  | pop =>
    obtain rfl := Option.some.inj hstep
    obtain ⟨items, hbound⟩ := f
    cases items with
    | nil =>
      rw [hq.pop_nil hN hle (by omega) (by omega)]
      exact ⟨h, hq⟩
    | cons b l => exact ⟨h + 1, (hq.pop_cons hN hle (by omega) hbound).2⟩

theorem FreeQueue.Holds.run (hw : w = 32 ∨ w = 64) (hN : IsCapacity N) (hmax : N ≤ 2 ^ 16)
    {calls : List QueueCall} (hrun : Run (fun _ _ => True) (FreeQueue.step N) q calls q') :
    ∀ {h : ℕ} {f : Fifo Payload N}, q.Holds N h f.items →
      ∃ h', q'.Holds N h' (calls.foldl QueueCall.on f).items := by
  induction hrun with
  | nil => exact fun hq => ⟨_, hq⟩
  | cons _ hstep _ ih =>
    intro h f hq
    obtain ⟨h', hq'⟩ := hq.step hw hN hmax hstep
    exact ih hq'

/-- After any completed calls the queue acts as a queue of capacity `N` that holds what the calls
left, unless it is full, its counters have 32 bits and the tail has just wrapped; then the next
`push` never returns. -/
theorem free_queue_is_fifo (hw : w = 32 ∨ w = 64) (hN : IsCapacity N) (hmax : N ≤ 2 ^ 16)
    {calls : List QueueCall}
    (hrun : Run (fun _ _ => True) (FreeQueue.step N) (FreeQueue.init w) calls q) :
    q.ActsAs (pending N calls) ↔
      w = 64 ∨ (pending N calls).items.length < N ∨ N - 1 ≤ q.tail.toNat := by
  obtain ⟨h, hq⟩ : ∃ h, q.Holds N h (pending N calls).items :=
    FreeQueue.Holds.run hw hN hmax hrun (f := .empty Payload N) holds_init
  have hle : N ≤ 2 ^ w := hmax.trans (Nat.pow_le_pow_right (by norm_num) (by omega))
  generalize pending N calls = f at hq ⊢
  constructor
  · intro hacts
    by_contra hcond
    push Not at hcond
    obtain ⟨hw', hlen, htail⟩ := hcond
    have hfull := le_antisymm f.bounded hlen
    have hnone := (hq.push_full hN hw hmax hfull).2 (by omega) ⟨0, 0⟩ (fun _ => false) 1
    rw [hacts.full hfull] at hnone
    exact absurd hnone (by simp)
  · intro hcond
    refine ⟨?_, fun hnil => ?_, fun hroom b weak fuel hstrong => ?_, fun hfull b weak => ?_⟩
    · obtain ⟨items, hbound⟩ := f
      cases items with
      | nil => rw [hq.pop_nil hN hle (by omega) (by omega), List.head?_nil]
      | cons b l => rw [(hq.pop_cons hN hle (by omega) hbound).1, List.head?_cons]
    · rw [hnil] at hq
      rw [hq.pop_nil hN hle (by omega) (by omega)]
    · obtain ⟨i, hi, hweak⟩ := hstrong
      exact ⟨_,
        FreeQueue.pushLoop_takes (hq.tail_free hN hle hroom) ⟨i, Nat.zero_le i, by omega, hweak⟩⟩
    · refine (hq.push_full hN hw hmax hfull).1 ?_ b weak 0
      omega

theorem free_queue_is_fifo_three : ∃ q : FreeQueue 64, Run (fun _ _ => True) (FreeQueue.step 64)
    (FreeQueue.init 64)
    [.push ⟨4096, 16⟩ (fun i => decide (i = 0)) 2, .push ⟨8192, 0⟩ (fun _ => false) 1,
      .pop] q ∧
    q.ActsAs (pending 64 [.push ⟨4096, 16⟩ (fun i => decide (i = 0)) 2,
      .push ⟨8192, 0⟩ (fun _ => false) 1, .pop]) := by
  obtain ⟨q, hrun, -⟩ := exists_run_of_exec (fun _ _ => True) (FreeQueue.step 64)
    (s := FreeQueue.init 64) (P := fun _ => true)
    (l := [.push ⟨4096, 16⟩ (fun i => decide (i = 0)) 2, .push ⟨8192, 0⟩ (fun _ => false) 1, .pop])
    (by decide +kernel)
  exact ⟨q, hrun, (free_queue_is_fifo (Or.inr rfl) ⟨5, rfl⟩ (by decide) hrun).2 (Or.inl rfl)⟩

/-! ## A full ring behind the wrap -/

theorem FreeQueue.Holds.step_push (hN : IsCapacity N) (hle : N ≤ 2 ^ w) {l : List Payload}
    (hq : q.Holds N h l) (hroom : l.length < N) (b : Payload) :
    q.step N (.push b (fun _ => false) 1) = some (q.pushed N b) := by
  have htake : q.pushLoop N b (fun _ => false) 1 0 q.tail = some (true, q.pushed N b) :=
    FreeQueue.pushLoop_takes (hq.tail_free hN hle hroom) ⟨0, le_rfl, by norm_num, rfl⟩
  simp only [FreeQueue.step, FreeQueue.push, htake, Option.map_some]

theorem pending_append (calls : List QueueCall) (c : QueueCall) :
    pending N (calls ++ [c]) = c.on (pending N calls) := by
  unfold pending
  rw [List.foldl_append]
  rfl

/-- `n` pushes, each followed by a `pop`, leave an empty queue at number `n`. -/
theorem exists_run_empty (hw : w ≤ 64) (hN : IsCapacity N) (hle : N ≤ 2 ^ w) (n : ℕ) :
    ∃ (calls : List QueueCall) (q : FreeQueue w),
      Run (fun _ _ => True) (FreeQueue.step N) (FreeQueue.init w) calls q ∧
        (pending N calls).items = [] ∧ q.Holds N n [] := by
  have h2 := hN.two_le
  induction n with
  | zero => exact ⟨[], _, .nil _, rfl, holds_init⟩
  | succ n ih =>
    obtain ⟨calls, q, hrun, hnil, hq⟩ := ih
    have hpush := hq.pushed hN hle (show ([] : List Payload).length < N by simp; omega) ⟨0, 0⟩
    have hpop := (hpush.pop_cons hN hle hw (show ([] : List Payload).length < N by simp; omega)).2
    refine ⟨calls ++ [.push ⟨0, 0⟩ (fun _ => false) 1] ++ [.pop], _, ?_, ?_, hpop⟩
    · refine (hrun.append (.cons trivial ?_ (.nil _))).append (.cons trivial rfl (.nil _))
      exact hq.step_push hN hle (by simp; omega) _
    · rw [pending_append, pending_append]
      show ((pending N calls).push ⟨0, 0⟩).items.tail = []
      rw [Fifo.push_items (by rw [hnil]; simp; omega), hnil]
      rfl

theorem exists_run_filled (hw : w ≤ 64) (hN : IsCapacity N) (hle : N ≤ 2 ^ w) (n : ℕ) {k : ℕ}
    (hk : k ≤ N) : ∃ (calls : List QueueCall) (q : FreeQueue w),
      Run (fun _ _ => True) (FreeQueue.step N) (FreeQueue.init w) calls q ∧
        (pending N calls).items.length = k ∧ q.Holds N n (pending N calls).items := by
  induction k with
  | zero =>
    obtain ⟨calls, q, hrun, hnil, hq⟩ := exists_run_empty hw hN hle n
    exact ⟨calls, q, hrun, by rw [hnil]; rfl, by rw [hnil]; exact hq⟩
  | succ k ih =>
    obtain ⟨calls, q, hrun, hlen, hq⟩ := ih (by omega)
    have hroom : (pending N calls).items.length < N := by omega
    have hitems : (pending N (calls ++ [.push ⟨0, 0⟩ (fun _ => false) 1])).items =
        (pending N calls).items ++ [⟨0, 0⟩] := by
      rw [pending_append]
      exact Fifo.push_items hroom _
    refine ⟨_, _, hrun.append (.cons trivial (hq.step_push hN hle hroom ⟨0, 0⟩) (.nil _)), ?_, ?_⟩
    · rw [hitems, List.length_append, hlen]
      rfl
    · rw [hitems]
      exact hq.pushed hN hle hroom ⟨0, 0⟩

/-- With 32-bit counters the ring fills up over the wrap of the tail, and `push` spins. -/
theorem push_spins_behind_wrap : ∃ (calls : List QueueCall) (q : FreeQueue 32),
    Run (fun _ _ => True) (FreeQueue.step 64) (FreeQueue.init 32) calls q ∧
      (pending 64 calls).items.length = 64 ∧ ¬q.ActsAs (pending 64 calls) ∧
      ∀ b weak fuel, q.push 64 b weak fuel = none := by
  have hN : IsCapacity 64 := ⟨5, rfl⟩
  obtain ⟨calls, q, hrun, hlen, hq⟩ := exists_run_filled (w := 32) (by norm_num) hN (by norm_num)
    (2 ^ 32 - 64) (le_refl 64)
  have htail : q.tail.toNat = 0 := by
    rw [hq.tail, hlen, BitVec.toNat_ofNat]
    norm_num
  have hspins := (hq.push_full hN (Or.inl rfl) (by norm_num) hlen).2 (by omega)
  refine ⟨calls, q, hrun, hlen, fun hacts => ?_, hspins⟩
  have hreturns := hacts.full hlen ⟨0, 0⟩ fun _ => false
  rw [hspins] at hreturns
  exact absurd hreturns (by simp)

end Runs
end AbcMalloc.Remote
