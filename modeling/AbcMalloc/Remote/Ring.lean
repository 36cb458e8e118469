import AbcMalloc.Foundation.Fifo
import AbcMalloc.Remote.Model

/-! What the ring of `__mpsc_free_queue` keeps. Reservations are numbered by the tail they took.
The cells of the reservations from `recycled` on are in use, each either still being filled by
its thread or published. -/
namespace AbcMalloc.Remote
open Function Foundation

/-! ## Cells -/

/-- At least two cells. With one cell a published one would look free. -/
def IsCapacity (N : ℕ) : Prop := ∃ k, N = 2 ^ (k + 1)

theorem IsCapacity.two_le {N : ℕ} (hN : IsCapacity N) : 2 ≤ N := by
  obtain ⟨k, rfl⟩ := hN
  have := Nat.one_le_two_pow (n := k)
  omega

theorem slot_eq_mod {N : ℕ} (hN : IsCapacity N) (i : ℕ) : slot N i = i % N := by
  obtain ⟨k, rfl⟩ := hN
  exact Nat.and_two_pow_sub_one_eq_mod i (k + 1)

theorem slot_add {N : ℕ} (hN : IsCapacity N) (i : ℕ) : slot N (i + N) = slot N i := by
  rw [slot_eq_mod hN, slot_eq_mod hN, Nat.add_mod_right]

/-- Among `N` numbers in a row no two have one cell. -/
theorem slot_ne_of_ne {N : ℕ} (hN : IsCapacity N) {a i j : ℕ} (hi : a ≤ i) (hi' : i < a + N)
    (hj : a ≤ j) (hj' : j < a + N) (hne : i ≠ j) : slot N i ≠ slot N j := by
  rw [slot_eq_mod hN, slot_eq_mod hN]
  exact mod_ne_of_window hi hi' hj hj' hne

theorem slot_ne {N : ℕ} (hN : IsCapacity N) {i j : ℕ} (hij : i < j) (hj : j < i + N) :
    slot N i ≠ slot N j :=
  slot_ne_of_ne hN le_rfl (by omega) hij.le hj hij.ne

/-! ## Views of the program counters -/

/-- The cell that a thread has reserved and not published yet. -/
def PushPc.fills : PushPc → Option (Payload × ℕ)
  | .writePtr b tail => some (b, tail)
  | .writeSize b tail => some (b, tail)
  | .publish b tail => some (b, tail)
  | _ => none

def PushPc.wrotePtr : PushPc → Option (Payload × ℕ)
  | .writeSize b tail => some (b, tail)
  | .publish b tail => some (b, tail)
  | _ => none

def PushPc.wroteSize : PushPc → Option (Payload × ℕ)
  | .publish b tail => some (b, tail)
  | _ => none

def PushPc.sees : PushPc → Option ℕ
  | .loadSeq _ tail => some tail
  | .reserve _ tail => some tail
  | _ => none

theorem PushPc.fills_of_wrotePtr {pc : PushPc} {r : Payload × ℕ} (h : pc.wrotePtr = some r) :
    pc.fills = some r := by
  cases pc <;> simp_all [PushPc.wrotePtr, PushPc.fills]

theorem PushPc.fills_of_wroteSize {pc : PushPc} {r : Payload × ℕ} (h : pc.wroteSize = some r) :
    pc.fills = some r := by
  cases pc <;> simp_all [PushPc.wroteSize, PushPc.fills]

variable {θ : Type*} {N : ℕ}

/-- Reservations below this number have given their cell back. -/
def Mailbox.recycled (w : Mailbox θ) : ℕ :=
  match w.drain with
  | .bump _ => w.head + 1
  | _ => w.head

def Mailbox.OwnerRing (N : ℕ) (w : Mailbox θ) : Prop :=
  match w.drain with
  | .readPtr => w.seq (slot N w.head) = w.head + 1
  | .readSize ptr => w.seq (slot N w.head) = w.head + 1 ∧ ptr = w.ptr (slot N w.head)
  | .recycle b => w.seq (slot N w.head) = w.head + 1 ∧ w.slots[w.head]? = some b
  | .bump b => w.slots[w.head]? = some b
  | .release b => 0 < w.head ∧ w.slots[w.head - 1]? = some b
  | _ => True

structure Ring (N : ℕ) (w : Mailbox θ) : Prop where
  length : w.slots.length = w.tail
  start : w.recycled ≤ w.tail
  room : w.tail ≤ w.recycled + N
  free : ∀ {i}, w.tail ≤ i → i < w.recycled + N → w.seq (slot N i) = i
  filled : ∀ {i b}, w.recycled ≤ i → w.slots[i]? = some b →
    (∀ x c, (w.pushing x).fills ≠ some (c, i)) →
    w.seq (slot N i) = i + 1 ∧ w.ptr (slot N i) = b.ptr ∧ w.size (slot N i) = b.size
  fills : ∀ {x b i}, (w.pushing x).fills = some (b, i) →
    w.recycled ≤ i ∧ w.slots[i]? = some b ∧ w.seq (slot N i) = i
  unique : ∀ {x x' b b' i}, (w.pushing x).fills = some (b, i) →
    (w.pushing x').fills = some (b', i) → x = x'
  wrotePtr : ∀ {x b i}, (w.pushing x).wrotePtr = some (b, i) → w.ptr (slot N i) = b.ptr
  wroteSize : ∀ {x b i}, (w.pushing x).wroteSize = some (b, i) → w.size (slot N i) = b.size
  sees : ∀ {x i}, (w.pushing x).sees = some i → i ≤ w.tail
  /-- A thread that found its cell free and is not late can take it. -/
  reserves : ∀ {x b i}, w.pushing x = .reserve b i → i = w.tail → i < w.recycled + N
  owner : w.OwnerRing N

theorem ring_init (hN : IsCapacity N) : Ring N (Mailbox.init θ) := by
  have hlt : ∀ {i}, i < N → slot N i = i := fun {i} hi => by
    rw [slot_eq_mod hN, Nat.mod_eq_of_lt hi]
  refine ⟨rfl, le_rfl, Nat.zero_le _, fun {i} _ hi => ?_, ?_, ?_, ?_, ?_, ?_, ?_, ?_, trivial⟩
  · exact hlt (by simpa [Mailbox.init, Mailbox.recycled] using hi)
  all_goals simp [Mailbox.init, PushPc.fills, PushPc.wrotePtr, PushPc.wroteSize, PushPc.sees]

namespace Ring
variable {w : Mailbox θ}

theorem lt_tail (h : Ring N w) {i : ℕ} {b : Payload} (hb : w.slots[i]? = some b) : i < w.tail := by
  rw [← h.length]
  exact (List.getElem?_eq_some_iff.1 hb).1

theorem exists_slot (h : Ring N w) {i : ℕ} (hi : i < w.tail) : ∃ b, w.slots[i]? = some b :=
  ⟨_, List.getElem?_eq_getElem (h.length ▸ hi)⟩

/-- A free cell is told from a taken one by its sequence number. -/
theorem lt_of_seq (h : Ring N w) (hN : IsCapacity N) (hseq : w.seq (slot N w.tail) = w.tail) :
    w.tail < w.recycled + N := by
  have h2 := hN.two_le
  by_contra hfull
  have heq : w.tail = w.recycled + N := le_antisymm h.room (not_lt.1 hfull)
  rw [heq, slot_add hN] at hseq
  obtain ⟨b, hb⟩ := h.exists_slot (show w.recycled < w.tail by omega)
  by_cases hfill : ∃ x c, (w.pushing x).fills = some (c, w.recycled)
  · obtain ⟨x, c, hx⟩ := hfill
    have := (h.fills hx).2.2
    omega
  · push Not at hfill
    have := (h.filled le_rfl hb hfill).1
    omega

/-- A cell that looks published holds the pair of its reservation. -/
theorem published (h : Ring N w) (hN : IsCapacity N) (hrec : w.recycled = w.head)
    (hseq : w.seq (slot N w.head) = w.head + 1) :
    w.slots[w.head]? = some ⟨w.ptr (slot N w.head), w.size (slot N w.head)⟩ := by
  have h2 := hN.two_le
  have hlt : w.head < w.tail := by
    by_contra hle
    have := h.free (not_lt.1 hle) (by omega)
    omega
  obtain ⟨b, hb⟩ := h.exists_slot hlt
  have hfill : ∀ x c, (w.pushing x).fills ≠ some (c, w.head) := by
    intro x c hx
    have := (h.fills hx).2.2
    omega
  obtain ⟨-, hptr, hsize⟩ := h.filled hrec.le hb hfill
  rw [hb, hptr, hsize]

/-- The cell of a reservation that is being filled is not the cell of another one in use. -/
theorem slot_ne_fills (h : Ring N w) (hN : IsCapacity N) {t : θ} {b : Payload} {i j : ℕ}
    (hfill : (w.pushing t).fills = some (b, i)) (hj : w.recycled ≤ j) (hj' : j < w.recycled + N)
    (hne : j ≠ i) : slot N j ≠ slot N i := by
  obtain ⟨hle, hb, -⟩ := h.fills hfill
  have := h.lt_tail hb
  have := h.room
  exact slot_ne_of_ne hN hj hj' hle (by omega) hne

/-- The cell at the head is published, so it is not one that is being filled. -/
theorem head_ne_fills (h : Ring N w) (hN : IsCapacity N) {t : θ} {b : Payload} {i : ℕ}
    (hfill : (w.pushing t).fills = some (b, i)) (hrec : w.recycled = w.head)
    (hseq : w.seq (slot N w.head) = w.head + 1) : slot N w.head ≠ slot N i := by
  have h2 := hN.two_le
  have hi := (h.fills hfill).2.2
  intro he
  by_cases hne : w.head = i
  · rw [← hne] at hi
    omega
  · exact h.slot_ne_fills hN hfill hrec.le (by omega) hne he

/-! ## Steps of the owner -/

theorem ownerTo (h : Ring N w) {d : DrainPc} (hrec : ({ w with drain := d }).recycled = w.recycled)
    (howner : ({ w with drain := d }).OwnerRing N) : Ring N { w with drain := d } := by
  refine ⟨h.length, ?_, ?_, ?_, ?_, ?_, h.unique, h.wrotePtr, h.wroteSize, h.sees, ?_, howner⟩
  all_goals rw [hrec]
  · exact h.start
  · exact h.room
  · exact h.free
  · exact h.filled
  · exact h.fills
  · exact h.reserves

theorem recycle (h : Ring N w) (hN : IsCapacity N) {b : Payload} (hd : w.drain = .recycle b) :
    Ring N { w with
      seq := update w.seq (slot N w.head) (w.head + N)
      drain := .bump b } := by
  have hrec : w.recycled = w.head := by simp [Mailbox.recycled, hd]
  obtain ⟨hseq, hb⟩ : w.seq (slot N w.head) = w.head + 1 ∧ w.slots[w.head]? = some b := by
    simpa [Mailbox.OwnerRing, hd] using h.owner
  have hlt := h.lt_tail hb
  have hroom := h.room
  -- the other cells in use keep their sequence number
  have hother : ∀ {i}, w.head + 1 ≤ i → i < w.head + N →
      update w.seq (slot N w.head) (w.head + N) (slot N i) = w.seq (slot N i) := fun hi hi' =>
    update_of_ne (slot_ne hN hi hi').symm _ _
  refine ⟨h.length, hlt, ?_, fun {i} hi hi' => ?_, fun {i c} hi hc hfill => ?_,
    fun {x c i} hx => ?_,
    h.unique, h.wrotePtr, h.wroteSize, h.sees, fun {x c i} hx hi => ?_, hb⟩
  · change w.tail ≤ w.head + 1 + N
    omega
  · change w.tail ≤ i at hi
    change i < w.head + 1 + N at hi'
    by_cases hlast : i = w.head + N
    · subst hlast
      rw [slot_add hN]
      exact update_self ..
    · exact (hother (by omega) (by omega)).trans (h.free hi (by omega))
  · change w.head + 1 ≤ i at hi
    have := h.lt_tail hc
    obtain ⟨hone, hpay⟩ := h.filled (by omega) hc hfill
    exact ⟨(hother hi (by omega)).trans hone, hpay⟩
  · obtain ⟨hle, hc, hi⟩ := h.fills hx
    have hne : i ≠ w.head := by
      rintro rfl
      omega
    have hlt' := h.lt_tail hc
    exact ⟨show w.head + 1 ≤ i by omega, hc, (hother (by omega) (by omega)).trans hi⟩
  · have := h.reserves hx hi
    change i < w.head + 1 + N
    omega

theorem bump (h : Ring N w) {b : Payload} (hd : w.drain = .bump b) :
    Ring N { w with
      head := w.head + 1
      drain := .release b } := by
  have hrec : w.recycled = w.head + 1 := by simp [Mailbox.recycled, hd]
  have hb : w.slots[w.head]? = some b := by simpa [Mailbox.OwnerRing, hd] using h.owner
  refine ⟨h.length, hrec ▸ h.start, hrec ▸ h.room, fun hi hi' => h.free hi (hrec ▸ hi'),
    fun hi => h.filled (hrec ▸ hi), fun hx => hrec ▸ h.fills hx, h.unique, h.wrotePtr, h.wroteSize,
    h.sees, fun hx hi => hrec ▸ h.reserves hx hi, Nat.succ_pos _, hb⟩

/-! ## Steps of the producers -/

variable [DecidableEq θ] {t : θ}

/-- A thread that has no cell moves to a point where it has none. -/
theorem goto (h : Ring N w) {pc : PushPc} (hold : (w.pushing t).fills = none)
    (hfills : pc.fills = none) (hsees : ∀ {i}, pc.sees = some i → i ≤ w.tail)
    (hreserves : ∀ {b i}, pc = .reserve b i → i = w.tail → i < w.recycled + N) :
    Ring N (w.goto t pc) := by
  have hpc : ∀ {x}, x ≠ t → (w.goto t pc).pushing x = w.pushing x := fun hx => update_of_ne hx _ _
  have hpct : (w.goto t pc).pushing t = pc := update_self ..
  have hne : ∀ {x r}, ((w.goto t pc).pushing x).fills = some r → x ≠ t := by
    intro x r hx he
    rw [he, hpct, hfills] at hx
    cases hx
  have hfill : ∀ {x r}, ((w.goto t pc).pushing x).fills = some r → (w.pushing x).fills = some r :=
    fun hx => by rwa [← hpc (hne hx)]
  refine ⟨h.length, h.start, h.room, h.free, fun hi hb hno => h.filled hi hb fun x c hx => ?_,
    fun hx => h.fills (hfill hx), fun hx hx' => h.unique (hfill hx) (hfill hx'),
    fun {x b i} hx => ?_,
    fun {x b i} hx => ?_, fun {x i} hx => ?_, fun {x b i} hx => ?_, h.owner⟩
  · have hxt : x ≠ t := by
      rintro rfl
      rw [hold] at hx
      cases hx
    exact hno x c (by rwa [hpc hxt])
  · rw [hpc (hne (PushPc.fills_of_wrotePtr hx))] at hx
    exact h.wrotePtr hx
  · rw [hpc (hne (PushPc.fills_of_wroteSize hx))] at hx
    exact h.wroteSize hx
  · by_cases hxt : x = t
    · rw [hxt, hpct] at hx
      exact hsees hx
    · exact h.sees (hpc hxt ▸ hx)
  · by_cases hxt : x = t
    · rw [hxt, hpct] at hx
      exact hreserves hx
    · exact h.reserves (hpc hxt ▸ hx)

theorem reserve (h : Ring N w) {b : Payload} (hpc : w.pushing t = .reserve b w.tail) :
    Ring N { w.goto t (.writePtr b w.tail) with
      tail := w.tail + 1
      slots := w.slots ++ [b]
      reserved := b ::ₘ w.reserved } := by
  have hroom := h.reserves hpc rfl
  have hpcx : ∀ {x}, x ≠ t → (w.goto t (.writePtr b w.tail)).pushing x = w.pushing x :=
    fun hx => update_of_ne hx _ _
  have hpct : (w.goto t (.writePtr b w.tail)).pushing t = .writePtr b w.tail := update_self ..
  have hold : ∀ {i c}, w.slots[i]? = some c → (w.slots ++ [b])[i]? = some c := fun hc => by
    rw [List.getElem?_append_left (List.getElem?_eq_some_iff.1 hc).1]
    exact hc
  have hlast : (w.slots ++ [b])[w.tail]? = some b := by simp [← h.length]
  -- the fillers are those from before, and `t`
  have hfill : ∀ {x c i}, ((w.goto t (.writePtr b w.tail)).pushing x).fills = some (c, i) →
      x ≠ t ∧ (w.pushing x).fills = some (c, i) ∨ x = t ∧ c = b ∧ i = w.tail := by
    intro x c i hx
    by_cases hxt : x = t
    · rw [hxt, hpct] at hx
      simp only [PushPc.fills, Option.some.injEq, Prod.mk.injEq] at hx
      exact Or.inr ⟨hxt, hx.1.symm, hx.2.symm⟩
    · exact Or.inl ⟨hxt, hpcx hxt ▸ hx⟩
  refine ⟨by simp [h.length], h.start.trans (Nat.le_succ _), hroom,
    fun hi => h.free (Nat.le_of_succ_le hi), fun {i c} hi hc hno => ?_, fun {x c i} hx => ?_,
    fun {x x' c c' i} hx hx' => ?_, fun {x c i} hx => ?_, fun {x c i} hx => ?_, fun {x i} hx => ?_,
    fun {x c i} hx hi => ?_, ?_⟩
  · have hne : i ≠ w.tail := fun he => hno t b (by rw [he]; exact congrArg PushPc.fills hpct)
    have hc' : w.slots[i]? = some c := by
      have hlt := (List.getElem?_eq_some_iff.1 hc).1
      simp only [List.length_append, List.length_singleton, h.length] at hlt
      rw [← hc]
      exact (List.getElem?_append_left (by rw [h.length]; omega)).symm
    refine h.filled hi hc' fun x d hx => ?_
    have hxt : x ≠ t := by
      rintro rfl
      rw [hpc] at hx
      cases hx
    exact hno x d ((congrArg PushPc.fills (hpcx hxt)).trans hx)
  · rcases hfill hx with ⟨-, hx⟩ | ⟨-, rfl, rfl⟩
    · obtain ⟨hle, hc, hseq⟩ := h.fills hx
      exact ⟨hle, hold hc, hseq⟩
    · exact ⟨h.start, hlast, h.free le_rfl hroom⟩
  · rcases hfill hx with ⟨-, hx⟩ | ⟨hxt, -, hi⟩
    · rcases hfill hx' with ⟨-, hx'⟩ | ⟨-, -, hi⟩
      · exact h.unique hx hx'
      · exact absurd (h.lt_tail (h.fills hx).2.1) (by omega)
    · rcases hfill hx' with ⟨-, hx'⟩ | ⟨hxt', -, -⟩
      · exact absurd (h.lt_tail (h.fills hx').2.1) (by omega)
      · rw [hxt, hxt']
  · by_cases hxt : x = t
    · rw [hxt] at hx
      exact absurd ((congrArg PushPc.wrotePtr hpct).symm.trans hx) (by simp [PushPc.wrotePtr])
    · exact h.wrotePtr ((congrArg PushPc.wrotePtr (hpcx hxt)).symm.trans hx)
  · by_cases hxt : x = t
    · rw [hxt] at hx
      exact absurd ((congrArg PushPc.wroteSize hpct).symm.trans hx) (by simp [PushPc.wroteSize])
    · exact h.wroteSize ((congrArg PushPc.wroteSize (hpcx hxt)).symm.trans hx)
  · by_cases hxt : x = t
    · rw [hxt] at hx
      exact absurd ((congrArg PushPc.sees hpct).symm.trans hx) (by simp [PushPc.sees])
    · exact (h.sees ((congrArg PushPc.sees (hpcx hxt)).symm.trans hx)).trans (Nat.le_succ _)
  · have hxt : x ≠ t := by
      rintro rfl
      exact absurd (hpct.symm.trans hx) (by simp)
    -- the others have loaded an older tail
    have hle : i ≤ w.tail := h.sees (x := x) (by rw [(hpcx hxt).symm.trans hx]; rfl)
    change i = w.tail + 1 at hi
    omega
  · have howner := h.owner
    revert howner
    simp only [Mailbox.OwnerRing, Mailbox.goto]
    cases w.drain with
    | recycle c => exact fun ho => ⟨ho.1, hold ho.2⟩
    | bump c => exact fun ho => hold ho
    | release c => exact fun ho => ⟨ho.1, hold ho.2⟩
    | _ => exact id

theorem write (h : Ring N w) (hN : IsCapacity N) {b : Payload} {i : ℕ} {pc : PushPc} {f g : ℕ → ℕ}
    (hold : (w.pushing t).fills = some (b, i)) (hnew : pc.fills = some (b, i))
    (hf : ∀ {j}, j ≠ slot N i → f j = w.ptr j) (hg : ∀ {j}, j ≠ slot N i → g j = w.size j)
    (hptr : ∀ {r}, pc.wrotePtr = some r → f (slot N i) = b.ptr)
    (hsize : ∀ {r}, pc.wroteSize = some r → g (slot N i) = b.size) :
    Ring N { w.goto t pc with
      ptr := f
      size := g } := by
  have hpcx : ∀ {x}, x ≠ t → (w.goto t pc).pushing x = w.pushing x := fun hx => update_of_ne hx _ _
  have hpct : (w.goto t pc).pushing t = pc := update_self ..
  have hroom := h.room
  have hfill : ∀ x, ((w.goto t pc).pushing x).fills = (w.pushing x).fills := by
    intro x
    by_cases hxt : x = t
    · rw [hxt, hpct, hnew, hold]
    · rw [hpcx hxt]
  -- the cells of the other reservations
  have hother : ∀ {x c j}, x ≠ t → (w.pushing x).fills = some (c, j) → slot N j ≠ slot N i := by
    intro x c j hxt hx
    obtain ⟨hle, hc, -⟩ := h.fills hx
    have hlt := h.lt_tail hc
    refine h.slot_ne_fills hN hold hle (by omega) ?_
    rintro rfl
    exact hxt (h.unique hx hold)
  refine ⟨h.length, h.start, h.room, h.free, fun {j c} hj hc hno => ?_,
    fun {x c j} hx => h.fills ((hfill x).symm.trans hx),
    fun {x x' c c' j} hx hx' => h.unique ((hfill x).symm.trans hx) ((hfill x').symm.trans hx'),
    fun {x c j} hx => ?_, fun {x c j} hx => ?_, fun {x j} hx => ?_, fun {x c j} hx => ?_, ?_⟩
  · have hlt := h.lt_tail hc
    have hne : j ≠ i := by
      rintro rfl
      exact hno t b ((hfill t).trans hold)
    have hslot := h.slot_ne_fills hN hold hj (show j < w.recycled + N by omega) hne
    obtain ⟨hseq, hp, hs⟩ := h.filled hj hc fun x d hx => hno x d ((hfill x).trans hx)
    exact ⟨hseq, (hf hslot).trans hp, (hg hslot).trans hs⟩
  · by_cases hxt : x = t
    · subst hxt
      have hx := (congrArg PushPc.wrotePtr hpct).symm.trans hx
      have he := (PushPc.fills_of_wrotePtr hx).symm.trans hnew
      simp only [Option.some.injEq, Prod.mk.injEq] at he
      obtain ⟨rfl, rfl⟩ := he
      exact hptr hx
    · have hx' := (congrArg PushPc.wrotePtr (hpcx hxt)).symm.trans hx
      exact (hf (hother hxt (PushPc.fills_of_wrotePtr hx'))).trans (h.wrotePtr hx')
  · by_cases hxt : x = t
    · subst hxt
      have hx := (congrArg PushPc.wroteSize hpct).symm.trans hx
      have he := (PushPc.fills_of_wroteSize hx).symm.trans hnew
      simp only [Option.some.injEq, Prod.mk.injEq] at he
      obtain ⟨rfl, rfl⟩ := he
      exact hsize hx
    · have hx' := (congrArg PushPc.wroteSize (hpcx hxt)).symm.trans hx
      exact (hg (hother hxt (PushPc.fills_of_wroteSize hx'))).trans (h.wroteSize hx')
  · by_cases hxt : x = t
    · rw [hxt] at hx
      have hx := (congrArg PushPc.sees hpct).symm.trans hx
      cases pc <;> simp_all [PushPc.sees, PushPc.fills]
    · exact h.sees ((congrArg PushPc.sees (hpcx hxt)).symm.trans hx)
  · by_cases hxt : x = t
    · rw [hxt] at hx
      rw [hpct.symm.trans hx] at hnew
      cases hnew
    · exact h.reserves ((hpcx hxt).symm.trans hx)
  · have howner := h.owner
    simp only [Mailbox.OwnerRing, Mailbox.goto] at howner ⊢
    cases hd : w.drain with
    | readSize p =>
      rw [hd] at howner
      have hhead := h.head_ne_fills hN hold (by simp [Mailbox.recycled, hd]) howner.1
      exact ⟨howner.1, howner.2.trans (hf hhead).symm⟩
    | _ =>
      rw [hd] at howner
      exact howner

theorem publish (h : Ring N w) (hN : IsCapacity N) {b : Payload} {i : ℕ}
    (hpc : w.pushing t = .publish b i) :
    Ring N { w.goto t .idle with seq := update w.seq (slot N i) (i + 1) } := by
  have hold : (w.pushing t).fills = some (b, i) := by rw [hpc]; rfl
  have hptr : w.ptr (slot N i) = b.ptr := h.wrotePtr (x := t) (by rw [hpc]; rfl)
  have hsize : w.size (slot N i) = b.size := h.wroteSize (x := t) (by rw [hpc]; rfl)
  obtain ⟨hle, hb, -⟩ := h.fills hold
  have hlt := h.lt_tail hb
  have hroom := h.room
  have hgo : ∀ {x}, x ≠ t → (w.goto t .idle).pushing x = w.pushing x :=
    fun hx => update_of_ne hx _ _
  have hgot : (w.goto t .idle).pushing t = .idle := update_self ..
  have hother : ∀ {j}, w.recycled ≤ j → j < w.recycled + N → j ≠ i →
      update w.seq (slot N i) (i + 1) (slot N j) = w.seq (slot N j) := fun hj hj' hne =>
    update_of_ne (h.slot_ne_fills hN hold hj hj' hne) _ _
  have hfill : ∀ {x c j}, ((w.goto t .idle).pushing x).fills = some (c, j) →
      x ≠ t ∧ (w.pushing x).fills = some (c, j) := by
    intro x c j hx
    by_cases hxt : x = t
    · rw [hxt, hgot] at hx
      cases hx
    · exact ⟨hxt, hgo hxt ▸ hx⟩
  refine ⟨h.length, h.start, h.room, fun {j} hj hj' => ?_, fun {j c} hj hc hno => ?_,
    fun {x c j} hx => ?_, fun hx hx' => h.unique (hfill hx).2 (hfill hx').2, fun {x c j} hx => ?_,
    fun {x c j} hx => ?_, fun {x j} hx => ?_, fun {x c j} hx => ?_, ?_⟩
  · change w.tail ≤ j at hj
    exact (hother (by omega) hj' (by omega)).trans (h.free hj hj')
  · by_cases hne : j = i
    · subst hne
      obtain rfl : b = c := Option.some.inj (hb.symm.trans hc)
      exact ⟨update_self .., hptr, hsize⟩
    · have hlt' := h.lt_tail hc
      obtain ⟨hseq, hpay⟩ := h.filled hj hc fun x d hx => by
        by_cases hxt : x = t
        · rw [hxt, hold] at hx
          simp only [Option.some.injEq, Prod.mk.injEq] at hx
          exact hne hx.2.symm
        · exact hno x d ((congrArg PushPc.fills (hgo hxt)).trans hx)
      exact ⟨(hother hj (by omega) hne).trans hseq, hpay⟩
  · obtain ⟨hxt, hx'⟩ := hfill hx
    obtain ⟨hle', hc, hseq⟩ := h.fills hx'
    have hlt' := h.lt_tail hc
    have hne : j ≠ i := by
      rintro rfl
      exact hxt (h.unique hx' hold)
    exact ⟨hle', hc, (hother hle' (by omega) hne).trans hseq⟩
  · exact h.wrotePtr
      ((congrArg PushPc.wrotePtr (hgo (hfill (PushPc.fills_of_wrotePtr hx)).1)).symm.trans hx)
  · exact h.wroteSize
      ((congrArg PushPc.wroteSize (hgo (hfill (PushPc.fills_of_wroteSize hx)).1)).symm.trans hx)
  · by_cases hxt : x = t
    · rw [hxt] at hx
      exact absurd ((congrArg PushPc.sees hgot).symm.trans hx) (by simp [PushPc.sees])
    · exact h.sees ((congrArg PushPc.sees (hgo hxt)).symm.trans hx)
  · by_cases hxt : x = t
    · rw [hxt] at hx
      exact absurd (hgot.symm.trans hx) (by simp)
    · exact h.reserves ((hgo hxt).symm.trans hx)
  · have howner := h.owner
    have hkeep : w.recycled = w.head → w.seq (slot N w.head) = w.head + 1 →
        update w.seq (slot N i) (i + 1) (slot N w.head) = w.head + 1 := fun hrec hseq =>
      (update_of_ne (h.head_ne_fills hN hold hrec hseq) _ _).trans hseq
    simp only [Mailbox.OwnerRing, Mailbox.goto] at howner ⊢
    cases hd : w.drain with
    | readPtr =>
      rw [hd] at howner
      exact hkeep (by simp [Mailbox.recycled, hd]) howner
    | readSize p =>
      rw [hd] at howner
      exact ⟨hkeep (by simp [Mailbox.recycled, hd]) howner.1, howner.2⟩
    | recycle c =>
      rw [hd] at howner
      exact ⟨hkeep (by simp [Mailbox.recycled, hd]) howner.1, howner.2⟩
    | _ =>
      rw [hd] at howner
      exact howner

end Ring

end AbcMalloc.Remote
