import Wraft.ForMathlib.Window

/-!
# `RingBuf`

The table of the requests in flight. Its values are stored in `capacity` slots, each together with
its index, and the slot of an index is the index modulo the capacity. Indices are `usize`, whose
width is a parameter, and wrap around.

Until they do, a ring buffer behaves like a window (`ringBuf_refines`): an index refers to the
value that was added under it until that is removed, whatever the slots were used for before.
-/

namespace Wraft

/-- `usize`, whose width depends on the platform. -/
abbrev Usize (w : ℕ) := BitVec w

structure RingBuf (w : ℕ) (α : Type*) where
  data : List (Option (Usize w × α))
  capacity : Usize w
  minIdx : Usize w
  nextIdx : Usize w
  pos : 0 < capacity.toNat
  length_data : data.length = capacity.toNat

namespace RingBuf

variable {w : ℕ} {α : Type*}

inductive Error (α : Type*) where
  | overflow (value : α)
  deriving DecidableEq

def withCapacity (capacity : Usize w) (pos : 0 < capacity.toNat) : RingBuf w α where
  data := List.replicate capacity.toNat none
  capacity := capacity
  minIdx := 0
  nextIdx := 0
  pos := pos
  length_data := List.length_replicate

def dataIdx (b : RingBuf w α) (idx : Usize w) : ℕ := idx.toNat % b.capacity.toNat

theorem dataIdx_lt (b : RingBuf w α) (idx : Usize w) : b.dataIdx idx < b.data.length :=
  b.length_data ▸ Nat.mod_lt _ b.pos

/-- The slot of an index. -/
def slot (b : RingBuf w α) (idx : Usize w) : Option (Usize w × α) :=
  b.data.get ⟨b.dataIdx idx, b.dataIdx_lt idx⟩

/-- The slot of an index is written. -/
def setSlot (b : RingBuf w α) (idx : Usize w) (val : Option (Usize w × α)) : RingBuf w α :=
  { b with
    data := b.data.set (b.dataIdx idx) val
    length_data := List.length_set.trans b.length_data }

def add (b : RingBuf w α) (value : α) : Except (Error α) (Usize w) × RingBuf w α :=
  let idx := b.nextIdx
  if b.capacity ≤ idx - b.minIdx then (.error (.overflow value), b)
  else (.ok idx, { b.setSlot idx (some (idx, value)) with nextIdx := idx + 1 })

/-- The loop of `remove`, which goes around at most `fuel` times. -/
def skip : ℕ → RingBuf w α → RingBuf w α
  | 0, b => b
  | fuel + 1, b =>
    if b.minIdx < b.nextIdx ∧ (b.slot b.minIdx).isNone then
      skip fuel { b with minIdx := b.minIdx + 1 }
    else b

/-- There is fuel for as often as the loop can go around before `min_idx` is `next_idx`. -/
def remove (b : RingBuf w α) (idx : Usize w) : Option α × RingBuf w α :=
  match b.slot idx with
  | none => (none, b)
  | some (i, val) =>
    if i ≠ idx then (none, b)
    else (some val, skip (b.nextIdx.toNat - b.minIdx.toNat) (b.setSlot idx none))

/-! ### Slots -/

variable {b : RingBuf w α}

theorem slot_congr {i j : Usize w} (h : b.dataIdx i = b.dataIdx j) : b.slot i = b.slot j := by
  simp only [slot, h]

theorem slot_setSlot {i j : Usize w} (val : Option (Usize w × α)) :
    (b.setSlot i val).slot j = if b.dataIdx i = b.dataIdx j then val else b.slot j := by
  simp only [slot, setSlot, List.get_eq_getElem, List.getElem_set]
  rfl

theorem slot_withCapacity (capacity : Usize w) (pos : 0 < capacity.toNat) (idx : Usize w) :
    (withCapacity capacity pos : RingBuf w α).slot idx = none := by
  simp [slot, withCapacity]

/-- In a free slot a value is found under its index, and no other value is lost. -/
theorem slot_setSlot_some_iff {n idx : Usize w} {v val : α} (hfree : b.slot n = none) :
    (b.setSlot n (some (n, v))).slot idx = some (idx, val) ↔
      if idx = n then v = val else b.slot idx = some (idx, val) := by
  rw [slot_setSlot]
  by_cases hidx : idx = n
  · simp [hidx]
  · rw [if_neg hidx]
    split_ifs with hslot
    · -- nothing else was stored in the slot
      rw [← slot_congr hslot, hfree]
      simp [Ne.symm hidx]
    · rfl

/-- When a value is taken out of its slot, no other value is. -/
theorem slot_setSlot_none_iff {n idx : Usize w} {v val : α} (hslot : b.slot n = some (n, v)) :
    (b.setSlot n none).slot idx = some (idx, val) ↔ idx ≠ n ∧ b.slot idx = some (idx, val) := by
  rw [slot_setSlot]
  by_cases hidx : idx = n
  · simp [hidx]
  · rw [and_iff_right hidx]
    split_ifs with hdata
    · -- the slot held the value that is taken out
      rw [← slot_congr hdata, hslot]
      simp [Ne.symm hidx]
    · rfl

/-- What is in a slot belongs there. -/
def Placed (b : RingBuf w α) : Prop :=
  ∀ idx i val, b.slot idx = some (i, val) → b.dataIdx i = b.dataIdx idx

theorem Placed.setSlot_some (h : b.Placed) (n : Usize w) (v : α) :
    (b.setSlot n (some (n, v))).Placed := by
  intro idx i val hslot
  rw [slot_setSlot] at hslot
  split_ifs at hslot with hidx
  · obtain ⟨rfl, -⟩ := Prod.mk.inj (Option.some.inj hslot)
    exact hidx
  · exact h idx i val hslot

theorem Placed.setSlot_none (h : b.Placed) (n : Usize w) : (b.setSlot n none).Placed := by
  intro idx i val hslot
  rw [slot_setSlot] at hslot
  split_ifs at hslot
  exact h idx i val hslot

theorem toNat_add_one {x : Usize w} (h : x.toNat + 1 < 2 ^ w) : (x + 1).toNat = x.toNat + 1 := by
  have hone : (1 : Usize w).toNat = 1 % 2 ^ w := BitVec.toNat_ofNat ..
  rw [BitVec.toNat_add, hone, Nat.add_mod_mod, Nat.mod_eq_of_lt h]

/-! ### The window of a ring buffer -/

/-- The slots hold the values of a window, each in the slot of its index. -/
structure Stores (b : RingBuf w α) (m : Window α) : Prop where
  next : b.nextIdx.toNat = m.next
  slot_iff : ∀ idx val, b.slot idx = some (idx, val) ↔ m.get idx.toNat = some val
  placed : ∀ idx i val, b.slot idx = some (i, val) → b.dataIdx i = b.dataIdx idx

/-- The indices in use fit in the buffer, and `min_idx` is the first of them. -/
structure Represents (b : RingBuf w α) (m : Window α) : Prop extends Stores b m where
  min : b.minIdx.toNat = m.first
  room : m.next ≤ m.first + b.capacity.toNat

variable {m : Window α}

theorem Stores.get_of_slot (h : b.Stores m) {idx i : Usize w} {val : α}
    (hslot : b.slot idx = some (i, val)) : m.get i.toNat = some val := by
  rw [← h.slot_iff, slot_congr (h.placed idx i val hslot), hslot]

/-- What is stored anywhere is stored under its index. -/
theorem Stores.get_of_getElem (h : b.Stores m) {k : ℕ} (hk : k < b.data.length)
    {i : Usize w} {val : α}
    (hdata : b.data[k] = some (i, val)) : m.get i.toNat = some val ∧ b.dataIdx i = k := by
  have hlt : k < b.capacity.toNat := b.length_data ▸ hk
  have hidx : b.dataIdx (BitVec.ofNat w k) = k := by
    rw [dataIdx, BitVec.toNat_ofNat, Nat.mod_eq_of_lt (hlt.trans b.capacity.isLt),
      Nat.mod_eq_of_lt hlt]
  have hslot : b.slot (BitVec.ofNat w k) = some (i, val) := by
    simp only [slot, List.get_eq_getElem, hidx, hdata]
  exact ⟨h.get_of_slot hslot, (h.placed _ _ _ hslot).trans hidx⟩

theorem Stores.slot_eq_none (h : b.Stores m) {idx : Usize w} (hroom : ∀ i : Usize w, ∀ val,
    m.get i.toNat = some val → b.dataIdx i ≠ b.dataIdx idx) : b.slot idx = none := by
  by_contra hne
  obtain ⟨⟨i, val⟩, hslot⟩ := Option.ne_none_iff_exists'.mp hne
  exact hroom i val (h.get_of_slot hslot) (h.placed idx i val hslot)

/-- The loop of `remove` ends at the first index in use. -/
theorem Stores.skip (h : b.Stores m) (hmin : b.minIdx.toNat ≤ m.first)
    (hroom : m.next ≤ b.minIdx.toNat + b.capacity.toNat) (fuel : ℕ)
    (hfuel : m.next - b.minIdx.toNat ≤ fuel) :
    ∃ k : Usize w, k.toNat = m.first ∧ b.skip fuel = { b with minIdx := k } := by
  induction fuel generalizing b with
  | zero =>
    have := m.first_le_next
    exact ⟨b.minIdx, by omega, rfl⟩
  | succ fuel ih =>
    rw [RingBuf.skip]
    split_ifs with hcond
    · -- nothing is stored under `min_idx`, so that it is not the first index in use
      have hlt := BitVec.lt_def.mp hcond.1
      rw [h.next] at hlt
      have hne : m.first ≠ b.minIdx.toNat := by
        intro heq
        obtain hlive | hend : (m.get m.first).isSome ∨ m.first = m.next := m.isLeast_first.1
        · obtain ⟨val, hval⟩ := Option.isSome_iff_exists.mp hlive
          rw [heq, ← h.slot_iff] at hval
          simp [hval] at hcond
        · omega
      have hmin' : (b.minIdx + 1).toNat = b.minIdx.toNat + 1 :=
        toNat_add_one (by have := b.nextIdx.isLt; have := h.next; omega)
      have hroom' : m.next ≤ (b.minIdx + 1).toNat + b.capacity.toNat := by omega
      obtain ⟨k, hk, hskip⟩ := ih (b := { b with minIdx := b.minIdx + 1 })
        ⟨h.next, h.slot_iff, h.placed⟩ (by rw [hmin']; omega) hroom' (by rw [hmin']; omega)
      exact ⟨k, hk, hskip⟩
    · refine ⟨b.minIdx, le_antisymm hmin ?_, rfl⟩
      by_cases hlt : b.minIdx < b.nextIdx
      · -- what is stored in the slot of `min_idx` is stored under `min_idx`
        have hsome : b.slot b.minIdx ≠ none := fun hnone => hcond ⟨hlt, by simp [hnone]⟩
        obtain ⟨⟨i, val⟩, hslot⟩ := Option.ne_none_iff_exists'.mp hsome
        have hget := h.get_of_slot hslot
        have hi := Window.lt_next_of_get hget
        have hfirst := Window.first_le_of_get hget
        have heq : i.toNat = b.minIdx.toNat :=
          Window.eq_of_mod_eq (by omega) (by omega) le_rfl (by have := b.pos; omega)
            (h.placed _ _ _ hslot)
        exact heq ▸ hfirst
      · rw [BitVec.lt_def, h.next] at hlt
        exact m.first_le_next.trans (by omega)

theorem represents_withCapacity (capacity : Usize w) (pos : 0 < capacity.toNat) :
    (withCapacity capacity pos : RingBuf w α).Represents .empty where
  next := BitVec.toNat_zero
  slot_iff idx val := by simp [slot_withCapacity, Window.empty]
  placed idx i val h := by simp [slot_withCapacity] at h
  min := by rw [Window.first_empty]; exact BitVec.toNat_zero
  room := Nat.zero_le _

/-! ### The operations -/

/-- The test of `add`. -/
theorem Represents.full_iff (h : b.Represents m) :
    b.capacity ≤ b.nextIdx - b.minIdx ↔ b.capacity.toNat ≤ m.next - m.first := by
  have hle : b.minIdx ≤ b.nextIdx := by
    rw [BitVec.le_def, h.min, h.next]
    exact m.first_le_next
  rw [BitVec.le_def, BitVec.toNat_sub_of_le hle, h.min, h.next]

/-- When there is room the slot of the next index is free. -/
theorem Represents.slot_next (h : b.Represents m) (hroom : m.next - m.first < b.capacity.toNat) :
    b.slot b.nextIdx = none := by
  refine h.slot_eq_none fun i val hget hi => ?_
  have hlt := Window.lt_next_of_get hget
  have hfirst := Window.first_le_of_get hget
  have heq : i.toNat = b.nextIdx.toNat :=
    Window.eq_of_mod_eq hfirst (by omega) (by rw [h.next]; exact m.first_le_next)
      (by rw [h.next]; omega) hi
  rw [h.next] at heq
  omega

theorem add_of_full (hfull : b.capacity ≤ b.nextIdx - b.minIdx) (value : α) :
    b.add value = (.error (.overflow value), b) := if_pos hfull

/-- What `add` does when there is room. -/
theorem Represents.add (h : b.Represents m) (hroom : m.next - m.first < b.capacity.toNat)
    (hnext : m.next + 1 < 2 ^ w) (value : α) :
    (b.add value).1 = .ok b.nextIdx ∧ (b.add value).2.Represents (m.push value) := by
  have hadd : b.add value = (.ok b.nextIdx,
      { b.setSlot b.nextIdx (some (b.nextIdx, value)) with nextIdx := b.nextIdx + 1 }) :=
    if_neg (by rw [h.full_iff]; omega)
  have hfree := h.slot_next hroom
  rw [hadd]
  refine ⟨rfl, ⟨?_, fun idx val => ?_, fun idx i val hslot => ?_⟩, ?_, ?_⟩
  · rw [Window.next_push, ← h.next]
    exact toNat_add_one (by rw [h.next]; exact hnext)
  · change (b.setSlot _ _).slot idx = _ ↔ _
    rw [slot_setSlot_some_iff hfree]
    split_ifs with hidx
    · rw [hidx, h.next, Window.get_push_next]
      simp
    · have hne : idx.toNat ≠ m.next :=
        fun heq => hidx (BitVec.eq_of_toNat_eq (heq.trans h.next.symm))
      rw [Window.get_push_of_ne hne, ← h.slot_iff]
  · exact Placed.setSlot_some h.placed b.nextIdx value idx i val hslot
  · rw [Window.first_push]
    exact h.min
  · rw [Window.first_push, Window.next_push]
    show m.next + 1 ≤ m.first + b.capacity.toNat
    have := m.first_le_next
    omega

theorem remove_of_slot_ne {idx : Usize w} (h : ∀ val, b.slot idx ≠ some (idx, val)) :
    b.remove idx = (none, b) := by
  rw [remove]
  split
  · rfl
  · rename_i i val hslot
    refine if_pos ?_
    rintro rfl
    exact h val hslot

theorem remove_of_get_eq_none (h : b.Represents m) {idx : Usize w} (hget : m.get idx.toNat = none) :
    b.remove idx = (none, b) := by
  refine remove_of_slot_ne fun val hslot => ?_
  rw [h.slot_iff, hget] at hslot
  cases hslot

/-- What `remove` does when it finds the value. -/
theorem Represents.remove (h : b.Represents m) {idx : Usize w} {val : α}
    (hget : m.get idx.toNat = some val) :
    (b.remove idx).1 = some val ∧ (b.remove idx).2.Represents (m.erase idx.toNat) := by
  have hslot := (h.slot_iff idx val).mpr hget
  have herase : (b.setSlot idx none).Stores (m.erase idx.toNat) := by
    refine ⟨h.next, fun i u => ?_, Placed.setSlot_none h.placed idx⟩
    rw [slot_setSlot_none_iff hslot]
    by_cases hi : i = idx
    · simp [hi]
    · rw [and_iff_right hi, h.slot_iff,
        Window.get_erase_of_ne fun heq => hi (BitVec.eq_of_toNat_eq heq)]
  have hfirst := Window.first_le_first_erase (m := m) idx.toNat
  have hmin : (b.setSlot idx none).minIdx = b.minIdx := rfl
  obtain ⟨k, hk, hskip⟩ := herase.skip (h.min.trans_le hfirst)
    (by rw [Window.next_erase, hmin, h.min]; exact h.room)
    (b.nextIdx.toNat - b.minIdx.toNat) (by rw [Window.next_erase, h.next]; exact le_rfl)
  have hremove : b.remove idx = (some val, { b.setSlot idx none with minIdx := k }) := by
    rw [RingBuf.remove, hslot]
    simp [hskip]
  rw [hremove]
  exact ⟨rfl, ⟨herase.next, herase.slot_iff, herase.placed⟩, hk,
    h.room.trans (Nat.add_le_add_right hfirst _)⟩

/-! ### Sequences of calls -/

/-- A call of one of the two operations. -/
inductive Call (w : ℕ) (α : Type*) where
  | add (value : α)
  | remove (idx : Usize w)

/-- What a call returns. -/
inductive Outcome (w : ℕ) (α : Type*) where
  | added (res : Except (Error α) (Usize w))
  | removed (res : Option α)
  deriving DecidableEq

def Call.isAdd : Call w α → Bool
  | .add _ => true
  | .remove _ => false

/-- The index that a successful `add` returned. -/
def Outcome.idx? : Outcome w α → Option (Usize w)
  | .added (.ok idx) => some idx
  | _ => none

def call (b : RingBuf w α) : Call w α → Outcome w α × RingBuf w α
  | .add value => (.added (b.add value).1, (b.add value).2)
  | .remove idx => (.removed (b.remove idx).1, (b.remove idx).2)

/-- What the calls return, and what is left of the buffer. -/
def run (b : RingBuf w α) : List (Call w α) → List (Outcome w α) × RingBuf w α
  | [] => ([], b)
  | c :: cs => ((b.call c).1 :: ((b.call c).2.run cs).1, ((b.call c).2.run cs).2)

/-- A call on a window for at most `capacity` keys at once. -/
def specCall (capacity : ℕ) (m : Window α) : Call w α → Outcome w α × Window α
  | .add value =>
    if capacity ≤ m.next - m.first then (.added (.error (.overflow value)), m)
    else (.added (.ok (BitVec.ofNat w m.next)), m.push value)
  | .remove idx => (.removed (m.get idx.toNat), m.erase idx.toNat)

def specRun (capacity : ℕ) (m : Window α) : List (Call w α) → List (Outcome w α) × Window α
  | [] => ([], m)
  | c :: cs =>
    ((specCall capacity m c).1 :: (specRun capacity (specCall capacity m c).2 cs).1,
      (specRun capacity (specCall capacity m c).2 cs).2)

/-- **One call** returns what it returns on the window. -/
theorem Represents.call (h : b.Represents m) (c : Call w α)
    (hnext : c.isAdd = true → m.next + 1 < 2 ^ w) :
    (b.call c).1 = (specCall b.capacity.toNat m c).1 ∧
      (b.call c).2.Represents (specCall b.capacity.toNat m c).2 := by
  cases c with
  | add value =>
    rw [RingBuf.call, specCall]
    split_ifs with hfull
    · rw [add_of_full (h.full_iff.mpr hfull)]
      exact ⟨rfl, h⟩
    · obtain ⟨hres, hrep⟩ := h.add (by omega) (hnext rfl) value
      rw [hres, ← h.next, BitVec.ofNat_toNat, BitVec.setWidth_eq]
      exact ⟨rfl, hrep⟩
  | remove idx =>
    rw [RingBuf.call, specCall]
    obtain hget | ⟨val, hget⟩ := (m.get idx.toNat).eq_none_or_eq_some
    · rw [remove_of_get_eq_none h hget, hget, Window.erase_of_get_eq_none hget]
      exact ⟨rfl, h⟩
    · obtain ⟨hres, hrep⟩ := h.remove hget
      rw [hres, hget]
      exact ⟨rfl, hrep⟩

theorem capacity_skip (fuel : ℕ) : (b.skip fuel).capacity = b.capacity := by
  induction fuel generalizing b with
  | zero => rfl
  | succ fuel ih =>
    rw [RingBuf.skip]
    split_ifs
    · exact ih
    · rfl

theorem capacity_call (c : Call w α) : (b.call c).2.capacity = b.capacity := by
  cases c with
  | add value =>
    simp only [RingBuf.call, RingBuf.add]
    split_ifs <;> rfl
  | remove idx =>
    simp only [RingBuf.call, RingBuf.remove]
    split
    · rfl
    · split_ifs
      · rfl
      · exact capacity_skip _

theorem next_specCall_le (capacity : ℕ) (c : Call w α) :
    (specCall capacity m c).2.next ≤ m.next + if c.isAdd then 1 else 0 := by
  cases c with
  | add value =>
    rw [specCall]
    split_ifs <;> simp_all [Call.isAdd]
  | remove idx => simp [specCall, Call.isAdd]

theorem next_specRun_le (capacity : ℕ) (calls : List (Call w α)) :
    (specRun capacity m calls).2.next ≤ m.next + calls.countP Call.isAdd := by
  induction calls generalizing m with
  | nil => exact le_rfl
  | cons c cs ih =>
    have hcall := next_specCall_le (m := m) capacity c
    rw [specRun, List.countP_cons]
    exact ih.trans (by omega)

/-- **A sequence of calls** returns what it returns on the window. -/
theorem Represents.run (h : b.Represents m) (calls : List (Call w α))
    (hadds : m.next + calls.countP Call.isAdd < 2 ^ w) :
    (b.run calls).1 = (specRun b.capacity.toNat m calls).1 ∧
      (b.run calls).2.Represents (specRun b.capacity.toNat m calls).2 := by
  induction calls generalizing b m with
  | nil => exact ⟨rfl, h⟩
  | cons c cs ih =>
    rw [List.countP_cons] at hadds
    have hnext := next_specCall_le (m := m) b.capacity.toNat c
    obtain ⟨hres, hrep⟩ := h.call c fun hc => by rw [if_pos hc] at hadds; omega
    obtain ⟨hres', hrep'⟩ := ih hrep (by omega)
    rw [capacity_call] at hres' hrep'
    exact ⟨by rw [RingBuf.run, specRun, hres, hres'], hrep'⟩

/-- The indices are handed out one after another. -/
theorem filterMap_idx_specRun (capacity : ℕ) (calls : List (Call w α)) :
    ∃ n, (specRun capacity m calls).2.next = m.next + n ∧
      (specRun capacity m calls).1.filterMap Outcome.idx? =
        (List.range' m.next n).map (BitVec.ofNat w) := by
  induction calls generalizing m with
  | nil => exact ⟨0, rfl, rfl⟩
  | cons c cs ih =>
    obtain ⟨n, hnext, hidx⟩ := ih (m := (specCall capacity m c).2)
    cases c with
    | add value =>
      simp only [specRun, specCall] at hnext hidx ⊢
      split_ifs at hnext hidx ⊢ with hfull
      · exact ⟨n, hnext, hidx⟩
      · refine ⟨n + 1, by rw [hnext, Window.next_push]; omega, ?_⟩
        rw [List.filterMap_cons, Outcome.idx?, hidx, List.range'_succ, List.map_cons]
        rfl
    | remove idx => exact ⟨n, hnext, hidx⟩

theorem capacity_run (calls : List (Call w α)) : (b.run calls).2.capacity = b.capacity := by
  induction calls generalizing b with
  | nil => rfl
  | cons c cs ih => rw [RingBuf.run, ih, capacity_call]

/-- What can be seen of a buffer that has returned `outcomes`, next to the window `m`. -/
structure Shows (b : RingBuf w α) (outcomes : List (Outcome w α)) (m : Window α) : Prop where
  /-- The `k`-th index handed out is `k - 1`. -/
  indices : outcomes.filterMap Outcome.idx? = (List.range m.next).map (BitVec.ofNat w)
  nextIdx : b.nextIdx.toNat = m.next
  /-- `min_idx` is the smallest index in use, or `next_idx` if there is none. -/
  minIdx : IsLeast ({k | (m.get k).isSome} ∪ {m.next}) b.minIdx.toNat
  /-- A full buffer returns the value and stays as it is. -/
  full : ∀ value, b.capacity ≤ b.nextIdx - b.minIdx → b.add value = (.error (.overflow value), b)
  /-- Otherwise the value goes to a slot that is free. -/
  free : ∀ value, ¬b.capacity ≤ b.nextIdx - b.minIdx →
    (b.add value).1 = .ok b.nextIdx ∧ b.slot b.nextIdx = none
  found : ∀ idx, (b.remove idx).1 = m.get idx.toNat
  missing : ∀ idx, m.get idx.toNat = none → (b.remove idx).2 = b

/-- **A ring buffer refines a window.** As long as fewer than `2 ^ w` values are added, whatever is
called in whatever order returns what it returns on a window. -/
theorem ringBuf_refines {capacity : Usize w} (pos : 0 < capacity.toNat) (calls : List (Call w α))
    (hadds : calls.countP Call.isAdd < 2 ^ w) :
    ∃ outcomes b m, (withCapacity capacity pos).run calls = (outcomes, b) ∧
      specRun capacity.toNat .empty calls = (outcomes, m) ∧ b.capacity = capacity ∧
      b.Shows outcomes m := by
  have hadds' : (Window.empty : Window α).next + calls.countP Call.isAdd < 2 ^ w :=
    (Nat.zero_add _).trans_lt hadds
  obtain ⟨hres, hrep⟩ := (represents_withCapacity capacity pos).run calls hadds'
  obtain ⟨n, hn, hidx⟩ := filterMap_idx_specRun (m := (.empty : Window α)) capacity.toNat calls
  refine ⟨_, _, _, rfl, Prod.ext hres.symm rfl, capacity_run calls, ?_⟩
  exact
    { indices := by
        rw [hres, List.range_eq_range',
          show (specRun _ _ calls).2.next = n from hn.trans (Nat.zero_add n)]
        exact hidx
      nextIdx := hrep.next
      minIdx := hrep.min ▸ Window.isLeast_first
      full := fun value hfull => add_of_full hfull value
      free := fun value hfull => ⟨by rw [RingBuf.add, if_neg hfull],
        hrep.slot_next (by rw [hrep.full_iff] at hfull; omega)⟩
      found := fun idx => by
        obtain hget | ⟨val, hget⟩ := (Window.get _ idx.toNat).eq_none_or_eq_some
        · rw [remove_of_get_eq_none hrep hget]
          exact hget.symm
        · rw [(hrep.remove hget).1]
          exact hget.symm
      missing := fun idx hget => by rw [remove_of_get_eq_none hrep hget] }

/-- Four values are added to a buffer of four slots and removed in another order; the slot of the
first one is used again, and its index is stale. -/
def variations : List (Call 32 String) :=
  [.add "a", .add "b", .add "c", .add "d", .add "nope!",
    .remove 1, .remove 0, .add "foo", .remove 0,
    .remove 4]

theorem ringBuf_refines_run : ∃ outcomes b m,
    (withCapacity 4 (by decide)).run variations = (outcomes, b) ∧
    specRun 4 .empty variations = (outcomes, m) ∧ b.capacity = 4 ∧ b.Shows outcomes m ∧
    outcomes = [.added (.ok 0), .added (.ok 1), .added (.ok 2), .added (.ok 3),
      .added (.error (.overflow "nope!")), .removed (some "b"), .removed (some "a"),
      .added (.ok 4), .removed none, .removed (some "foo")] := by
  obtain ⟨outcomes, b, m, hrun, hspec, hcapacity, hshows⟩ :=
    ringBuf_refines (show 0 < (4 : Usize 32).toNat by decide) variations (by decide)
  refine ⟨outcomes, b, m, hrun, hspec, hcapacity, hshows, ?_⟩
  rw [← (Prod.mk.inj hrun).1]
  decide +kernel

end RingBuf

end Wraft
