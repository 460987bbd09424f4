import Wraft.WebrtcRpc.Transport

/-!
# The wrap of `next_idx`

Where `usize` has 32 bits, `next_idx` wraps around after `2 ^ 32` requests. The test of `add` is a
subtraction, which survives that. The loop of `remove` goes around while `min_idx` is less than
`next_idx`, and after the wrap it is not: `min_idx` stays where it is.

The values are still those of a window, when an index below `min_idx` stands for a key beyond
`2 ^ w` (`Tracks`). But a buffer is full as soon as the next key is `capacity` above `min_idx`,
whatever has been removed in the meantime, and from then on for good (`Drained.accepts_iff_hasRoom`,
`HasRoom.of_append`).
-/

namespace Wraft.RingBuf

variable {w : ℕ} {α : Type*} {b : RingBuf w α} {m : Window α}

/-! ### Keys -/

/-- The key of an index: the indices below `min_idx` are handed out after the wrap. -/
def key (b : RingBuf w α) (idx : Usize w) : ℕ :=
  if idx < b.minIdx then 2 ^ w + idx.toNat else idx.toNat

theorem key_congr {b' : RingBuf w α} (h : b'.minIdx = b.minIdx) : b'.key = b.key := by
  funext idx
  rw [key, key, h]

theorem key_injective : Function.Injective b.key := by
  intro i j h
  have hi := i.isLt
  have hj := j.isLt
  simp only [key, BitVec.lt_def] at h
  refine BitVec.eq_of_toNat_eq ?_
  split_ifs at h <;> omega

theorem key_mod (hdvd : b.capacity.toNat ∣ 2 ^ w) (idx : Usize w) :
    b.key idx % b.capacity.toNat = b.dataIdx idx := by
  obtain ⟨k, hk⟩ := hdvd
  rw [key]
  split_ifs
  · rw [hk, Nat.mul_add_mod]
    rfl
  · rfl

/-- The window of a buffer, of which `next_idx` has wrapped at most once. Before the wrap `min_idx`
is the first key in use. Afterwards it stays where it was. -/
structure Tracks (b : RingBuf w α) (m : Window α) : Prop where
  next : b.nextIdx = BitVec.ofNat w m.next
  slot_iff : ∀ idx val, b.slot idx = some (idx, val) ↔ m.get (b.key idx) = some val
  placed : b.Placed
  low : b.minIdx.toNat ≤ m.first
  room : m.next ≤ b.minIdx.toNat + b.capacity.toNat
  first : m.next < 2 ^ w → b.minIdx.toNat = m.first

theorem get_key (hlow : b.minIdx.toNat ≤ m.first) (hnext : m.next ≤ 2 ^ w) (idx : Usize w) :
    m.get (b.key idx) = m.get idx.toNat := by
  rw [key]
  split_ifs with hidx
  · rw [BitVec.lt_def] at hidx
    rw [m.get_of_le _ (by omega), Window.get_of_lt_first (by omega)]
  · rfl

/-- Before the wrap. -/
theorem tracks_iff_represents (hnext : m.next < 2 ^ w) : b.Tracks m ↔ b.Represents m := by
  constructor
  · intro h
    have hmin := h.first hnext
    exact
      { next := by rw [h.next, BitVec.toNat_ofNat, Nat.mod_eq_of_lt hnext]
        slot_iff := fun idx val => by rw [h.slot_iff, get_key h.low hnext.le]
        placed := h.placed
        min := hmin
        room := hmin ▸ h.room }
  · intro h
    exact
      { next := by rw [← h.next, BitVec.ofNat_toNat, BitVec.setWidth_eq]
        slot_iff := fun idx val => by rw [h.slot_iff, get_key h.min.le hnext.le]
        placed := h.placed
        low := h.min.le
        room := h.min ▸ h.room
        first := fun _ => h.min }

theorem Tracks.min_le_next (h : b.Tracks m) : b.minIdx.toNat ≤ m.next :=
  h.low.trans m.first_le_next

/-- The test of `add` survives the wrap. -/
theorem Tracks.full_iff (h : b.Tracks m) :
    b.capacity ≤ b.nextIdx - b.minIdx ↔ b.capacity.toNat ≤ m.next - b.minIdx.toNat := by
  have hle := h.min_le_next
  have hroom := h.room
  have hcapacity := b.capacity.isLt
  have hmin := b.minIdx.isLt
  have hsum : 2 ^ w - b.minIdx.toNat + m.next = m.next - b.minIdx.toNat + 2 ^ w := by omega
  rw [BitVec.le_def, BitVec.toNat_sub, h.next, BitVec.toNat_ofNat, Nat.add_mod_mod, hsum,
    Nat.add_mod_right, Nat.mod_eq_of_lt (by omega)]

/-- After the wrap `next_idx` is behind `min_idx`. -/
theorem Tracks.nextIdx_lt (h : b.Tracks m) (hnext : 2 ^ w ≤ m.next) :
    b.nextIdx.toNat = m.next - 2 ^ w ∧ b.nextIdx.toNat < b.minIdx.toNat := by
  have hroom := h.room
  have hcapacity := b.capacity.isLt
  have hmin := b.minIdx.isLt
  rw [h.next, BitVec.toNat_ofNat, Nat.mod_eq_sub_mod hnext, Nat.mod_eq_of_lt (by omega)]
  omega

theorem Tracks.key_nextIdx (h : b.Tracks m) : b.key b.nextIdx = m.next := by
  by_cases hnext : m.next < 2 ^ w
  · have hlt : b.nextIdx.toNat = m.next := by
      rw [h.next, BitVec.toNat_ofNat, Nat.mod_eq_of_lt hnext]
    rw [key, if_neg (by rw [BitVec.lt_def, hlt]; exact h.min_le_next.not_gt), hlt]
  · obtain ⟨heq, hlt⟩ := h.nextIdx_lt (not_lt.mp hnext)
    rw [key, if_pos (BitVec.lt_def.mpr hlt), heq]
    omega

/-! ### The operations -/

/-- When there is room the slot of the next index is free, after the wrap as before it: as the
capacity divides `2 ^ w`, no two keys in use share a slot. -/
theorem Tracks.slot_next (h : b.Tracks m) (hdvd : b.capacity.toNat ∣ 2 ^ w)
    (hroom : m.next - b.minIdx.toNat < b.capacity.toNat) : b.slot b.nextIdx = none := by
  by_contra hne
  obtain ⟨⟨i, val⟩, hslot⟩ := Option.ne_none_iff_exists'.mp hne
  have hdata := h.placed _ i val hslot
  have hget : m.get (b.key i) = some val := by
    rw [← h.slot_iff, slot_congr hdata, hslot]
  have hlt := Window.lt_next_of_get hget
  have hlow := h.low.trans (Window.first_le_of_get hget)
  rw [← key_mod hdvd, ← key_mod hdvd, h.key_nextIdx] at hdata
  have heq := Window.eq_of_mod_eq hlow (by omega) h.min_le_next (by omega) hdata
  omega

theorem Tracks.add (h : b.Tracks m) (hdvd : b.capacity.toNat ∣ 2 ^ w)
    (hroom : m.next - b.minIdx.toNat < b.capacity.toNat) (value : α) :
    (b.add value).1 = .ok b.nextIdx ∧ (b.add value).2.minIdx = b.minIdx ∧
      (b.add value).2.Tracks (m.push value) := by
  have hadd : b.add value = (.ok b.nextIdx,
      { b.setSlot b.nextIdx (some (b.nextIdx, value)) with nextIdx := b.nextIdx + 1 }) :=
    if_neg (by rw [h.full_iff]; omega)
  have hkey := h.key_nextIdx
  rw [hadd]
  refine ⟨rfl, rfl, ?_⟩
  exact
    { next := by
        rw [Window.next_push, BitVec.ofNat_add, ← h.next]
        rfl
      slot_iff := fun idx val => by
        change (b.setSlot _ _).slot idx = _ ↔ (m.push value).get (b.key idx) = _
        rw [slot_setSlot_some_iff (h.slot_next hdvd hroom)]
        split_ifs with hidx
        · rw [hidx, hkey, Window.get_push_next]
          simp
        · have hne : b.key idx ≠ m.next := fun heq => hidx (key_injective (heq.trans hkey.symm))
          rw [Window.get_push_of_ne hne, h.slot_iff]
      placed := Placed.setSlot_some h.placed b.nextIdx value
      low := by
        rw [Window.first_push]
        exact h.low
      room := by
        rw [Window.next_push]
        change m.next + 1 ≤ b.minIdx.toNat + b.capacity.toNat
        omega
      first := fun hnext => by
        rw [Window.first_push]
        exact h.first (Nat.lt_of_succ_lt hnext) }

theorem Tracks.remove_of_get_eq_none (h : b.Tracks m) {idx : Usize w}
    (hget : m.get (b.key idx) = none) : b.remove idx = (none, b) := by
  refine remove_of_slot_ne fun val hslot => ?_
  rw [h.slot_iff, hget] at hslot
  cases hslot

/-- After the wrap the loop of `remove` does not go around. -/
theorem Tracks.remove_of_wrapped (h : b.Tracks m) (hnext : 2 ^ w ≤ m.next) {idx : Usize w} {val : α}
    (hslot : b.slot idx = some (idx, val)) : b.remove idx = (some val, b.setSlot idx none) := by
  have hlt := (h.nextIdx_lt hnext).2
  rw [RingBuf.remove, hslot, Nat.sub_eq_zero_of_le hlt.le]
  simp [skip]

theorem Tracks.remove (h : b.Tracks m) {idx : Usize w} {val : α}
    (hget : m.get (b.key idx) = some val) :
    (b.remove idx).1 = some val ∧ (b.remove idx).2.Tracks (m.erase (b.key idx)) := by
  by_cases hnext : m.next < 2 ^ w
  · have hkey := get_key h.low hnext.le idx
    obtain ⟨hval, hrep⟩ := ((tracks_iff_represents hnext).mp h).remove (hkey.symm.trans hget)
    have heq : b.key idx = idx.toNat := by
      have := Window.lt_next_of_get hget
      rw [key] at this ⊢
      split_ifs at this ⊢
      · omega
      · rfl
    rw [heq]
    exact ⟨hval, (tracks_iff_represents (m := m.erase idx.toNat) hnext).mpr hrep⟩
  · have hslot := (h.slot_iff idx val).mpr hget
    rw [h.remove_of_wrapped (not_lt.mp hnext) hslot]
    refine ⟨rfl, ?_⟩
    exact
      { next := h.next
        slot_iff := fun i u => by
          change _ ↔ (m.erase _).get (b.key i) = _
          rw [slot_setSlot_none_iff hslot]
          by_cases hi : i = idx
          · simp [hi]
          · rw [and_iff_right hi, h.slot_iff,
              Window.get_erase_of_ne fun heq => hi (key_injective heq)]
        placed := Placed.setSlot_none h.placed idx
        low := h.low.trans (Window.first_le_first_erase _)
        room := h.room
        first := fun hlt => absurd hlt hnext }

/-- A value is accepted, and the index that is returned gives it back. -/
def Accepts (b : RingBuf w α) (value : α) : Prop :=
  ∃ idx, (b.add value).1 = .ok idx ∧ ((b.add value).2.remove idx).1 = some value

theorem Tracks.accepts_iff (h : b.Tracks m) (hdvd : b.capacity.toNat ∣ 2 ^ w) (value : α) :
    b.Accepts value ↔ m.next < b.minIdx.toNat + b.capacity.toNat := by
  constructor
  · rintro ⟨idx, hadd, -⟩
    by_contra hfull
    rw [add_of_full (h.full_iff.mpr (by omega))] at hadd
    cases hadd
  · intro hroom
    have hlow := h.min_le_next
    obtain ⟨hadd, hmin, hpush⟩ := h.add hdvd (by omega) value
    refine ⟨b.nextIdx, hadd, (hpush.remove ?_).1⟩
    rw [key_congr hmin, h.key_nextIdx, Window.get_push_next]

/-! ### Sequences of calls -/

/-- The window of a buffer after a call. -/
def windowCall (b : RingBuf w α) (m : Window α) : Call w α → Window α
  | .add value => if b.capacity ≤ b.nextIdx - b.minIdx then m else m.push value
  | .remove idx => m.erase (b.key idx)

def windowRun (b : RingBuf w α) (m : Window α) : List (Call w α) → Window α
  | [] => m
  | c :: cs => (b.call c).2.windowRun (b.windowCall m c) cs

/-- What a call has put into the buffer. -/
def Call.accepted : Call w α → Outcome w α → List α
  | .add value, .added (.ok _) => [value]
  | _, _ => []

/-- What a call has taken out of the buffer. -/
def Outcome.returned : Outcome w α → List α
  | .removed (some val) => [val]
  | _ => []

/-- The values that were accepted, in their order. -/
def accepted (calls : List (Call w α)) (outcomes : List (Outcome w α)) : List α :=
  (calls.zip outcomes).flatMap fun p => p.1.accepted p.2

theorem accepted_cons (c : Call w α) (cs : List (Call w α)) (o : Outcome w α)
    (os : List (Outcome w α)) :
    accepted (c :: cs) (o :: os) = c.accepted o ++ accepted cs os := rfl

/-- **One call** leads from a buffer and its window to a buffer and its window, and the keys in use
are as many as the values that are neither returned nor rejected. -/
theorem Tracks.call (h : b.Tracks m) (hdvd : b.capacity.toNat ∣ 2 ^ w) (c : Call w α) :
    (b.call c).2.Tracks (b.windowCall m c) ∧
      (b.windowCall m c).keys.card + (b.call c).1.returned.length =
        m.keys.card + (c.accepted (b.call c).1).length := by
  cases c with
  | add value =>
    rw [RingBuf.call, windowCall]
    split_ifs with hfull
    · rw [add_of_full hfull]
      exact ⟨h, rfl⟩
    · obtain ⟨hadd, -, hpush⟩ := h.add hdvd (by rw [h.full_iff] at hfull; omega) value
      rw [hadd]
      exact ⟨hpush, Window.card_keys_push value⟩
  | remove idx =>
    rw [RingBuf.call, windowCall]
    obtain hget | ⟨val, hget⟩ := (m.get (b.key idx)).eq_none_or_eq_some
    · rw [h.remove_of_get_eq_none hget, Window.erase_of_get_eq_none hget]
      exact ⟨h, rfl⟩
    · obtain ⟨hval, herase⟩ := h.remove hget
      rw [hval]
      exact ⟨herase, Window.card_keys_erase hget⟩

/-- **A sequence of calls** keeps the books as well. -/
theorem Tracks.run (h : b.Tracks m) (hdvd : b.capacity.toNat ∣ 2 ^ w) (calls : List (Call w α)) :
    (b.run calls).2.Tracks (b.windowRun m calls) ∧
      (b.windowRun m calls).keys.card + ((b.run calls).1.flatMap Outcome.returned).length =
        m.keys.card + (accepted calls (b.run calls).1).length := by
  induction calls generalizing b m with
  | nil => exact ⟨h, rfl⟩
  | cons c cs ih =>
    obtain ⟨hcall, hcard⟩ := h.call hdvd c
    obtain ⟨hrun, hcards⟩ := ih hcall (by rwa [capacity_call])
    refine ⟨hrun, ?_⟩
    rw [RingBuf.run, windowRun, List.flatMap_cons, List.length_append, accepted_cons,
      List.length_append]
    omega

/-! ### Before the wrap -/

theorem Tracks.windowCall_eq (h : b.Tracks m) (hnext : m.next < 2 ^ w) (c : Call w α) :
    b.windowCall m c = (specCall b.capacity.toNat m c).2 := by
  cases c with
  | add value =>
    have hfull := h.full_iff
    rw [h.first hnext] at hfull
    rw [windowCall, specCall]
    split_ifs <;> simp_all
  | remove idx =>
    rw [windowCall, specCall, key]
    split_ifs with hidx
    · rw [BitVec.lt_def] at hidx
      have hlow := h.low
      rw [Window.erase_of_get_eq_none (m.get_of_le _ (by omega)),
        Window.erase_of_get_eq_none (Window.get_of_lt_first (by omega))]
    · rfl

theorem next_le_next_specRun (capacity : ℕ) (calls : List (Call w α)) :
    m.next ≤ (specRun capacity m calls).2.next := by
  obtain ⟨n, hn, -⟩ := filterMap_idx_specRun (m := m) capacity calls
  omega

/-- As long as `next_idx` has not wrapped, the window is that of the abstract buffer. -/
theorem Tracks.windowRun_eq (h : b.Tracks m) (hdvd : b.capacity.toNat ∣ 2 ^ w)
    (calls : List (Call w α)) (hnext : (specRun b.capacity.toNat m calls).2.next < 2 ^ w) :
    b.windowRun m calls = (specRun b.capacity.toNat m calls).2 := by
  induction calls generalizing b m with
  | nil => rfl
  | cons c cs ih =>
    have hlt : m.next < 2 ^ w := (next_le_next_specRun _ (c :: cs)).trans_lt hnext
    have hcall := h.windowCall_eq hlt c
    rw [windowRun, specRun, hcall]
    have htracks := (h.call hdvd c).1
    rw [hcall] at htracks
    have hcapacity := capacity_call (b := b) c
    rw [← hcapacity] at hnext hdvd ⊢
    exact ih (hcapacity ▸ htracks) hdvd hnext

/-! ### After the wrap -/

theorem Tracks.minIdx_remove (h : b.Tracks m) (hnext : 2 ^ w ≤ m.next) (idx : Usize w) :
    (b.remove idx).2.minIdx = b.minIdx := by
  obtain hget | ⟨val, hget⟩ := (m.get (b.key idx)).eq_none_or_eq_some
  · rw [h.remove_of_get_eq_none hget]
  · rw [h.remove_of_wrapped hnext ((h.slot_iff idx val).mpr hget)]
    rfl

/-- `min_idx` stays where it is, and so does the key at which the buffer is full. -/
theorem Tracks.call_of_wrapped (h : b.Tracks m) (hdvd : b.capacity.toNat ∣ 2 ^ w)
    (hnext : 2 ^ w ≤ m.next) (c : Call w α) :
    (b.call c).2.minIdx = b.minIdx ∧
      (b.windowCall m c).next =
        min (m.next + if c.isAdd then 1 else 0) (b.minIdx.toNat + b.capacity.toNat) := by
  have hroom := h.room
  have hlow := h.min_le_next
  cases c with
  | add value =>
    rw [RingBuf.call, windowCall]
    split_ifs with hfull hadd hadd
    · rw [add_of_full hfull]
      rw [h.full_iff] at hfull
      exact ⟨rfl, by omega⟩
    · exact absurd rfl hadd
    · rw [h.full_iff] at hfull
      refine ⟨(h.add hdvd (by omega) value).2.1, ?_⟩
      rw [Window.next_push]
      omega
    · exact absurd rfl hadd
  | remove idx =>
    refine ⟨h.minIdx_remove hnext idx, ?_⟩
    rw [windowCall, Window.next_erase, if_neg (by simp [Call.isAdd])]
    omega

theorem Tracks.run_of_wrapped (h : b.Tracks m) (hdvd : b.capacity.toNat ∣ 2 ^ w)
    (hnext : 2 ^ w ≤ m.next) (calls : List (Call w α)) :
    (b.run calls).2.minIdx = b.minIdx ∧
      (b.windowRun m calls).next =
        min (m.next + calls.countP Call.isAdd) (b.minIdx.toNat + b.capacity.toNat) := by
  induction calls generalizing b m with
  | nil => exact ⟨rfl, (min_eq_left h.room).symm⟩
  | cons c cs ih =>
    obtain ⟨hmin, hcall⟩ := h.call_of_wrapped hdvd hnext c
    have hroom := h.room
    have hcapacity := capacity_call (b := b) c
    obtain ⟨hmin', hrun⟩ := ih (h.call hdvd c).1 (by rwa [hcapacity])
      (by rw [hcall]; exact le_min (by omega) (by omega))
    refine ⟨hmin'.trans hmin, ?_⟩
    rw [hmin, hcapacity, hcall] at hrun
    rw [windowRun, hrun, List.countP_cons]
    omega

/-! ### When a buffer that was emptied accepts a value -/

/-- Every value that was accepted has been returned. -/
def Drained (b : RingBuf w α) (calls : List (Call w α)) : Prop :=
  (accepted calls (b.run calls).1).Perm ((b.run calls).1.flatMap Outcome.returned)

/-- The `add` that hands out the last index before the wrap is followed by fewer calls of `add` than
there is room for, if from the first index then in use on all indices are counted. -/
def HasRoom (capacity : ℕ) (calls : List (Call w α)) : Prop :=
  ∀ before value after, calls = before ++ .add value :: after →
    let m := (specRun capacity .empty before).2
    m.next + 1 = 2 ^ w → m.next - m.first < capacity →
      2 ^ w - m.first + after.countP Call.isAdd < capacity

theorem run_append (calls calls' : List (Call w α)) :
    b.run (calls ++ calls') =
      ((b.run calls).1 ++ ((b.run calls).2.run calls').1, ((b.run calls).2.run calls').2) := by
  induction calls generalizing b with
  | nil => rfl
  | cons c cs ih => rw [List.cons_append, run, ih, run, List.cons_append]

/-- The indices are handed out one after another, so that one is the last before the wrap. -/
theorem exists_last {capacity n : ℕ} {calls : List (Call w α)} (hm : m.next < n)
    (hn : n ≤ (specRun capacity m calls).2.next) :
    ∃ before value after, calls = before ++ .add value :: after ∧
      (specRun capacity m before).2.next + 1 = n ∧
      (specRun capacity m before).2.next - (specRun capacity m before).2.first < capacity := by
  induction calls generalizing m with
  | nil => exact absurd hn hm.not_ge
  | cons c cs ih =>
    by_cases hc : (specCall capacity m c).2.next < n
    · obtain ⟨before, value, after, rfl, hlast, hroom⟩ := ih hc hn
      exact ⟨c :: before, value, after, rfl, hlast, hroom⟩
    · cases c with
      | add value =>
        rw [specCall] at hc
        split_ifs at hc with hfull
        · exact absurd hm hc
        · rw [Window.next_push] at hc
          exact ⟨[], value, cs, rfl, by change m.next + 1 = n; omega, not_le.mp hfull⟩
      | remove idx => exact absurd hm hc

/-- Once the last index is handed out, only the calls of `add` count. -/
theorem Tracks.accepts_iff_of_last (h : b.Tracks m) (hdvd : b.capacity.toNat ∣ 2 ^ w)
    (hlast : m.next + 1 = 2 ^ w) (hroom : m.next - m.first < b.capacity.toNat) (last value : α)
    (after : List (Call w α)) :
    ((b.add last).2.run after).2.Accepts value ↔
      2 ^ w - m.first + after.countP Call.isAdd < b.capacity.toNat := by
  have hfirst := m.first_le_next
  have hmin := h.first (Nat.lt_of_succ_le hlast.le)
  obtain ⟨-, hminIdx, hpush⟩ := h.add hdvd (by rwa [hmin]) last
  have hcapacity : (b.add last).2.capacity = b.capacity := capacity_call (.add last)
  have hdvd' : (b.add last).2.capacity.toNat ∣ 2 ^ w := by rwa [hcapacity]
  -- from here on `min_idx` stays at the first index in use
  obtain ⟨hstuck, hnext⟩ := hpush.run_of_wrapped hdvd' hlast.ge after
  have hafter := (hpush.run hdvd' after).1
  rw [hafter.accepts_iff (by rwa [capacity_run]), hnext, hstuck, capacity_run, hminIdx, hcapacity,
    hmin, Window.next_push, hlast]
  omega

/-- As long as the last index is not handed out, an emptied buffer accepts. -/
theorem Tracks.accepts_of_keys_eq (h : b.Tracks m) (hdvd : b.capacity.toNat ∣ 2 ^ w)
    (hnext : m.next < 2 ^ w) (hkeys : m.keys = ∅) (value : α) : b.Accepts value := by
  rw [h.accepts_iff hdvd, h.first hnext, Window.first_eq_next hkeys]
  exact Nat.lt_add_of_pos_right b.pos

section

variable {capacity : Usize w} (pos : 0 < capacity.toNat)

theorem tracks_withCapacity : (withCapacity capacity pos : RingBuf w α).Tracks .empty :=
  (tracks_iff_represents (Nat.two_pow_pos w)).mpr (represents_withCapacity capacity pos)

theorem tracks_run (hdvd : capacity.toNat ∣ 2 ^ w) {calls : List (Call w α)}
    (hnext : (specRun capacity.toNat .empty calls).2.next < 2 ^ w) :
    ((withCapacity capacity pos).run calls).2.Tracks (specRun capacity.toNat .empty calls).2 := by
  have heq := (tracks_withCapacity pos).windowRun_eq hdvd calls hnext
  exact heq ▸ ((tracks_withCapacity pos).run hdvd calls).1

theorem Drained.keys_eq (hdvd : capacity.toNat ∣ 2 ^ w) {calls : List (Call w α)}
    (h : (withCapacity capacity pos).Drained calls)
    (hnext : (specRun capacity.toNat .empty calls).2.next < 2 ^ w) :
    (specRun capacity.toNat .empty calls).2.keys = ∅ := by
  have heq := (tracks_withCapacity pos).windowRun_eq hdvd calls hnext
  have hcard := ((tracks_withCapacity pos).run hdvd calls).2
  rw [heq, h.length_eq, Window.keys_empty, Finset.card_empty, Nat.zero_add] at hcard
  exact Finset.card_eq_zero.mp (Nat.add_eq_right.mp hcard)

theorem accepts_iff_of_last (hdvd : capacity.toNat ∣ 2 ^ w) {before after : List (Call w α)}
    (hlast : (specRun capacity.toNat .empty before).2.next + 1 = 2 ^ w)
    (hroom : (specRun capacity.toNat .empty before).2.next -
      (specRun capacity.toNat .empty before).2.first < capacity.toNat) (last value : α) :
    ((withCapacity capacity pos).run (before ++ .add last :: after)).2.Accepts value ↔
      2 ^ w - (specRun capacity.toNat .empty before).2.first + after.countP Call.isAdd <
        capacity.toNat := by
  have hcapacity : ((withCapacity capacity pos).run before).2.capacity = capacity := capacity_run _
  have htracks := tracks_run pos hdvd (Nat.lt_of_succ_le hlast.le)
  have hiff := htracks.accepts_iff_of_last (by rwa [hcapacity]) hlast (by rwa [hcapacity]) last
    value after
  rw [hcapacity] at hiff
  rw [run_append]
  exact hiff

end

/-- **A buffer that was emptied** accepts a value if and only if there was room for the calls of
`add` since the last index before the wrap was handed out. -/
theorem Drained.accepts_iff_hasRoom {capacity : Usize w} {pos : 0 < capacity.toNat}
    {calls : List (Call w α)} (h : (withCapacity capacity pos).Drained calls)
    (hdvd : capacity.toNat ∣ 2 ^ w) (value : α) :
    ((withCapacity capacity pos).run calls).2.Accepts value ↔ HasRoom capacity.toNat calls := by
  constructor
  · rintro haccepts before last after rfl m hlast hroom
    exact (accepts_iff_of_last pos hdvd hlast hroom last value).mp haccepts
  · intro hasRoom
    by_cases hnext : (specRun capacity.toNat .empty calls).2.next < 2 ^ w
    · have hcapacity : ((withCapacity capacity pos).run calls).2.capacity = capacity :=
        capacity_run _
      exact (tracks_run pos hdvd hnext).accepts_of_keys_eq (by rwa [hcapacity]) hnext
        (h.keys_eq pos hdvd hnext) value
    · -- one of the calls hands out the last index
      obtain ⟨before, last, after, rfl, hlast, hroom⟩ :=
        exists_last (m := .empty) (Nat.two_pow_pos w) (not_lt.mp hnext)
      exact (accepts_iff_of_last pos hdvd hlast hroom last value).mpr
        (hasRoom before last after rfl hlast hroom)

/-- Fewer than `2 ^ w` calls of `add` do not come to the last index. -/
theorem hasRoom_of_countP_lt (capacity : ℕ) {calls : List (Call w α)}
    (h : calls.countP Call.isAdd < 2 ^ w) : HasRoom capacity calls := by
  rintro before last after rfl m hnext
  have hle := next_specRun_le (m := (.empty : Window α)) capacity before
  rw [List.countP_append, List.countP_cons_of_pos rfl] at h
  change m.next ≤ 0 + _ at hle
  omega

/-- A buffer for which there is no room does not get it back. -/
theorem HasRoom.of_append {capacity : ℕ} {calls calls' : List (Call w α)}
    (h : HasRoom capacity (calls ++ calls')) : HasRoom capacity calls := by
  rintro before last after rfl m hnext hroom
  have hlt := h before last (after ++ calls') (by simp) hnext hroom
  rw [List.countP_append] at hlt
  exact (Nat.add_le_add_left (Nat.le_add_right _ _) _).trans_lt hlt

/-- The requests in flight of a new connection. -/
def inFlight : RingBuf 32 α :=
  withCapacity (WebrtcRpc.maxInFlightRequests 32) (WebrtcRpc.maxInFlightRequests_pos (by decide))

/-- **When no request is in flight** another one is accepted, and its index gives it back, if and
only if there was room for the requests made since the last index before the wrap was handed out. -/
theorem inFlight_accepts_iff {calls : List (Call 32 α)} (h : inFlight.Drained calls) (value : α) :
    (inFlight.run calls).2.Accepts value ↔ HasRoom 1024 calls :=
  h.accepts_iff_hasRoom (by decide) value

/-- Three requests, of which the second is answered first. -/
def threeAnswered : List (Call 32 ℕ) := [.add 7, .add 8, .remove 1, .remove 0, .add 9, .remove 2]

theorem inFlight_accepts_iff_threeAnswered :
    (inFlight.run threeAnswered).2.Accepts 10 ↔ HasRoom 1024 threeAnswered :=
  inFlight_accepts_iff (by rw [Drained]; decide +kernel) 10

/-! ### Requests that are answered one at a time -/

/-- `n` requests, each answered before the next is made, from index `k` on. -/
def oneByOne (k : ℕ) : ℕ → List (Call w Unit)
  | 0 => []
  | n + 1 => .add () :: .remove (BitVec.ofNat w k) :: oneByOne (k + 1) n

/-- What a request and its answer leave of an empty buffer. Past the last index, `min_idx` is not
what it should be. -/
theorem Tracks.add_remove (h : b.Tracks m) (hdvd : b.capacity.toNat ∣ 2 ^ w) (hkeys : m.keys = ∅)
    (hroom : m.next - b.minIdx.toNat < b.capacity.toNat) (value : α) :
    (b.add value).1 = .ok b.nextIdx ∧
      ((b.add value).2.remove (BitVec.ofNat w m.next)).1 = some value ∧
      ∃ m', ((b.add value).2.remove (BitVec.ofNat w m.next)).2.Tracks m' ∧ m'.keys = ∅ ∧
        m'.next = m.next + 1 ∧
        (2 ^ w ≤ m'.next →
          ((b.add value).2.remove (BitVec.ofNat w m.next)).2.minIdx = b.minIdx) := by
  obtain ⟨hadd, hmin, hpush⟩ := h.add hdvd hroom value
  have hkey : (b.add value).2.key b.nextIdx = m.next := by rw [key_congr hmin, h.key_nextIdx]
  have hget : (m.push value).get ((b.add value).2.key b.nextIdx) = some value := by
    rw [hkey, Window.get_push_next]
  obtain ⟨hremove, herase⟩ := hpush.remove hget
  rw [← h.next]
  refine ⟨hadd, hremove, _, herase, ?_, rfl, fun hnext => ?_⟩
  · have hcard := Window.card_keys_erase hget
    rw [Window.card_keys_push, hkeys, Finset.card_empty] at hcard
    exact Finset.card_eq_zero.mp (Nat.succ.inj hcard)
  · rw [hpush.minIdx_remove hnext, hmin]

/-- All the requests are answered, and `min_idx` stops at the last index. -/
theorem Tracks.run_oneByOne {b : RingBuf w Unit} {m : Window Unit} (h : b.Tracks m)
    (hdvd : b.capacity.toNat ∣ 2 ^ w) (hkeys : m.keys = ∅)
    (hmin : b.minIdx.toNat = min m.next (2 ^ w - 1)) (n : ℕ)
    (hroom : m.next + n < 2 ^ w + b.capacity.toNat) :
    b.Drained (oneByOne m.next n) ∧
      ∃ m', (b.run (oneByOne m.next n)).2.Tracks m' ∧ m'.next = m.next + n ∧
        (b.run (oneByOne m.next n)).2.minIdx.toNat = min m'.next (2 ^ w - 1) := by
  induction n generalizing b m with
  | zero => exact ⟨.refl _, m, h, rfl, hmin⟩
  | succ n ih =>
    have hpos := b.pos
    obtain ⟨hadd, hremove, m', htracks, hkeys', hnext, hstuck⟩ :=
      h.add_remove hdvd hkeys (by omega) ()
    have hcapacity : ((b.add ()).2.remove (BitVec.ofNat w m.next)).2.capacity = b.capacity :=
      (capacity_call (.remove _)).trans (capacity_call (.add ()))
    have hmin' : ((b.add ()).2.remove (BitVec.ofNat w m.next)).2.minIdx.toNat =
        min m'.next (2 ^ w - 1) := by
      -- before the wrap it moves to the next index, and then no further
      by_cases hlt : m'.next < 2 ^ w
      · rw [htracks.first hlt, Window.first_eq_next hkeys']
        omega
      · rw [hstuck (not_lt.mp hlt), hmin]
        omega
    obtain ⟨hdrained, m'', htracks'', hnext'', hmin''⟩ :=
      ih htracks (by rwa [hcapacity]) hkeys' hmin' (by rw [hcapacity]; omega)
    rw [hnext] at hdrained htracks'' hmin''
    refine ⟨?_, m'', htracks'', by omega, hmin''⟩
    rw [Drained, oneByOne, RingBuf.run, RingBuf.run, RingBuf.call, RingBuf.call, hadd, hremove]
    exact hdrained.cons ()

/-- After all indices, 1023 more requests are answered, but then a request is rejected although none
is in flight. -/
theorem not_inFlight_accepts : ¬∀ (calls : List (Call 32 Unit)) (value : Unit),
    inFlight.Drained calls → (inFlight.run calls).2.Accepts value := by
  intro haccepts
  have htracks : (inFlight : RingBuf 32 Unit).Tracks .empty := tracks_withCapacity _
  obtain ⟨hdrained, m, hm, hnext, hmin⟩ :=
    htracks.run_oneByOne (by decide) Window.keys_empty rfl (2 ^ 32 + 1023) (by decide)
  have haccept := haccepts _ () hdrained
  rw [hm.accepts_iff (by rw [capacity_run]; decide), hmin, hnext, capacity_run] at haccept
  exact absurd haccept (by decide)

end Wraft.RingBuf
