import Mathlib.Data.Finset.Erase
import Mathlib.Data.Finset.Insert

/-!
# The guards of a reader-writer lock

Who holds a read guard and who holds the write guard of a lock. That a write guard excludes all
others is part of the type: `readLock` and `writeLock` are possible only when they keep it, so that
a holder's read guard rules out every writer (`Reads.not_writes`).
-/

/-- The guards given out by a reader-writer lock. -/
structure Guards (ι : Type*) where
  readers : Finset ι
  writer : Option ι
  exclusive : writer = none ∨ readers = ∅

namespace Guards

variable {ι : Type*}

/-- `i` holds a read guard. -/
def Reads (g : Guards ι) (i : ι) : Prop := i ∈ g.readers

/-- `i` holds the write guard. -/
def Writes (g : Guards ι) (i : ι) : Prop := g.writer = some i

theorem Reads.not_writes {g : Guards ι} {i j : ι} (h : g.Reads i) : ¬g.Writes j := by
  intro hw
  obtain hnone | hempty := g.exclusive
  · exact nomatch hnone.symm.trans hw
  · rw [Reads, hempty] at h
    exact Finset.notMem_empty i h

/-- There are no guards. -/
def free : Guards ι where
  readers := ∅
  writer := none
  exclusive := .inl rfl

variable [DecidableEq ι]

/-- `i` takes a read guard, unless there is a writer. -/
def readLock (g : Guards ι) (i : ι) : Option (Guards ι) :=
  if h : g.writer = none then some { g with readers := insert i g.readers, exclusive := .inl h }
  else none

/-- `i` takes the write guard, unless there is another guard. -/
def writeLock (g : Guards ι) (i : ι) : Option (Guards ι) :=
  if h : g.writer = none ∧ g.readers = ∅ then
    some { g with writer := some i, exclusive := .inr h.2 }
  else none

/-- `i` drops what it holds. -/
def release (g : Guards ι) (i : ι) : Guards ι where
  readers := g.readers.erase i
  writer := if g.writer = some i then none else g.writer
  exclusive := by
    obtain h | h := g.exclusive
    · exact .inl (by rw [h]; rfl)
    · exact .inr (by rw [h]; rfl)

variable {g g' : Guards ι} {i j : ι}

theorem reads_of_readLock (h : g.readLock i = some g') : g'.Reads i := by
  rw [readLock] at h
  split_ifs at h
  obtain rfl := Option.some.inj h
  exact Finset.mem_insert_self i _

theorem writes_of_writeLock (h : g.writeLock i = some g') : g'.Writes i := by
  rw [writeLock] at h
  split_ifs at h
  obtain rfl := Option.some.inj h
  rfl

theorem Reads.readLock (h : g.Reads j) (hg : g.readLock i = some g') : g'.Reads j := by
  rw [Guards.readLock] at hg
  split_ifs at hg
  obtain rfl := Option.some.inj hg
  exact Finset.mem_insert_of_mem h

theorem Writes.readLock (h : g.Writes j) (hg : g.readLock i = some g') : g'.Writes j := by
  rw [Guards.readLock] at hg
  split_ifs at hg
  obtain rfl := Option.some.inj hg
  exact h

/-- Nobody holds a guard when the write guard is taken. -/
theorem not_reads_of_writeLock (hg : g.writeLock i = some g') : ¬g.Reads j := by
  rw [writeLock] at hg
  split_ifs at hg with h
  rw [Reads, h.2]
  exact Finset.notMem_empty j

theorem not_writes_of_writeLock (hg : g.writeLock i = some g') : ¬g.Writes j := by
  rw [writeLock] at hg
  split_ifs at hg with h
  rw [Writes, h.1]
  exact nofun

theorem Reads.release (h : g.Reads j) (hne : j ≠ i) : (g.release i).Reads j :=
  Finset.mem_erase.mpr ⟨hne, h⟩

theorem Writes.release (h : g.Writes j) (hne : j ≠ i) : (g.release i).Writes j := by
  have hwriter : g.writer = some j := h
  show (if g.writer = some i then none else g.writer) = some j
  rw [hwriter, if_neg fun heq => hne (Option.some.inj heq)]

end Guards
