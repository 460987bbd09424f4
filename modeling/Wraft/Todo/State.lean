import Mathlib.Data.List.DropRight
import Mathlib.Data.Nat.Notation

/-!
# `todo_state.rs`

The replicated state of the todo list and its commands. A command is applied by a computation on
the state that may panic (`Apply`): where the source unwraps the entry at a position of the
filtered list, and where it indexes the unfiltered one. What was written before a panic stays.

`handleStateMachine` are the commands that arrive on `state_machine_rx`, one after the other.
-/

namespace Wraft.Todo

structure Entry where
  description : String
  completed : Bool
  editing : Bool
  deriving DecidableEq, Repr

inductive Filter where
  | all
  | active
  | completed
  deriving DecidableEq, Repr

def Filter.fits : Filter → Entry → Bool
  | all, _ => true
  | active, entry => !entry.completed
  | completed, entry => entry.completed

structure State where
  entries : List Entry
  filter : Filter
  value : String
  editValue : String
  deriving DecidableEq, Repr

instance : Inhabited State where
  default := { entries := [], filter := .all, value := "", editValue := "" }

inductive Msg where
  | add
  | edit (idx : ℕ)
  | update (val : String)
  | updateEdit (val : String)
  | remove (idx : ℕ)
  | setFilter (filter : Filter)
  | toggleAll
  | toggleEdit (idx : ℕ)
  | toggle (idx : ℕ)
  | clearCompleted
  deriving DecidableEq, Repr

/-- The ways in which a command can panic. -/
inductive Panic where
  /-- `unwrap` of `None` -/
  | unwrap
  /-- `self.entries[idx]` out of bounds -/
  | index
  deriving DecidableEq, Repr

/-- Code that works on the state and may panic. -/
abbrev Apply := EStateM Panic State Unit

/-! ### Strings -/

/-- `char::is_whitespace`: the characters with the property `White_Space`. -/
def isWhitespace (c : Char) : Bool :=
  (0x9 ≤ c.toNat && c.toNat ≤ 0xd) || (0x2000 ≤ c.toNat && c.toNat ≤ 0x200a) ||
    c.toNat ∈ [0x20, 0x85, 0xa0, 0x1680, 0x2028, 0x2029, 0x202f, 0x205f, 0x3000]

/-- `str::trim` -/
def trim (s : String) : String :=
  String.ofList ((s.toList.dropWhile isWhitespace).rdropWhile isWhitespace)

namespace State

/-! ### Positions in the filtered list -/

/-- The entries that fit the filter. -/
def visible (s : State) : List Entry := s.entries.filter s.filter.fits

/-- The position in `entries` of the `idx`-th entry that fits the filter. -/
def position (s : State) (idx : ℕ) : Option ℕ :=
  ((s.entries.zipIdx.filter fun p => s.filter.fits p.1)[idx]?).map (·.2)

/-- What is done to the entry at `iter_mut().filter(..).nth(idx).unwrap()`. -/
def updateNth (idx : ℕ) (f : Entry → Entry) : Apply := do
  let s ← get
  match s.position idx with
  | some p => set { s with entries := s.entries.modify p f }
  | none => throw .unwrap

/-! ### Commands -/

def isAllCompleted (s : State) : Bool :=
  !s.visible.isEmpty && s.visible.all (·.completed)

def clearCompleted (s : State) : State :=
  { s with entries := s.entries.filter Filter.active.fits }

def toggle (idx : ℕ) : Apply :=
  updateNth idx fun entry => { entry with completed := !entry.completed }

def toggleAll (value : Bool) (s : State) : State :=
  { s with entries := s.entries.map fun entry =>
      if s.filter.fits entry then { entry with completed := value } else entry }

def toggleEdit (idx : ℕ) : Apply :=
  updateNth idx fun entry => { entry with editing := !entry.editing }

def clearAllEdit (s : State) : State :=
  { s with entries := s.entries.map fun entry => { entry with editing := false } }

def remove (idx : ℕ) : Apply := do
  let s ← get
  match s.position idx with
  | some p => set { s with entries := s.entries.eraseIdx p }
  | none => throw .unwrap

def completeEdit (idx : ℕ) (val : String) : Apply :=
  if val.isEmpty then remove idx
  else updateNth idx fun entry => { entry with description := val, editing := !entry.editing }

def apply : Msg → Apply
  | .add => modify fun s =>
    let description := trim s.value
    let entries := if description.isEmpty then s.entries
      else s.entries ++ [{ description, completed := false, editing := false }]
    { s with entries, value := "" }
  | .edit idx => do
    let editValue := trim (← get).editValue
    completeEdit idx editValue
    modify fun s => { s with editValue := "" }
  | .update val => modify fun s => { s with value := val }
  | .updateEdit val => modify fun s => { s with editValue := val }
  | .remove idx => remove idx
  | .setFilter filter => modify fun s => { s with filter }
  | .toggleEdit idx => do
    let s ← get
    -- the index of the filtered list, in the list of all entries
    match s.entries[idx]? with
    | some entry =>
      set { s with editValue := entry.description }
      modify clearAllEdit
      toggleEdit idx
    | none => throw .index
  | .toggleAll => modify fun s => s.toggleAll (!s.isAllCompleted)
  | .toggle idx => toggle idx
  | .clearCompleted => modify clearCompleted

end State

/-- The commands of `Raft::handle_state_machine`. -/
def handleStateMachine (msgs : List Msg) : Apply := msgs.forM State.apply

end Wraft.Todo
