import Oxidizer.Lib.Runs
/-!
# The uniflight merger

`Merger::execute` obtains a cell for its key from a map of weak references,
waits for the cell's value, drops its reference and runs a conditional
removal. The model is one partition of the merger: the map, the cells that
were ever allocated, and the calls, each with the point of `execute` it has
reached. Every map operation holds the lock of the key's shard and is one
step; between two steps of a call any other call may take any number.

A cell is `async_once_cell::OnceCell` as its documentation has it: at most one
initialiser runs at a time, dropping it lets another waiter run its own, and
the first value that is completed stays. A weak reference upgrades while some
call still holds an `Arc` to the cell.
-/

namespace Uniflight

open Lib Option

/-! ## Panics of the leader -/

/-- The payload of a panic, as far as `extract_panic_message` looks at it. -/
inductive Payload where
  | str (s : String)
  | string (s : String)
  | other
deriving DecidableEq

def extract_panic_message : Payload → String
  | .str s => s
  | .string s => s
  | .other => "unknown panic"

structure LeaderPanicked where
  message : String
deriving DecidableEq

/-- How the future of a user function ends. -/
inductive Ending (T : Type) where
  | value (v : T)
  | panic (payload : Payload)
deriving DecidableEq

/-- What `PanicAwareCell::get_or_init` stores: the value, or the caught panic. -/
def Ending.result {T : Type} : Ending T → Except LeaderPanicked T
  | .value v => .ok v
  | .panic payload => .error ⟨extract_panic_message payload⟩

/-! ## Cells, calls and the map -/

/-- A cell: the value with the call whose function produced it, and the call
whose function is running. The key is that of the call that allocated it. -/
structure Cell (K T : Type) where
  key : K
  value : Option (Except LeaderPanicked T × Nat)
  initialiser : Option Nat

def Cell.new {K T : Type} (key : K) : Cell K T := ⟨key, none, none⟩

/-- The point of `execute` a call has reached. -/
inductive Stage (T : Type) where
  /-- before the fast path of `get_or_create_cell` -/
  | lookup
  /-- before `insert_or_get_existing` -/
  | insert
  /-- `execute` has returned the future, which has not been polled -/
  | ready
  /-- `func()` was called; its future waits for the cell -/
  | waiting
  /-- its own future is the initialiser of the cell -/
  | running
  /-- the cell has a value and the call looks at it -/
  | read (result : Except LeaderPanicked T)
  /-- the result is cloned and the `Arc` dropped; `remove_if` comes next -/
  | cleaning (result : Except LeaderPanicked T)
  | returned (result : Except LeaderPanicked T)
  /-- the future was dropped, or unwinds; its `Arc` goes next -/
  | releasing
  | gone

namespace Stage
variable {T : Type}

/-- Whether a call at this point has an `Arc` to its cell. -/
def holds : Stage T → Bool
  | .ready | .waiting | .running | .read _ | .releasing => true
  | _ => false

/-- Points a call moves to on its own, without a word to the map or to its cell. -/
def underway : Stage T → Bool
  | .waiting | .read _ | .cleaning _ | .releasing => true
  | _ => false

def ended : Stage T → Bool
  | .returned _ | .gone => true
  | _ => false

/-- The result a call at this point has taken from its cell. -/
def result : Stage T → Option (Except LeaderPanicked T)
  | .read r | .cleaning r | .returned r => some r
  | _ => none

end Stage

/-- A call of `execute`. `cell` is the cell it obtained; `alone` says that no
other call on the key was outstanding when it started. -/
structure Call (K T : Type) where
  key : K
  stage : Stage T
  cell : Option Nat
  alone : Bool

structure World (K T : Type) [DecidableEq K] where
  entries : AList (fun _ : K => Nat)
  cells : List (Cell K T)
  calls : List (Call K T)

namespace World
variable {K T : Type} [DecidableEq K]

def new : World K T := ⟨∅, [], []⟩

/-- Some call holds an `Arc` to the cell. -/
def alive (w : World K T) (c : Nat) : Bool := w.calls.any fun call => call.stage.holds && call.cell == some c

/-- Some call on the key has started and neither returned nor been dropped. -/
def outstanding (w : World K T) (key : K) : Bool := w.calls.any fun call => call.key == key && !call.stage.ended

/-- `map.get(key)` and `upgrade` of what it finds. -/
def live_cell (w : World K T) (key : K) : Option Nat :=
  match w.entries.lookup key with
  | some c => if w.alive c then some c else none
  | none => none

/-! ## The steps of a call -/

def set (w : World K T) (i : Nat) (call : Call K T) : World K T := { w with calls := w.calls.set i call }

def set_cell (w : World K T) (c : Nat) (cell : Cell K T) : World K T := { w with cells := w.cells.set c cell }

def get_or_create_cell (w : World K T) (i : Nat) (call : Call K T) : World K T :=
  match w.live_cell call.key with
  | some c => w.set i { call with stage := .ready, cell := some c }
  | none => w.set i { call with stage := .insert }

/-- An entry whose cell is no longer alive is replaced like a missing one. -/
def insert_or_get_existing (w : World K T) (i : Nat) (call : Call K T) : World K T :=
  match w.live_cell call.key with
  | some c => w.set i { call with stage := .ready, cell := some c }
  | none =>
    let c := w.cells.length
    { entries := w.entries.insert call.key c
      cells := w.cells ++ [Cell.new call.key]
      calls := w.calls.set i { call with stage := .ready, cell := some c } }

/-- `entries.remove_if(key, |_, weak| weak.upgrade().is_none())`. -/
def remove_if (w : World K T) (key : K) : World K T :=
  match w.entries.lookup key with
  | some c => if w.alive c then w else { w with entries := w.entries.erase key }
  | none => w

end World

/-- What happens next, and to which call. -/
inductive Action (K T : Type) where
  | execute (key : K)
  | get_or_create_cell (i : Nat)
  | insert_or_get_existing (i : Nat)
  /-- the first poll: `func()` is called and its future boxed -/
  | call_func (i : Nat)
  /-- the cell starts to poll the call's own future -/
  | lead (i : Nat)
  | finish (i : Nat) (ending : Ending T)
  | read (i : Nat)
  | drop_cell (i : Nat)
  | remove_if (i : Nat)
  /-- the future is dropped before it completes -/
  | cancel (i : Nat)
  /-- `func()` panics when it is called, or the clone of the result does -/
  | unwind (i : Nat)
  | release (i : Nat)

/-- The next step of a call, if this can be it. -/
def World.step {K T : Type} [DecidableEq K] (w : World K T) : Action K T → Option (World K T)
  | .execute key => some { w with calls := w.calls ++ [⟨key, .lookup, none, !w.outstanding key⟩] }
  | .get_or_create_cell i => do
    let call ← w.calls[i]?
    match call.stage with
    | .lookup => some (w.get_or_create_cell i call)
    | _ => none
  | .insert_or_get_existing i => do
    let call ← w.calls[i]?
    match call.stage with
    | .insert => some (w.insert_or_get_existing i call)
    | _ => none
  | .call_func i => do
    let call ← w.calls[i]?
    match call.stage with
    | .ready => some (w.set i { call with stage := .waiting })
    | _ => none
  | .lead i => do
    let call ← w.calls[i]?
    let c ← call.cell
    let cell ← w.cells[c]?
    match call.stage, cell.value, cell.initialiser with
    | .waiting, none, none =>
      some ((w.set i { call with stage := .running }).set_cell c { cell with initialiser := some i })
    | _, _, _ => none
  | .finish i ending => do
    let call ← w.calls[i]?
    let c ← call.cell
    let cell ← w.cells[c]?
    match call.stage with
    | .running =>
      some ((w.set i { call with stage := .read ending.result }).set_cell c
        { cell with value := some (ending.result, i), initialiser := none })
    | _ => none
  | .read i => do
    let call ← w.calls[i]?
    let c ← call.cell
    let cell ← w.cells[c]?
    match call.stage, cell.value with
    | .waiting, some (result, _) => some (w.set i { call with stage := .read result })
    | _, _ => none
  | .drop_cell i => do
    let call ← w.calls[i]?
    match call.stage with
    | .read result => some (w.set i { call with stage := .cleaning result })
    | _ => none
  | .remove_if i => do
    let call ← w.calls[i]?
    match call.stage with
    | .cleaning result => some ((w.set i { call with stage := .returned result }).remove_if call.key)
    | _ => none
  | .cancel i => do
    let call ← w.calls[i]?
    let c ← call.cell
    let cell ← w.cells[c]?
    match call.stage with
    | .ready | .waiting => some (w.set i { call with stage := .releasing })
    | .running => some ((w.set i { call with stage := .releasing }).set_cell c { cell with initialiser := none })
    | _ => none
  | .unwind i => do
    let call ← w.calls[i]?
    match call.stage with
    | .ready | .read _ => some (w.set i { call with stage := .releasing })
    | _ => none
  | .release i => do
    let call ← w.calls[i]?
    match call.stage with
    | .releasing => some (w.set i { call with stage := .gone })
    | _ => none

/-- Any number of calls on any keys, in every order. -/
def merger (K T : Type) [DecidableEq K] : Lts (World K T) (Action K T) where
  init w := w = .new
  step w a w' := w.step a = some w'

/-! ## What a step does -/

/-- What a step does, case by case: a call starts; it finds no live cell, joins
one, or allocates one; it moves on along its own code; its function starts to
run, ends or is dropped; it runs the removal and returns; its `Arc` goes. -/
inductive Step {K T : Type} [DecidableEq K] (w : World K T) : Action K T → World K T → Prop where
  | execute (key : K) :
      Step w (.execute key) { w with calls := w.calls ++ [⟨key, .lookup, none, !w.outstanding key⟩] }
  | misses (i : Nat) (call : Call K T) (hi : w.calls[i]? = some call) (hs : call.stage = .lookup) :
      Step w (.get_or_create_cell i) (w.set i { call with stage := .insert })
  | joins (a : Action K T) (i : Nat) (call : Call K T) (c : Nat) (hi : w.calls[i]? = some call)
      (ha : ∀ k, a ≠ .release k) (hs : call.stage = .lookup ∨ call.stage = .insert)
      (hl : w.live_cell call.key = some c) : Step w a (w.set i { call with stage := .ready, cell := some c })
  | creates (i : Nat) (call : Call K T) (hi : w.calls[i]? = some call) (hs : call.stage = .insert)
      (hl : w.live_cell call.key = none) :
      Step w (.insert_or_get_existing i)
        { entries := w.entries.insert call.key w.cells.length
          cells := w.cells ++ [Cell.new call.key]
          calls := w.calls.set i { call with stage := .ready, cell := some w.cells.length } }
  | moves (a : Action K T) (i : Nat) (call : Call K T) (stage : Stage T) (hi : w.calls[i]? = some call)
      (ha : ∀ k, a ≠ .release k) (hh : call.stage.holds = true) (hu : stage.underway = true)
      (hv : ∀ r, stage.result = some r → call.stage.result = some r ∨
        ∃ c cell j, call.cell = some c ∧ w.cells[c]? = some cell ∧ cell.value = some (r, j)) :
      Step w a (w.set i { call with stage })
  | leads (i : Nat) (call : Call K T) (c : Nat) (cell : Cell K T) (hi : w.calls[i]? = some call)
      (hc : call.cell = some c) (hcell : w.cells[c]? = some cell) (hs : call.stage = .waiting)
      (hv : cell.value = none) (hn : cell.initialiser = none) :
      Step w (.lead i) ((w.set i { call with stage := .running }).set_cell c { cell with initialiser := some i })
  | finishes (i : Nat) (ending : Ending T) (call : Call K T) (c : Nat) (cell : Cell K T)
      (hi : w.calls[i]? = some call) (hc : call.cell = some c) (hcell : w.cells[c]? = some cell)
      (hs : call.stage = .running) :
      Step w (.finish i ending) ((w.set i { call with stage := .read ending.result }).set_cell c
        { cell with value := some (ending.result, i), initialiser := none })
  | drops (i : Nat) (call : Call K T) (c : Nat) (cell : Cell K T) (hi : w.calls[i]? = some call)
      (hc : call.cell = some c) (hcell : w.cells[c]? = some cell) (hs : call.stage = .running) :
      Step w (.cancel i) ((w.set i { call with stage := .releasing }).set_cell c { cell with initialiser := none })
  | returns (i : Nat) (call : Call K T) (r : Except LeaderPanicked T) (hi : w.calls[i]? = some call)
      (hs : call.stage = .cleaning r) :
      Step w (.remove_if i) ((w.set i { call with stage := .returned r }).remove_if call.key)
  | releases (i : Nat) (call : Call K T) (hi : w.calls[i]? = some call) (hs : call.stage = .releasing) :
      Step w (.release i) (w.set i { call with stage := .gone })

theorem step_cases {K T : Type} [DecidableEq K] {w w' : World K T} {a : Action K T} (h : w.step a = some w') :
    Step w a w' := by
  cases a
  case execute key => cases h; exact .execute key
  all_goals obtain ⟨call, hi, h⟩ := bind_eq_some_iff.mp h
  case' lead | finish | read | cancel =>
    obtain ⟨c, hc, h⟩ := bind_eq_some_iff.mp h
    obtain ⟨cell, hcell, h⟩ := bind_eq_some_iff.mp h
  case get_or_create_cell =>
    split at h
    · rename_i hs
      cases h
      unfold World.get_or_create_cell
      split
      · exact .joins _ _ call _ hi (by simp) (.inl hs) ‹_›
      · exact .misses _ call hi hs
    · cases h
  case insert_or_get_existing =>
    split at h
    · rename_i hs
      cases h
      unfold World.insert_or_get_existing
      split
      · exact .joins _ _ call _ hi (by simp) (.inr hs) ‹_›
      · exact .creates _ call hi hs ‹_›
    · cases h
  case call_func =>
    split at h
    · rename_i hs
      cases h
      exact .moves _ _ call _ hi (by simp) (by rw [hs]; rfl) rfl (fun r hr => by cases hr)
    · cases h
  case lead =>
    split at h
    · cases h
      exact .leads _ call c cell hi hc hcell ‹_› ‹_› ‹_›
    · cases h
  case finish =>
    split at h
    · cases h
      exact .finishes _ _ call c cell hi hc hcell ‹_›
    · cases h
  case read =>
    split at h
    · rename_i hs hv
      cases h
      refine .moves _ _ call _ hi (by simp) (by rw [hs]; rfl) rfl ?_
      intro r hr
      cases hr
      exact .inr ⟨c, cell, _, hc, hcell, hv⟩
    · cases h
  case drop_cell =>
    split at h
    · rename_i hs
      cases h
      refine .moves _ _ call _ hi (by simp) (by rw [hs]; rfl) rfl ?_
      intro r hr
      cases hr
      exact .inl (by rw [hs]; rfl)
    · cases h
  case remove_if =>
    split at h
    · cases h
      exact .returns _ call _ hi ‹_›
    · cases h
  case cancel =>
    split at h
    · rename_i hs
      cases h
      exact .moves _ _ call _ hi (by simp) (by rw [hs]; rfl) rfl (fun r hr => by cases hr)
    · rename_i hs
      cases h
      exact .moves _ _ call _ hi (by simp) (by rw [hs]; rfl) rfl (fun r hr => by cases hr)
    · cases h
      exact .drops _ call c cell hi hc hcell ‹_›
    · cases h
  case unwind =>
    split at h
    · rename_i hs
      cases h
      exact .moves _ _ call _ hi (by simp) (by rw [hs]; rfl) rfl (fun r hr => by cases hr)
    · rename_i hs
      cases h
      exact .moves _ _ call _ hi (by simp) (by rw [hs]; rfl) rfl (fun r hr => by cases hr)
    · cases h
  case release =>
    split at h
    · cases h
      exact .releases _ call hi ‹_›
    · cases h

end Uniflight
