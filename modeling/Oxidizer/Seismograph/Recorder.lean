import Oxidizer.Lib.Runs
/-!
# The event recorder

Every thread writes its events into a ring of its own, and the operations that
configure recording, take snapshots and clear the rings run one at a time under the
configuration lock. A step is one access to a shared variable. What is done under a
ring's lock in a row, and that no one reads without it, is one step: `session` is read
without the lock, and `ring_capacity` by a thread that exits, which sees a release before
it or after it.

A lock that is waited for may be given up at any time: it may also be held by a
reader of the statistics, which changes nothing. A call that is not to be recorded
(suppressed, of another class, sampled out) may be given up where the source does.

`owner` and `epoch` (the session of the last `begin_session` and how many there
were), `history` (what the calls of the thread have written), the `id` of a ring and
`returned` are of the model; no step reads them.
-/

namespace Seismograph

open Lib

inductive EventClass where
  | allocation
  | general
  | arc_dereference
  | runtime_task
  | io
  | cache
deriving DecidableEq

def EventClass.all : List EventClass := [.allocation, .general, .arc_dereference, .runtime_task, .io, .cache]

def policy_enabled (policy : Nat) : Bool := policy % 2 = 1

def disabled_policy (policy : Nat) : Nat := policy - policy % 2

/-- A capacity is stored as its exponent. -/
def decode_capacity (capacity : Nat) : Nat := 2 ^ (capacity % 64)

inductive Holder (ι : Type) where
  | thread (p : ι)
  | admin
deriving DecidableEq

/-- A slot with its `EventData`: the sequence number and the rest, which a call writes one after the other. -/
structure Slot (ι ρ : Type) where
  holder : Option (Holder ι)
  sequence : Nat
  body : ρ

structure Ring (ι ρ : Type) where
  id : Nat
  mask : Nat
  slots : Nat → Slot ι ρ

/-- A write of a slot, with the session and the epoch it was made in. -/
structure Entry (ρ : Type) where
  session : Nat
  epoch : Nat
  sequence : Nat
  body : ρ
deriving DecidableEq

structure ThreadRecorder (ι ρ : Type) where
  session : Nat
  ring_holder : Option (Holder ι)
  ring : Option (Ring ι ρ)
  ring_capacity : Nat
  writer_active : Bool
  retired : Bool
  release_on_unlock : Bool
  write_index : Nat
  owner : Nat
  epoch : Nat
  history : List (Entry ρ)

structure ThreadSnapshot (ι ρ : Type) where
  thread : ι
  total_events : Nat
  capacity : Nat
  epoch : Nat
  events : List (Nat × ρ)

section Rings
variable {ι ρ : Type}

def Ring.new [Inhabited ρ] (id capacity : Nat) : Ring ι ρ := ⟨id, capacity - 1, fun _ => ⟨none, 0, default⟩⟩

def Ring.capacity (r : Ring ι ρ) : Nat := r.mask + 1

def Ring.slot (r : Ring ι ρ) (index : Nat) : Slot ι ρ := r.slots (index &&& r.mask)

def Ring.update (r : Ring ι ρ) (index : Nat) (f : Slot ι ρ → Slot ι ρ) : Ring ι ρ :=
  { r with slots := fun j => if j = index &&& r.mask then f (r.slots j) else r.slots j }

/-- `begin_session_until` under the ring's lock: a ring of the same capacity is kept as it is. -/
def ThreadRecorder.begin_session [Inhabited ρ] (t : ThreadRecorder ι ρ) (session capacity : Nat) : ThreadRecorder ι ρ :=
  { t with
    ring := match t.ring with
      | some r => if r.capacity = capacity then some r else some (.new (t.epoch + 1) capacity)
      | none => some (.new (t.epoch + 1) capacity)
    write_index := 0
    session
    ring_capacity := capacity
    owner := session
    epoch := t.epoch + 1 }

/-- `release_ring_locked`, but for the list of retired rings. -/
def ThreadRecorder.release_ring_locked (t : ThreadRecorder ι ρ) : ThreadRecorder ι ρ :=
  { t with write_index := 0, session := 0, ring_capacity := 0, ring := none }

/-- `clear` under the ring's lock. -/
def ThreadRecorder.clear (t : ThreadRecorder ι ρ) (release : Bool) : ThreadRecorder ι ρ :=
  let t := { t with write_index := 0, session := 0 }
  if release then t.release_ring_locked else t

/-- What a lock of the ring does when it is dropped, before it is given back. -/
def ThreadRecorder.unlock (t : ThreadRecorder ι ρ) : ThreadRecorder ι ρ :=
  if t.release_on_unlock then t.release_ring_locked else t

end Rings

/-- A call of `try_record`; its session and capacity are 0 until they are loaded. -/
structure Call (ρ : Type) where
  event_class : EventClass
  body : ρ
  policy : Nat
  session : Nat
  capacity : Nat

inductive Pc (ι ρ : Type) where
  | idle
  | policy (c : Call ρ)
  | session (c : Call ρ)
  | capacity (c : Call ρ)
  /-- before the recorder is registered, if it is not -/
  | register (c : Call ρ)
  /-- before `writer_active` is set -/
  | enter (c : Call ρ)
  | check_policy (c : Call ρ)
  | check_capacity (c : Call ρ)
  | check_session (c : Call ρ)
  /-- in `record`, before the recorder's session is loaded -/
  | inside (c : Call ρ)
  /-- in `begin_session_until`, before the lock -/
  | lock_ring (c : Call ρ)
  | start (c : Call ρ)
  | unlock_ring (c : Call ρ)
  | free_ring (c : Call ρ)
  /-- before `write_index` is advanced -/
  | advance (c : Call ρ)
  /-- with a reference to a slot, before its lock -/
  | slot (c : Call ρ) (index id : Nat)
  | write (c : Call ρ) (index id : Nat)
  | fill (c : Call ρ) (index id : Nat)
  | unlock_slot (c : Call ρ) (index id : Nat)
  /-- before `writer_active` is cleared -/
  | leave
  /-- in `retire`, before the thread's ring is measured -/
  | measure
  /-- in `register_retired_ring`, before the ring is put on the list -/
  | enlist (bytes : Nat)
  /-- before a ring is chosen to be evicted -/
  | evict (limit : Nat)
  /-- in `release_retired_ring` -/
  | mark (limit : Nat) (q : ι)
  | forget (limit : Nat) (q : ι)
  | lock_evicted (limit : Nat) (q : ι)
  | unlock_evicted (limit : Nat) (q : ι)
  | free_evicted (limit : Nat) (q : ι)
  | gone

inductive Disposition where
  | clear
  | release
  | stop
deriving DecidableEq

/-- A call of `reset_event_buffers`, with what it has read. -/
structure Reset where
  disposition : Disposition
  capture : Bool
  policies : EventClass → Nat
  was_enabled : Bool

/-- A walk over the recorders for a snapshot, on behalf of a reset or of a snapshot that retains. -/
structure Walk (ι ρ : Type) where
  reset : Option Reset
  session : Nat
  todo : List ι
  threads : List (ThreadSnapshot ι ρ)

/-- The result of a snapshot. -/
abbrev Events (ι ρ : Type) := Option (Nat × List (ThreadSnapshot ι ρ))

/-- Where the operation that has the configuration lock is. -/
inductive Admin (ι ρ : Type) where
  | none
  -- `configure_locked`
  | conf_off
  | conf_zero (policies : EventClass → Nat) (capacity : Nat)
  | conf_capacity (policies : EventClass → Nat) (capacity : Nat)
  | conf_policy (policies : EventClass → Nat) (todo : List EventClass)
  | conf_next
  | conf_last (session : Nat)
  | conf_active (session : Nat)
  -- `snapshot_from_recorders_until`
  | last (reset : Option Reset)
  | head (reset : Option Reset) (session : Nat)
  | walk (w : Walk ι ρ)
  /-- the session was found: before the lock of the ring -/
  | lock (w : Walk ι ρ) (p : ι)
  | total (w : Walk ι ρ) (p : ι)
  | slot (w : Walk ι ρ) (t : ThreadSnapshot ι ρ) (id index : Nat)
  | copy (w : Walk ι ρ) (t : ThreadSnapshot ι ρ) (id index : Nat)
  | unslot (w : Walk ι ρ) (t : ThreadSnapshot ι ρ) (id index : Nat)
  | settle (w : Walk ι ρ) (t : ThreadSnapshot ι ρ)
  | flag (w : Walk ι ρ) (t : ThreadSnapshot ι ρ)
  | forget (w : Walk ι ρ) (t : ThreadSnapshot ι ρ)
  | unlock (w : Walk ι ρ) (p : ι) (failed : Bool)
  | free (w : Walk ι ρ) (p : ι) (failed : Bool)
  -- `reset_event_buffers`
  | swap (disposition : Disposition) (capture : Bool)
  | disable (r : Reset) (todo : List EventClass)
  | wait_head (r : Reset)
  | wait (r : Reset) (todo : List ι)
  | restore (r : Reset) (todo : List EventClass)
  | restore_active (r : Reset)
  | next_session (r : Reset) (events : Events ι ρ)
  | clear_head (r : Reset) (events : Events ι ρ) (session : Nat)
  | clear (r : Reset) (events : Events ι ρ) (session : Nat) (todo : List ι)
  | clear_lock (r : Reset) (events : Events ι ρ) (session : Nat) (todo : List ι) (p : ι) (release : Bool)
  | clear_ring (r : Reset) (events : Events ι ρ) (session : Nat) (todo : List ι) (p : ι) (release : Bool)
  | clear_unlock (r : Reset) (events : Events ι ρ) (session : Nat) (todo : List ι) (p : ι)
  | clear_free (r : Reset) (events : Events ι ρ) (session : Nat) (todo : List ι) (p : ι)
  | publish_last (r : Reset) (events : Events ι ρ) (session : Nat)
  | publish_active (r : Reset) (events : Events ι ρ) (session : Nat)
  | publish_policy (r : Reset) (events : Events ι ρ) (todo : List EventClass)

section References
variable {ι ρ : Type}

/-- The ring a thread is about to access, by its reference. -/
def Pc.reference : Pc ι ρ → Option Nat
  | .slot _ _ id | .write _ _ id | .fill _ _ id | .unlock_slot _ _ id => some id
  | _ => none

/-- The ring the operation is about to access. -/
def Admin.reference : Admin ι ρ → Option (ι × Nat)
  | .slot _ t id _ | .copy _ t id _ | .unslot _ t id _ => some (t.thread, id)
  | _ => Option.none

end References

structure Recording (ι ρ : Type) where
  policy : EventClass → Nat
  capacity : Nat
  active : Nat
  last : Nat
  next : Nat
  recorders : List ι
  recorder : ι → ThreadRecorder ι ρ
  threads : ι → Pc ι ρ
  admin : Admin ι ρ
  retired_rings : List (ι × Nat)
  allocated_bytes : Nat
  /-- `RETIRED_RING_BUDGET_BYTES` and the size of a slot -/
  budget : Nat
  slot_bytes : Nat
  returned : List (Nat × List (ThreadSnapshot ι ρ))

namespace Recording
variable {ι ρ : Type} [DecidableEq ι]

variable (s : Recording ι ρ)

def set (p : ι) (t : ThreadRecorder ι ρ) : Recording ι ρ :=
  { s with recorder := fun q => if q = p then t else s.recorder q }

def goto (p : ι) (pc : Pc ι ρ) : Recording ι ρ :=
  { s with threads := fun q => if q = p then pc else s.threads q }

def becomes (admin : Admin ι ρ) : Recording ι ρ := { s with admin }

def set_slot (p : ι) (index : Nat) (f : Slot ι ρ → Slot ι ρ) : Recording ι ρ :=
  s.set p { s.recorder p with ring := (s.recorder p).ring.map (·.update index f) }

def forget_retired_ring (p : ι) : Recording ι ρ :=
  match s.retired_rings.find? (·.1 = p) with
  | some (_, bytes) =>
    { s with retired_rings := s.retired_rings.eraseP (·.1 = p), allocated_bytes := s.allocated_bytes - bytes }
  | none => s

/-- The lock of a ring is dropped: the ring of a retired thread is released. -/
def unlock_ring (p : ι) : Recording ι ρ :=
  (if (s.recorder p).release_on_unlock then s.forget_retired_ring p else s).set p (s.recorder p).unlock

/-! ## The threads -/

def step [Inhabited ρ] (p : ι) : Recording ι ρ :=
  let t := s.recorder p
  match s.threads p with
  | .idle | .gone => s
  | .policy c =>
    s.goto p (if policy_enabled (s.policy c.event_class) then .session { c with policy := s.policy c.event_class } else .idle)
  | .session c => s.goto p (if s.active = 0 then .idle else .capacity { c with session := s.active })
  | .capacity c => s.goto p (.register { c with capacity := s.capacity })
  | .register c =>
    { s with recorders := if p ∈ s.recorders then s.recorders else p :: s.recorders }.goto p (.enter c)
  | .enter c => (s.set p { t with writer_active := true }).goto p (.check_policy c)
  | .check_policy c => s.goto p (if s.policy c.event_class = c.policy then .check_capacity c else .leave)
  | .check_capacity c => s.goto p (if s.capacity = c.capacity then .check_session c else .leave)
  | .check_session c => s.goto p (if s.active = c.session then .inside c else .leave)
  | .inside c => s.goto p (if t.session = c.session then .advance c else .lock_ring c)
  | .lock_ring c => (s.set p { t with ring_holder := some (.thread p) }).goto p (.start c)
  | .start c => (s.set p (t.begin_session c.session (decode_capacity c.capacity))).goto p (.unlock_ring c)
  | .unlock_ring c => (s.unlock_ring p).goto p (.free_ring c)
  | .free_ring c => (s.set p { t with ring_holder := none }).goto p (.advance c)
  | .advance c =>
    (s.set p { t with write_index := (t.write_index + 1) % 2 ^ 64 }).goto p
      (match t.ring with
        | some r => .slot c t.write_index r.id
        -- `expect` panics, which drops the guard
        | none => .leave)
  | .slot c index id => (s.set_slot p index fun slot => { slot with holder := some (.thread p) }).goto p (.write c index id)
  | .write c index id => (s.set_slot p index fun slot => { slot with sequence := index + 1 }).goto p (.fill c index id)
  | .fill c index id =>
    let s' := s.set_slot p index fun slot => { slot with body := c.body }
    (s'.set p { s'.recorder p with history := ⟨c.session, t.epoch, index + 1, c.body⟩ :: t.history }).goto p
      (.unlock_slot c index id)
  | .unlock_slot _ index _ => (s.set_slot p index fun slot => { slot with holder := none }).goto p .leave
  | .leave => (s.set p { t with writer_active := false }).goto p .idle
  | .measure =>
    let bytes := t.ring_capacity * s.slot_bytes
    s.goto p (if bytes = 0 then .gone else .enlist bytes)
  | .enlist bytes =>
    { s with
      retired_rings := s.retired_rings ++ [(p, bytes)]
      allocated_bytes := s.allocated_bytes + bytes }.goto p (.evict (max s.budget bytes))
  | .evict limit =>
    match s.retired_rings with
    | (q, bytes) :: rings =>
      if s.allocated_bytes ≤ limit then s.goto p .gone
      else { s with retired_rings := rings, allocated_bytes := s.allocated_bytes - bytes }.goto p (.mark limit q)
    | [] => s.goto p .gone
  | .mark limit q => (s.set q { s.recorder q with release_on_unlock := true }).goto p (.forget limit q)
  | .forget limit q => (s.forget_retired_ring q).goto p (.lock_evicted limit q)
  | .lock_evicted limit q => (s.set q { s.recorder q with ring_holder := some (.thread p) }).goto p (.unlock_evicted limit q)
  | .unlock_evicted limit q => (s.unlock_ring q).goto p (.free_evicted limit q)
  | .free_evicted limit q => (s.set q { s.recorder q with ring_holder := none }).goto p (.evict limit)

/-- The holder of the slot of an index, while there is a ring. -/
def slot_holder (p : ι) (index : Nat) : Option (Holder ι) :=
  (s.recorder p).ring.bind fun r => (r.slot index).holder

/-- A thread can take a step, if the lock that the step needs is free. -/
def Enabled (p : ι) : Prop :=
  match s.threads p with
  | .idle | .gone => False
  | .lock_ring _ => (s.recorder p).ring_holder = none
  | .lock_evicted _ q => (s.recorder q).ring_holder = none
  | .slot _ index _ => s.slot_holder p index = none
  | _ => True

/-- A thread gives up: its call is not to be recorded, or a lock was not free in time. -/
def expire (p : ι) : Recording ι ρ :=
  match s.threads p with
  | .policy _ | .session _ | .capacity _ => s.goto p .idle
  | .lock_ring _ | .slot _ _ _ => s.goto p .leave
  | .lock_evicted limit _ => s.goto p (.evict limit)
  | _ => s

/-! ## The operations under the configuration lock -/

/-- `configure_locked` begins: what changes nothing is not configured. -/
def configure (policies : EventClass → Nat) (capacity : Nat) : Recording ι ρ :=
  if s.capacity ≠ capacity ∨ ∃ c ∈ EventClass.all, s.policy c ≠ policies c then s.becomes (.conf_zero policies capacity)
  else if EventClass.all.any fun c => policy_enabled (policies c) then s
  else s.becomes .conf_off

def fail (reset : Option Reset) : Admin ι ρ :=
  match reset with
  | some r => .restore r EventClass.all
  | none => .none

/-- A snapshot is there: it is returned, or the reset goes on with it. -/
def finish (reset : Option Reset) (events : Events ι ρ) : Recording ι ρ :=
  match reset with
  | some r => s.becomes (.next_session r events)
  | none => { s with returned := events.toList ++ s.returned }.becomes .none

/-- The next step of the operation. -/
def manage : Recording ι ρ :=
  match s.admin with
  | .none => s
  | .conf_off => { s with active := 0 }.becomes .none
  | .conf_zero policies capacity => { s with active := 0 }.becomes (.conf_capacity policies capacity)
  | .conf_capacity policies capacity => { s with capacity }.becomes (.conf_policy policies EventClass.all)
  | .conf_policy policies (c :: todo) =>
    { s with policy := fun d => if d = c then policies c else s.policy d }.becomes (.conf_policy policies todo)
  | .conf_policy policies [] =>
    s.becomes (if EventClass.all.any fun c => policy_enabled (policies c) then .conf_next else .none)
  | .conf_next => { s with next := (s.next + 1) % 2 ^ 64 }.becomes (.conf_last s.next)
  | .conf_last session => { s with last := session }.becomes (.conf_active session)
  | .conf_active session => { s with active := session }.becomes .none
  | .last reset => if s.last = 0 then s.finish reset none else s.becomes (.head reset s.last)
  | .head reset session =>
    if s.recorders = [] then s.finish reset none else s.becomes (.walk ⟨reset, session, s.recorders, []⟩)
  | .walk w =>
    match w.todo with
    | p :: todo => s.becomes (if (s.recorder p).session = w.session then .lock { w with todo } p else .walk { w with todo })
    | [] => s.finish w.reset (some (w.session, w.threads))
  | .lock w p => (s.set p { s.recorder p with ring_holder := some .admin }).becomes (.total w p)
  | .total w p =>
    match (s.recorder p).ring with
    | some r =>
      let total := (s.recorder p).write_index
      s.becomes (.slot w ⟨p, total, r.capacity, (s.recorder p).epoch, []⟩ r.id (total - r.capacity))
    | none => s.becomes (.unlock { w with threads := w.threads ++ [⟨p, 0, 0, (s.recorder p).epoch, []⟩] } p false)
  | .slot w t id index =>
    if index < t.total_events then
      (s.set_slot t.thread index fun slot => { slot with holder := some .admin }).becomes (.copy w t id index)
    else s.becomes (.settle w t)
  | .copy w t id index =>
    match (s.recorder t.thread).ring with
    | some r =>
      let slot := r.slot index
      s.becomes (.unslot w (if slot.sequence = index + 1 then { t with events := t.events ++ [(slot.sequence, slot.body)] }
          else t)
        id index)
    | none => s.becomes (.unslot w t id index)
  | .unslot w t id index =>
    (s.set_slot t.thread index fun slot => { slot with holder := none }).becomes (.slot w t id (index + 1))
  | .settle w t =>
    let w' := { w with threads := w.threads ++ [t] }
    s.becomes (if (s.recorder t.thread).retired then .flag w' t else .unlock w' t.thread false)
  | .flag w t => (s.set t.thread { s.recorder t.thread with release_on_unlock := true }).becomes (.forget w t)
  | .forget w t => (s.forget_retired_ring t.thread).becomes (.unlock w t.thread false)
  | .unlock w p failed => (s.unlock_ring p).becomes (.free w p failed)
  | .free w p failed =>
    (s.set p { s.recorder p with ring_holder := none }).becomes (if failed then fail w.reset else .walk w)
  | .swap disposition capture =>
    { s with active := 0 }.becomes (.disable ⟨disposition, capture, s.policy, s.active ≠ 0⟩ EventClass.all)
  | .disable r (c :: todo) =>
    { s with policy := fun d => if d = c then disabled_policy (r.policies c) else s.policy d }.becomes (.disable r todo)
  | .disable r [] => s.becomes (.wait_head r)
  | .wait_head r => s.becomes (.wait r s.recorders)
  | .wait r (_ :: todo) => s.becomes (.wait r todo)
  | .wait r [] => s.becomes (if r.capture then .last (some r) else .next_session r none)
  | .restore r (c :: todo) =>
    { s with policy := fun d => if d = c then r.policies c else s.policy d }.becomes (.restore r todo)
  | .restore r [] => s.becomes (.restore_active r)
  | .restore_active r => { s with active := if r.was_enabled then s.last else 0 }.becomes .none
  | .next_session r events => { s with next := (s.next + 1) % 2 ^ 64 }.becomes (.clear_head r events s.next)
  | .clear_head r events session => s.becomes (.clear r events session s.recorders)
  | .clear r events session (p :: todo) =>
    s.becomes (.clear_lock r events session todo p (r.disposition ≠ .clear || (s.recorder p).retired))
  | .clear r events session [] =>
    if r.disposition = .stop then { s with returned := events.toList ++ s.returned }.becomes .none
    else s.becomes (.publish_last r events session)
  | .clear_lock r events session todo p release =>
    (s.set p { s.recorder p with ring_holder := some .admin }).becomes (.clear_ring r events session todo p release)
  | .clear_ring r events session todo p release =>
    ((if release then s.forget_retired_ring p else s).set p ((s.recorder p).clear release)).becomes
      (.clear_unlock r events session todo p)
  | .clear_unlock r events session todo p => (s.unlock_ring p).becomes (.clear_free r events session todo p)
  | .clear_free r events session todo p =>
    (s.set p { s.recorder p with ring_holder := none }).becomes (.clear r events session todo)
  | .publish_last r events session => { s with last := session }.becomes (.publish_active r events session)
  | .publish_active r events session =>
    { s with active := if r.was_enabled then session else s.active }.becomes (.publish_policy r events EventClass.all)
  | .publish_policy r events (c :: todo) =>
    { s with policy := fun d => if d = c then r.policies c else s.policy d }.becomes (.publish_policy r events todo)
  | .publish_policy _ events [] => { s with returned := events.toList ++ s.returned }.becomes .none

/-- The operation can take a step, if the lock or the writer it waits for is free. -/
def Manageable : Prop :=
  match s.admin with
  | .none => False
  | .lock _ p | .clear_lock _ _ _ _ p _ => (s.recorder p).ring_holder = none
  | .slot _ t _ index => index < t.total_events → s.slot_holder t.thread index = none
  | .wait _ (p :: _) => (s.recorder p).writer_active = false
  | _ => True

/-- The operation has waited long enough. -/
def admin_expire : Recording ι ρ :=
  match s.admin with
  | .lock w _ => s.becomes (fail w.reset)
  | .slot w t _ _ => s.becomes (.unlock w t.thread true)
  | .wait r _ => s.becomes (.restore r EventClass.all)
  | .clear_lock r _ _ _ _ _ => s.becomes (if r.disposition = .stop then .none else .restore r EventClass.all)
  | _ => s

inductive Action (ι ρ : Type) where
  | call (p : ι) (event_class : EventClass) (body : ρ)
  | exit (p : ι)
  | step (p : ι)
  | expire (p : ι)
  | configure (policies : EventClass → Nat) (capacity : Nat)
  | snapshot
  | reset (disposition : Disposition) (capture : Bool)
  | manage
  | admin_expire

def system (ι ρ : Type) [DecidableEq ι] [Inhabited ρ] : Lts (Recording ι ρ) (Action ι ρ) where
  init s := s.active = 0 ∧ s.last = 0 ∧ s.next = 1 ∧ s.recorders = [] ∧ s.admin = .none ∧ s.retired_rings = [] ∧
    s.returned = [] ∧ (∀ p, s.threads p = .idle) ∧ ∀ p, s.recorder p = ⟨0, none, none, 0, false, false, false, 0, 0, 0, []⟩
  step s a s' :=
    match a with
    | .call p event_class body => s.threads p = .idle ∧ s' = s.goto p (.policy ⟨event_class, body, 0, 0, 0⟩)
    | .exit p =>
      s.threads p = .idle ∧
        s' = if p ∈ s.recorders then (s.set p { s.recorder p with retired := true }).goto p .measure else s.goto p .gone
    | .step p => s.Enabled p ∧ s' = s.step p
    | .expire p => s' = s.expire p
    | .configure policies capacity => s.admin = .none ∧ s' = s.configure policies capacity
    | .snapshot => s.admin = .none ∧ s' = s.becomes (.last none)
    | .reset disposition capture => s.admin = .none ∧ s' = s.becomes (.swap disposition capture)
    | .manage => s.Manageable ∧ s' = s.manage
    | .admin_expire => s' = s.admin_expire

/-! ## What a snapshot promises -/

/-- What a snapshot of a session has of a thread. -/
structure Isolated (s : Recording ι ρ) (session : Nat) (t : ThreadSnapshot ι ρ) : Prop where
  /-- every event was written by one call of the thread, in the session and since the session was begun -/
  written : ∀ e ∈ t.events, ⟨session, t.epoch, e.1, e.2⟩ ∈ (s.recorder t.thread).history
  increasing : (t.events.map (·.1)).Pairwise (· < ·)
  window : ∀ e ∈ t.events, t.total_events - t.capacity < e.1 ∧ e.1 ≤ t.total_events

structure Sound (s : Recording ι ρ) : Prop where
  returned : ∀ r ∈ s.returned, ∀ t ∈ r.2, Isolated s r.1 t
  /-- no ring is accessed after its release -/
  memory : ∀ p id, (s.threads p).reference = some id → ∃ r, (s.recorder p).ring = some r ∧ r.id = id
  admin : ∀ p id, s.admin.reference = some (p, id) → ∃ r, (s.recorder p).ring = some r ∧ r.id = id

end Recording

end Seismograph
