import Oxidizer.Seismograph.Recorder
/-!
# What the steps of the recorder keep

The invariant has a part for each thread and its recorder (`Ok`), and parts for the
sessions, for the writers that a reset waits for, for the locks of the rings, for
retirement, and for a snapshot under way. `Inv.turn` and `Inv.rule` say what a thread
and the operation under the configuration lock may change.
-/

namespace Seismograph

open Lib

/-! ## Places -/

section Places
variable {ι ρ : Type}

/-- The call, once its session is loaded. -/
def Pc.call : Pc ι ρ → Option (Call ρ)
  | .capacity c | .register c | .enter c | .check_policy c | .check_capacity c | .check_session c | .inside c | .lock_ring c
  | .start c | .unlock_ring c | .free_ring c | .advance c | .slot c _ _ | .write c _ _ | .fill c _ _ | .unlock_slot c _ _
      => some c
  | _ => none

/-- `writer_active` is set. -/
def Pc.active : Pc ι ρ → Bool
  | .check_policy _ | .check_capacity _ | .check_session _ | .inside _ | .lock_ring _ | .start _ | .unlock_ring _ |
      .free_ring _
  | .advance _ | .slot _ _ _ | .write _ _ _ | .fill _ _ _ | .unlock_slot _ _ _ | .leave => true
  | _ => false

def Pc.registered : Pc ι ρ → Bool
  | .enter _ => true
  | pc => pc.active

/-- The session was found active. -/
def Pc.within : Pc ι ρ → Bool
  | .inside _ | .lock_ring _ | .start _ | .unlock_ring _ | .free_ring _ | .advance _ | .slot _ _ _ | .write _ _ _ | .fill _
      _ _
  | .unlock_slot _ _ _ => true
  | _ => false

/-- The recorder is in the session of the call. -/
def Pc.begun : Pc ι ρ → Option (Call ρ)
  | .unlock_ring c | .free_ring c | .advance c | .slot c _ _ | .write c _ _ | .fill c _ _ | .unlock_slot c _ _ => some c
  | _ => none

/-- The ring whose lock is held by thread `p`. -/
def Pc.rings (p : ι) : Pc ι ρ → Option ι
  | .start _ | .unlock_ring _ | .free_ring _ => some p
  | .unlock_evicted _ q | .free_evicted _ q => some q
  | _ => none

def Pc.indexed : Pc ι ρ → Option (Nat × Nat)
  | .slot _ index id | .write _ index id | .fill _ index id | .unlock_slot _ index id => some (index, id)
  | _ => none

/-- The index whose slot is locked. -/
def Pc.locks : Pc ι ρ → Option Nat
  | .write _ index _ | .fill _ index _ | .unlock_slot _ index _ => some index
  | _ => none

/-- The index whose slot has its sequence number, but not the rest. -/
def Pc.filling : Pc ι ρ → Option Nat
  | .fill _ index _ => some index
  | _ => none

def Pc.exited : Pc ι ρ → Bool
  | .measure | .enlist _ | .evict _ | .mark _ _ | .forget _ _ | .lock_evicted _ _ | .unlock_evicted _ _ | .free_evicted _ _
  | .gone => true
  | _ => false

def Pc.measures : Pc ι ρ → Bool
  | .measure | .enlist _ => true
  | _ => false

def Pc.marks : Pc ι ρ → Option ι
  | .mark _ q => some q
  | _ => none

/-- On whose behalf recorders are walked. -/
def Admin.walks : Admin ι ρ → Option (Option Reset)
  | .last reset | .head reset _ => some reset
  | .walk w | .lock w _ | .total w _ | .slot w _ _ _ | .copy w _ _ _ | .unslot w _ _ _ | .settle w _ | .flag w _ | .forget w _
  | .unlock w _ _ | .free w _ _ => some w.reset
  | _ => Option.none

/-- The writers have been waited for. -/
def Admin.quiet (a : Admin ι ρ) : Bool :=
  match a with
  | .next_session _ _ | .clear_head _ _ _ | .clear _ _ _ _ | .clear_lock _ _ _ _ _ _ | .clear_ring _ _ _ _ _ _
  | .clear_unlock _ _ _ _ _ | .clear_free _ _ _ _ _ | .publish_last _ _ _ | .publish_active _ _ _ => true
  | _ => a.walks.any (·.isSome)

/-- `ACTIVE_SESSION` is 0. -/
def Admin.zero (a : Admin ι ρ) : Bool :=
  match a with
  | .conf_capacity _ _ | .conf_policy _ _ | .conf_next | .conf_last _ | .conf_active _ | .disable _ _ | .wait_head _ |
      .wait _ _
  | .restore _ _ | .restore_active _ => true
  | _ => a.quiet

def Admin.waiting : Admin ι ρ → Option (List ι)
  | .wait _ todo => some todo
  | _ => Option.none

/-- A session number that was taken and is not published. -/
def Admin.fresh : Admin ι ρ → Option Nat
  | .conf_last n | .clear_head _ _ n | .clear _ _ n _ | .clear_lock _ _ n _ _ _ | .clear_ring _ _ n _ _ _ | .clear_unlock _
      _ n _ _
  | .clear_free _ _ n _ _ | .publish_last _ _ n => some n
  | _ => Option.none

def Admin.published : Admin ι ρ → Option Nat
  | .conf_active n | .publish_active _ _ n => some n
  | _ => Option.none

/-- The session of a snapshot under way. -/
def Admin.session : Admin ι ρ → Option Nat
  | .head _ S => some S
  | .walk w | .lock w _ | .total w _ | .slot w _ _ _ | .copy w _ _ _ | .unslot w _ _ _ | .settle w _ | .flag w _ | .forget w _
  | .unlock w _ _ | .free w _ _ => some w.session
  | _ => Option.none

/-- The recorder that was found in the session. -/
def Admin.seen : Admin ι ρ → Option (Nat × ι)
  | .lock w p | .total w p => some (w.session, p)
  | .slot w t _ _ | .copy w t _ _ | .unslot w t _ _ => some (w.session, t.thread)
  | _ => Option.none

def Admin.rings : Admin ι ρ → Option ι
  | .total _ p | .unlock _ p _ | .free _ p _ | .clear_ring _ _ _ _ p _ | .clear_unlock _ _ _ _ p | .clear_free _ _ _ _ p
      => some p
  | .slot _ t _ _ | .copy _ t _ _ | .unslot _ t _ _ | .settle _ t | .flag _ t | .forget _ t => some t.thread
  | _ => Option.none

def Admin.flags : Admin ι ρ → Option ι
  | .flag _ t => some t.thread
  | _ => Option.none

def Admin.locks : Admin ι ρ → Option (ι × Nat)
  | .copy _ t _ index | .unslot _ t _ index => some (t.thread, index)
  | _ => Option.none

def Admin.copies : Admin ι ρ → Option (ThreadSnapshot ι ρ × Nat)
  | .copy _ t _ index => some (t, index)
  | _ => Option.none

/-- The snapshot of a thread under way, and the index up to which it has come. -/
def Admin.part : Admin ι ρ → Option (Nat × ThreadSnapshot ι ρ × Nat × Nat)
  | .slot w t id index | .copy w t id index => some (w.session, t, id, index)
  | .unslot w t id index => some (w.session, t, id, index + 1)
  | _ => Option.none

/-- The finished snapshot of a thread whose ring is still locked. -/
def Admin.settled : Admin ι ρ → Option (Nat × ThreadSnapshot ι ρ)
  | .settle w t => some (w.session, t)
  | _ => Option.none

/-- The snapshots of the threads so far. -/
def Admin.snapshots : Admin ι ρ → Events ι ρ
  | .walk w | .lock w _ | .total w _ | .slot w _ _ _ | .copy w _ _ _ | .unslot w _ _ _ | .settle w _ | .flag w _ | .forget w _
  | .unlock w _ _ | .free w _ _ => some (w.session, w.threads)
  | .next_session _ events | .clear_head _ events _ | .clear _ events _ _ | .clear_lock _ events _ _ _ _ | .clear_ring _
      events _ _ _ _
  | .clear_unlock _ events _ _ _ | .clear_free _ events _ _ _ | .publish_last _ events _ | .publish_active _ events _
  | .publish_policy _ events _ => events
  | _ => Option.none

end Places

/-! ## The invariant -/

section Invariant
variable {ι ρ : Type}

/-- What holds of a thread and its recorder. -/
structure Ok (last : Nat) (p : ι) (t : ThreadRecorder ι ρ) (pc : Pc ι ρ) : Prop where
  call : ∀ c, pc.call = some c → c.session ≠ 0 ∧ t.owner ≤ c.session ∧ c.session ≤ last
  owner : t.owner ≤ last
  writer : pc.active = true → t.writer_active = true
  kept : t.session ≠ 0 → t.session = t.owner ∧ t.ring ≠ none
  begun : ∀ c, pc.begun = some c → t.owner = c.session ∧ t.ring ≠ none
  indexed : ∀ i id, pc.indexed = some (i, id) → t.write_index = i + 1 ∧ ∃ r, t.ring = some r ∧ r.id = id
  locks : ∀ i, pc.locks = some i → ∀ r, t.ring = some r → (r.slot i).holder = some (.thread p)
  /-- what a snapshot would take for an event of this session is one -/
  stored : ∀ r i, t.ring = some r → i < t.write_index → (r.slot i).sequence = i + 1 →
    pc.filling = some i ∨ ⟨t.owner, t.epoch, i + 1, (r.slot i).body⟩ ∈ t.history
  numbered : ∀ i, pc.filling = some i → ∀ r, t.ring = some r → (r.slot i).sequence = i + 1
  released : t.release_on_unlock = true → t.retired = true
  measured : pc.measures = true → t.retired = true
  retired : t.retired = true → pc.exited = true

structure Sessions (active last next : Nat) (a : Admin ι ρ) : Prop where
  current : active ≠ 0 → active = last
  bounded : last < next
  fresh : ∀ n, a.fresh = some n → last < n ∧ n < next
  published : ∀ n, a.published = some n → n = last
  zero : a.zero = true → active = 0
  session : ∀ S, a.session = some S → S = last ∧ S ≠ 0

structure Writers (threads : ι → Pc ι ρ) (recorders : List ι) (a : Admin ι ρ) : Prop where
  registered : ∀ p, (threads p).registered = true → p ∈ recorders
  waiting : ∀ todo, a.waiting = some todo → ∀ p, (threads p).within = true → p ∈ todo
  quiet : a.quiet = true → ∀ p, (threads p).within = false

structure Rings (threads : ι → Pc ι ρ) (recorder : ι → ThreadRecorder ι ρ) (a : Admin ι ρ) : Prop where
  thread : ∀ p q, (threads p).rings p = some q → (recorder q).ring_holder = some (.thread p)
  admin : ∀ q, a.rings = some q → (recorder q).ring_holder = some .admin

structure Retirement (threads : ι → Pc ι ρ) (recorder : ι → ThreadRecorder ι ρ) (rings : List (ι × Nat)) (a : Admin ι ρ) :
    Prop where
  listed : ∀ e ∈ rings, (recorder e.1).retired = true
  marks : ∀ p q, (threads p).marks = some q → (recorder q).retired = true
  flags : ∀ p, a.flags = some p → (recorder p).retired = true

/-- A snapshot of a thread with its events up to an index. -/
structure Written (t : ThreadRecorder ι ρ) (S : Nat) (x : ThreadSnapshot ι ρ) (i : Nat) : Prop where
  written : ∀ e ∈ x.events, ⟨S, x.epoch, e.1, e.2⟩ ∈ t.history
  increasing : (x.events.map (·.1)).Pairwise (· < ·)
  window : ∀ e ∈ x.events, x.total_events - x.capacity < e.1 ∧ e.1 ≤ i ∧ e.1 ≤ x.total_events

/-- A snapshot of a thread whose ring is being read. -/
structure Part (t : ThreadRecorder ι ρ) (S : Nat) (x : ThreadSnapshot ι ρ) (id i : Nat) : Prop where
  epoch : x.epoch = t.epoch
  total : x.total_events ≤ t.write_index
  ring : ∃ r, t.ring = some r ∧ r.id = id
  first : x.total_events - x.capacity ≤ i
  written : Written t S x i

structure Reading (recorder : ι → ThreadRecorder ι ρ) (a : Admin ι ρ) : Prop where
  seen : ∀ S p, a.seen = some (S, p) → (recorder p).owner = S
  part : ∀ S x id i, a.part = some (S, x, id, i) → Part (recorder x.thread) S x id i
  locks : ∀ p i, a.locks = some (p, i) → ∃ r, (recorder p).ring = some r ∧ (r.slot i).holder = some .admin
  below : ∀ x i, a.copies = some (x, i) → i < x.total_events

structure Snapshots (recorder : ι → ThreadRecorder ι ρ) (a : Admin ι ρ) (returned : List (Nat × List (ThreadSnapshot ι ρ))) :
    Prop where
  settled : ∀ S x, a.settled = some (S, x) → Written (recorder x.thread) S x x.total_events
  under_way : ∀ S ts, a.snapshots = some (S, ts) → ∀ x ∈ ts, Written (recorder x.thread) S x x.total_events
  returned : ∀ r ∈ returned, ∀ x ∈ r.2, Written (recorder x.thread) r.1 x x.total_events

structure Inv (s : Recording ι ρ) : Prop where
  ok : ∀ p, Ok s.last p (s.recorder p) (s.threads p)
  sessions : Sessions s.active s.last s.next s.admin
  writers : Writers s.threads s.recorders s.admin
  rings : Rings s.threads s.recorder s.admin
  retirement : Retirement s.threads s.recorder s.retired_rings s.admin
  reading : Reading s.recorder s.admin
  snapshots : Snapshots s.recorder s.admin s.returned

/-- A recorder is changed in a way that a snapshot of it does not notice. -/
structure Extends (t t' : ThreadRecorder ι ρ) : Prop where
  owner : t'.owner = t.owner
  epoch : t'.epoch = t.epoch
  index : t.write_index ≤ t'.write_index
  ring : ∀ r, t.ring = some r → ∃ r', t'.ring = some r' ∧ r'.id = r.id ∧
    ∀ i, (r.slot i).holder = some .admin → (r'.slot i).holder = some .admin

theorem Extends.refl (t : ThreadRecorder ι ρ) : Extends t t :=
  ⟨rfl, rfl, Nat.le_refl _, fun r hr => ⟨r, hr, rfl, fun _ h => h⟩⟩

variable {t t' : ThreadRecorder ι ρ} {S id i : Nat} {x : ThreadSnapshot ι ρ}

theorem Written.mono (h : Written t S x i) (hh : ∀ e ∈ t.history, e ∈ t'.history) : Written t' S x i :=
  ⟨fun e he => hh _ (h.written e he), h.increasing, h.window⟩

theorem Part.mono (h : Part t S x id i) (he : Extends t t') (hh : ∀ e ∈ t.history, e ∈ t'.history) : Part t' S x id i := by
  obtain ⟨r, hr, hid⟩ := h.ring
  obtain ⟨r', hr', hid', -⟩ := he.ring r hr
  exact ⟨h.epoch.trans he.epoch.symm, Nat.le_trans h.total he.index, ⟨r', hr', hid'.trans hid⟩, h.first, h.written.mono hh⟩

variable {last last' : Nat} {p : ι} {pc pc' : Pc ι ρ}

theorem Ok.later (h : Ok last p t pc) (hl : last ≤ last') : Ok last' p t pc :=
  { h with
    call := fun c hc => ⟨(h.call c hc).1, (h.call c hc).2.1, Nat.le_trans (h.call c hc).2.2 hl⟩
    owner := Nat.le_trans h.owner hl }

theorem Ok.holder (h : Ok last p t pc) (holder : Option (Holder ι)) : Ok last p { t with ring_holder := holder } pc :=
  { h with }

theorem Ok.flag (h : Ok last p t pc) (hretired : t.retired = true) : Ok last p { t with release_on_unlock := true } pc :=
  { h with released := fun _ => hretired }

theorem Ok.rest (h : Ok last p t pc) (hold : pc.filling = none)
    (hno : (pc'.call, pc'.active, pc'.begun, pc'.indexed, pc'.locks, pc'.filling, pc'.measures) =
      (none, false, none, none, none, none, false))
    (hexit : t.retired = true → pc'.exited = true) : Ok last p t pc' := by
  simp only [Prod.mk.injEq] at hno
  obtain ⟨hcall, hactive, hbegun, hindexed, hlocks, hfilling, hmeasures⟩ := hno
  refine ⟨by rw [hcall]; exact nofun, h.owner, by rw [hactive]; exact nofun, h.kept, by rw [hbegun]; exact nofun,
    by rw [hindexed]; exact nofun, by rw [hlocks]; exact nofun, fun r i hr hi hs => .inr ?_,
    by rw [hfilling]; exact nofun, h.released, by rw [hmeasures]; exact nofun, hexit⟩
  rcases h.stored r i hr hi hs with hf | hf
  · rw [hold] at hf; cases hf
  · exact hf

end Invariant

namespace Recording
variable {ι ρ : Type} [DecidableEq ι]

@[simp] theorem goto_threads (s : Recording ι ρ) (p q : ι) (pc : Pc ι ρ) :
    (s.goto p pc).threads q = if q = p then pc else s.threads q := rfl

@[simp] theorem set_threads (s : Recording ι ρ) (p : ι) (t : ThreadRecorder ι ρ) : (s.set p t).threads = s.threads := rfl

end Recording

section Rules
variable {ι ρ : Type} [DecidableEq ι] {s : Recording ι ρ} {p q : ι}

omit [DecidableEq ι] in
theorem waiting_zero {a : Admin ι ρ} {todo : List ι} (h : a.waiting = some todo) : a.zero = true := by
  cases a <;> first | rfl | cases h

omit [DecidableEq ι] in
theorem quiet_zero {a : Admin ι ρ} (h : a.quiet = true) : a.zero = true := by
  cases a <;> first | rfl | exact h

/-- What a thread may do: `q` is its own recorder or, once it has exited, one that it evicts. -/
theorem Inv.turn (inv : Inv s) {t : ThreadRecorder ι ρ} {pc : Pc ι ρ} {recorders : List ι}
    {rings : List (ι × Nat)} {bytes : Nat} (hok : Ok s.last q t (if q = p then pc else s.threads q))
    (hokp : q ≠ p → Ok s.last p (s.recorder p) pc) (hsub : ∀ x ∈ s.recorders, x ∈ recorders)
    (hregistered : pc.registered = true → p ∈ recorders) (hwithin : pc.within = true → (s.threads p).within = true ∨
        s.active ≠ 0)
    (hclaims : ∀ x, pc.rings p = some x → (if x = q then t else s.recorder x).ring_holder = some (.thread p))
    (hholder : t.ring_holder = (s.recorder q).ring_holder ∨ (s.recorder q).ring_holder = none ∨
      (s.recorder q).ring_holder = some (.thread p))
    (hretired : (s.recorder q).retired = true → t.retired = true)
    (hmarks : ∀ x, pc.marks = some x → (s.recorder x).retired = true)
    (hlisted : ∀ e ∈ rings, e ∈ s.retired_rings ∨ (s.recorder e.1).retired = true)
    (hread : Extends (s.recorder q) t ∨ s.admin.rings ≠ some q ∧ ∀ S, s.admin.seen = some (S, q) → t.owner = S)
    (hhistory : ∀ e ∈ (s.recorder q).history, e ∈ t.history) :
    Inv (({ s with recorders, retired_rings := rings, allocated_bytes := bytes }.set q t).goto p pc) := by
  have hkept : ∀ x, (s.recorder x).retired = true → (if x = q then t else s.recorder x).retired = true := fun x hx => by
    split
    · next h => subst h; exact hretired hx
    · exact hx
  have hmono : ∀ S (x : ThreadSnapshot ι ρ) i, Written (s.recorder x.thread) S x i →
      Written (if x.thread = q then t else s.recorder x.thread) S x i := fun S x i hx => by
    split
    · next h => rw [h] at hx; exact hx.mono hhistory
    · exact hx
  have hheld : ∀ {x o}, (s.recorder x).ring_holder = some o → o ≠ .thread p →
      (if x = q then t else s.recorder x).ring_holder = some o := fun {x o} hold hne => by
    split
    · next h =>
      subst h
      rcases hholder with h | h | h
      · rw [h]; exact hold
      · rw [h] at hold; cases hold
      · rw [h] at hold; cases hold; exact absurd rfl hne
    · exact hold
  refine ⟨fun x => ?_, inv.sessions, ⟨fun x hx => ?_, fun todo ht x hx => ?_, fun hq x => ?_⟩, ⟨fun x y hx => ?_, fun y hy
    => ?_⟩, ⟨fun e he => ?_, fun x y hx => ?_, fun x hx => hkept x (inv.retirement.flags x hx)⟩,
    ⟨fun S x hx => ?_, fun S x id i hx => ?_, fun x i hx => ?_, inv.reading.below⟩,
    ⟨fun S x hx => hmono _ _ _ (inv.snapshots.settled S x hx), fun S ts ht x hx => hmono _ _ _ (inv.snapshots.under_way S
      ts ht x hx), fun r hr x hx => hmono _ _ _ (inv.snapshots.returned r hr x hx)⟩⟩
  · show Ok s.last x (if x = q then t else s.recorder x) (if x = p then pc else s.threads x)
    by_cases hxq : x = q
    · subst hxq; rw [if_pos rfl]; exact hok
    · rw [if_neg hxq]
      split
      · next h => subst h; exact hokp (Ne.symm hxq)
      · exact inv.ok x
  · by_cases hxp : x = p
    · subst hxp; exact hregistered (by simpa using hx)
    · exact hsub x (inv.writers.registered x (by simpa [hxp] using hx))
  · by_cases hxp : x = p
    · subst hxp
      rcases hwithin (by simpa using hx) with h | h
      · exact inv.writers.waiting todo ht x h
      · exact absurd (inv.sessions.zero (waiting_zero ht)) h
    · exact inv.writers.waiting todo ht x (by simpa [hxp] using hx)
  · by_cases hxp : x = p
    · subst hxp
      by_contra hne
      rcases hwithin (by simpa using hne) with h | h
      · exact absurd ((inv.writers.quiet hq x).symm.trans h) nofun
      · exact absurd (inv.sessions.zero (quiet_zero hq)) h
    · simpa [hxp] using inv.writers.quiet hq x
  · show (if y = q then t else s.recorder y).ring_holder = some (.thread x)
    by_cases hxp : x = p
    · subst hxp; exact hclaims y (by simpa using hx)
    · exact hheld (inv.rings.thread x y (by simpa [hxp] using hx)) (by simpa using hxp)
  · exact hheld (inv.rings.admin y hy) nofun
  · rcases hlisted e he with h | h
    · exact hkept _ (inv.retirement.listed e h)
    · exact hkept _ h
  · by_cases hxp : x = p
    · subst hxp; exact hkept y (hmarks y (by simpa using hx))
    · exact hkept y (inv.retirement.marks x y (by simpa [hxp] using hx))
  · show (if x = q then t else s.recorder x).owner = S
    have hold := inv.reading.seen S x hx
    split
    · next h =>
      subst h
      rcases hread with h | ⟨-, h⟩
      · rw [h.owner]; exact hold
      · exact h S hx
    · exact hold
  · show Part (if x.thread = q then t else s.recorder x.thread) S x id i
    have hold := inv.reading.part S x id i hx
    split
    · next h =>
      rw [h] at hold
      rcases hread with hext | ⟨hno, -⟩
      · exact hold.mono hext hhistory
      · refine absurd ?_ hno
        rw [← h]
        generalize s.admin = a at hx
        cases a <;> first | (cases hx; rfl) | cases hx
    · exact hold
  · show ∃ r, (if x = q then t else s.recorder x).ring = some r ∧ (r.slot i).holder = some .admin
    have hold := inv.reading.locks x i hx
    split
    · next h =>
      subst h
      rcases hread with hext | ⟨hno, -⟩
      · obtain ⟨r, hr, hholds⟩ := hold
        obtain ⟨r', hr', -, hkeep⟩ := hext.ring r hr
        exact ⟨r', hr', hkeep i hholds⟩
      · refine absurd ?_ hno
        generalize s.admin = a at hx
        cases a <;> first | (cases hx; rfl) | cases hx
    · exact hold

omit [DecidableEq ι] in
/-- What the operation under the configuration lock may do. -/
theorem Inv.rule {s' : Recording ι ρ} (inv : Inv s) (hthreads : s'.threads = s.threads) (hrecorders : s'.recorders =
    s.recorders)
    (hlast : s.last ≤ s'.last) (hsessions : Sessions s'.active s'.last s'.next s'.admin)
    (hok : ∀ x, Ok s.last x (s'.recorder x) (s.threads x))
    (hthread : ∀ x y, (s.threads x).rings x = some y → (s'.recorder y).ring_holder = some (.thread x))
    (hretired : ∀ x, (s.recorder x).retired = true → (s'.recorder x).retired = true)
    (hhistory : ∀ x, ∀ e ∈ (s.recorder x).history, e ∈ (s'.recorder x).history)
    (hwaiting : ∀ todo, s'.admin.waiting = some todo → ∀ x, (s.threads x).within = true → x ∈ todo)
    (hquiet : s'.admin.quiet = true → ∀ x, (s.threads x).within = false)
    (hrings : ∀ y, s'.admin.rings = some y → (s'.recorder y).ring_holder = some .admin)
    (hlisted : ∀ e ∈ s'.retired_rings, e ∈ s.retired_rings)
    (hflags : ∀ x, s'.admin.flags = some x → (s.recorder x).retired = true) (hreading : Reading s'.recorder s'.admin)
    (hsettled : ∀ S x, s'.admin.settled = some (S, x) → Written (s.recorder x.thread) S x x.total_events)
    (hunder : ∀ S ts, s'.admin.snapshots = some (S, ts) → ∀ x ∈ ts, Written (s.recorder x.thread) S x x.total_events)
    (hreturned : ∀ r ∈ s'.returned, r ∈ s.returned ∨ s.admin.snapshots = some r) : Inv s' := by
  refine ⟨fun x => ?_, hsessions, ?_, ?_, ?_, hreading, ?_⟩
  · rw [hthreads]; exact (hok x).later hlast
  · rw [hthreads, hrecorders]; exact ⟨inv.writers.registered, hwaiting, hquiet⟩
  · rw [hthreads]; exact ⟨hthread, hrings⟩
  · rw [hthreads]
    exact ⟨fun e he => hretired _ (inv.retirement.listed e (hlisted e he)),
      fun x y h => hretired _ (inv.retirement.marks x y h), fun x hx => hretired x (hflags x hx)⟩
  · refine ⟨fun S x hx => (hsettled S x hx).mono (hhistory _), fun S ts ht x hx => (hunder S ts ht x hx).mono (hhistory _),
      fun r hr x hx => ?_⟩
    rcases hreturned r hr with h | h
    · exact (inv.snapshots.returned r h x hx).mono (hhistory _)
    · exact (inv.snapshots.under_way r.1 r.2 h x hx).mono (hhistory _)

omit [DecidableEq ι] in
theorem Inv.goes_on {policy : EventClass → Nat} {capacity active last next bytes : Nat} {a : Admin ι ρ}
    {rings : List (ι × Nat)} {returned : List (Nat × List (ThreadSnapshot ι ρ))} (inv : Inv s) (hlast : s.last ≤ last)
    (hsessions : Sessions active last next a)
    (hwaiting : ∀ todo, a.waiting = some todo → ∀ x, (s.threads x).within = true → x ∈ todo)
    (hquiet : a.quiet = true → ∀ x, (s.threads x).within = false) (hrings : ∀ y, a.rings = some y → s.admin.rings = some y)
    (hlisted : ∀ e ∈ rings, e ∈ s.retired_rings) (hflags : ∀ x, a.flags = some x → (s.recorder x).retired = true)
    (hreading : Reading s.recorder a)
    (hsettled : ∀ S x, a.settled = some (S, x) → Written (s.recorder x.thread) S x x.total_events)
    (hunder : ∀ S ts, a.snapshots = some (S, ts) → ∀ x ∈ ts, Written (s.recorder x.thread) S x x.total_events)
    (hreturned : ∀ r ∈ returned, r ∈ s.returned ∨ s.admin.snapshots = some r) :
    Inv { s with policy, capacity, active, last, next, admin := a, retired_rings := rings, allocated_bytes := bytes,
                 returned } :=
  inv.rule rfl rfl hlast hsessions inv.ok inv.rings.thread (fun _ h => h) (fun _ _ h => h) hwaiting hquiet
    (fun y hy => inv.rings.admin y (hrings y hy)) hlisted hflags hreading hsettled hunder hreturned

theorem Inv.changes (inv : Inv s) {a a' : Admin ι ρ} (ha : s.admin = a') {t : ThreadRecorder ι ρ}
    {rings : List (ι × Nat)} {bytes : Nat} (hsessions : Sessions s.active s.last s.next a) (hok : Ok s.last q t (s.threads q))
    (hholder : t.ring_holder = (s.recorder q).ring_holder ∨ (s.recorder q).ring_holder = none ∨
      (s.recorder q).ring_holder = some .admin)
    (hretired : (s.recorder q).retired = true → t.retired = true) (hhistory : t.history = (s.recorder q).history)
    (hwaiting : a.waiting = none) (hquiet : a.quiet = true → a'.quiet = true)
    (hrings : ∀ y, a.rings = some y → y = q ∧ t.ring_holder = some .admin)
    (hlisted : ∀ e ∈ rings, e ∈ s.retired_rings) (hflags : a.flags = none)
    (hreading : Reading (fun x => if x = q then t else s.recorder x) a) (hsettled : a.settled = none)
    (hunder : a.snapshots = none ∨ a.snapshots = a'.snapshots) :
    Inv (({ s with retired_rings := rings, allocated_bytes := bytes }.set q t).becomes a) := by
  subst ha
  have hcases : ∀ {P : ThreadRecorder ι ρ → Prop} x, P (s.recorder x) → (x = q → P t) →
      P (if x = q then t else s.recorder x) := fun x hold hnew => by
    split
    · next h => exact hnew h
    · exact hold
  refine inv.rule rfl rfl (Nat.le_refl _) hsessions ?_ ?_ ?_ ?_ ?_ ?_ ?_ hlisted ?_ hreading ?_ ?_ fun r hr => .inl hr
  · exact fun x => hcases (P := fun u => Ok s.last x u (s.threads x)) x (inv.ok x) (by rintro rfl; exact hok)
  · intro x y hx
    have hold := inv.rings.thread x y hx
    refine hcases (P := fun u => u.ring_holder = some (.thread x)) y hold ?_
    rintro rfl
    rcases hholder with h | h | h
    · rw [h]; exact hold
    · rw [h] at hold; cases hold
    · rw [h] at hold; cases hold
  · exact fun x hx => hcases (P := fun u => u.retired = true) x hx (by rintro rfl; exact hretired hx)
  · exact fun x e he => hcases (P := fun u => e ∈ u.history) x he (by rintro rfl; rw [hhistory]; exact he)
  · exact fun todo ht => absurd (hwaiting.symm.trans ht) nofun
  · exact fun h => inv.writers.quiet (hquiet h)
  · intro y hy
    obtain ⟨rfl, hh⟩ := hrings y hy
    show (if y = y then t else _).ring_holder = _
    rw [if_pos rfl]
    exact hh
  · exact fun x hx => absurd (hflags.symm.trans hx) nofun
  · exact fun S x hx => absurd (hsettled.symm.trans hx) nofun
  · rcases hunder with h | h
    · exact fun S ts hts => absurd (h.symm.trans hts) nofun
    · exact fun S ts hts => inv.snapshots.under_way S ts (h.symm.trans hts)

end Rules

end Seismograph
