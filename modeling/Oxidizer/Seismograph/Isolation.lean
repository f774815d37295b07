import Oxidizer.Seismograph.Threads
/-!
# Snapshots are isolated by session

A session that reuses a ring does not clear it. When a call has advanced the index
and the slot still has the event that an earlier session wrote under the same number,
a snapshot takes it for an event of its own session. As long as no call advances the
index over such a slot, every snapshot has only events of its session.
-/

namespace Seismograph

open Lib List Recording Option

variable {ι ρ : Type} [DecidableEq ι] {s : Recording ι ρ} {p : ι}

section Operations

/-! ## Configuration -/

variable {a : Admin ι ρ}

variable (inv : Inv s)
include inv

omit [DecidableEq ι] in
theorem Inv.sessions_at (ha : s.admin = a) : Sessions s.active s.last s.next a := ha ▸ inv.sessions

omit inv in
structure Admin.Plain (a : Admin ι ρ) : Prop where
  flags : a.flags = Option.none
  seen : a.seen = Option.none
  part : a.part = Option.none
  locks : a.locks = Option.none
  settled : a.settled = Option.none
  copies : a.copies = Option.none

omit [DecidableEq ι] inv in
theorem Admin.Plain.reading (h : a.Plain) (recorder : ι → ThreadRecorder ι ρ) : Reading recorder a :=
  ⟨by rw [h.seen]; exact nofun, by rw [h.part]; exact nofun, by rw [h.locks]; exact nofun, by rw [h.copies]; exact nofun⟩

variable {policies : EventClass → Nat} {capacity : Nat} {a' : Admin ι ρ}

omit [DecidableEq ι] inv in
theorem Sessions.keep {active last next : Nat} (h : Sessions active last next a)
    (hfresh : ∀ n, a'.fresh = some n → last < n ∧ n < next) (hpublished : ∀ n, a'.published = some n → n = last)
    (hzero : a'.zero = true → active = 0) (hsession : ∀ S, a'.session = some S → S = last ∧ S ≠ 0) :
    Sessions active last next a' := ⟨h.current, h.bounded, hfresh, hpublished, hzero, hsession⟩

omit [DecidableEq ι] in
theorem Inv.continues {active last next : Nat} {returned : List (Nat × List (ThreadSnapshot ι ρ))} (ha : s.admin = a)
    (hlast : s.last ≤ last) (hsessions : Sessions active last next a')
    (hwaiting : ∀ todo, a'.waiting = some todo → ∀ x, (s.threads x).within = true → x ∈ todo)
    (hquiet : (a'.quiet = true → a.quiet = true) ∨ ∀ x, (s.threads x).within = false)
    (hplain : a'.Plain) (hrings : a'.rings = none) (hunder : a'.snapshots = none ∨ a'.snapshots = a.snapshots)
    (hreturned : ∀ r ∈ returned, r ∈ s.returned ∨ a.snapshots = some r) :
    Inv { s with policy := policies, capacity, active, last, next, admin := a', returned } := by
  subst ha
  refine inv.goes_on hlast hsessions hwaiting ?_ (by rw [hrings]; exact nofun) (fun _ h => h)
    (by rw [hplain.flags]; exact nofun) (hplain.reading _) (by rw [hplain.settled]; exact nofun) ?_ hreturned
  · rcases hquiet with h | h
    · exact fun hq => inv.writers.quiet (h hq)
    · exact fun _ => h
  · rcases hunder with h | h
    · rw [h]; exact nofun
    · rw [h]; exact inv.snapshots.under_way

omit [DecidableEq ι] in
theorem Inv.returns {events : Events ι ρ} (ha : s.admin = a) (hevents : events = none ∨ a.snapshots = events) :
    Inv { s with returned := events.toList ++ s.returned, admin := .none } := by
  refine inv.continues ha .refl ((inv.sessions_at ha).keep nofun nofun nofun nofun) nofun (.inl nofun)
    ⟨rfl, rfl, rfl, rfl, rfl, rfl⟩ rfl (.inl rfl) fun x hx => ?_
  rcases mem_append.mp hx with hx | hx
  · have he := mem_toList.mp hx
    rcases hevents with hn | hn
    · rw [hn] at he; cases he
    · exact .inr (hn.trans he)
  · exact .inl hx

omit inv in
/-- Where the operation neither walks over recorders nor has waited for the writers. -/
def Admin.bare : Admin ι ρ → Bool
  | .none | .conf_off | .conf_zero _ _ | .conf_capacity _ _ | .conf_policy _ _ | .conf_next | .conf_last _ | .conf_active _
  | .last Option.none | .swap _ _ | .disable _ _ | .wait_head _ | .restore _ _ | .restore_active _ => true
  | _ => false

omit [DecidableEq ι] in
theorem Inv.passes {active last next : Nat} (hbare : a.bare = true) (hlast : s.last ≤ last)
    (hsessions : Sessions active last next a) :
    Inv { s with policy := policies, capacity, active, last, next, admin := a } := by
  have hplain : a.waiting = none ∧ a.quiet = false ∧ a.snapshots = none ∧ a.rings = none ∧ a.Plain := by
    cases a with
    | last reset =>
      cases reset with
      | none => exact ⟨rfl, rfl, rfl, rfl, rfl, rfl, rfl, rfl, rfl, rfl⟩
      | some r => cases hbare
    | _ => first | exact ⟨rfl, rfl, rfl, rfl, rfl, rfl, rfl, rfl, rfl, rfl⟩ | cases hbare
  obtain ⟨hwaiting, hquiet, hunder, hrings, hrest⟩ := hplain
  exact inv.continues rfl hlast hsessions (by rw [hwaiting]; exact nofun) (.inl (by rw [hquiet]; exact nofun)) hrest hrings
    (.inl hunder) fun _ => .inl

omit inv in
/-- Where the events of a snapshot are kept while the recorders are cleared. -/
def Admin.clears : Admin ι ρ → Bool
  | .next_session _ _ | .clear_head _ _ _ | .clear _ _ _ _ | .publish_last _ _ _ | .publish_active _ _ _ | .publish_policy _ _ _ => true
  | _ => false

omit [DecidableEq ι] in
theorem Inv.clearing {active last next : Nat} (ha : s.admin = a) (hclears : a'.clears = true)
    (hquiet : a'.quiet = true → a.quiet = true) (hunder : a'.snapshots = a.snapshots) (hlast : s.last ≤ last)
    (hsessions : Sessions active last next a') :
    Inv { s with policy := policies, capacity, active, last, next, admin := a' } := by
  have hplain : a'.waiting = none ∧ a'.rings = none ∧ a'.Plain := by
    cases a' <;> first | exact ⟨rfl, rfl, rfl, rfl, rfl, rfl, rfl, rfl⟩ | cases hclears
  obtain ⟨hwaiting, hrings, hrest⟩ := hplain
  exact inv.continues ha hlast hsessions (by rw [hwaiting]; exact nofun) (.inl hquiet) hrest hrings (.inr hunder) fun _ => .inl

omit [DecidableEq ι] in
theorem Inv.configure (hnone : s.admin = .none) :
    Inv (s.configure policies capacity) := by
  have h := inv.sessions_at hnone
  unfold Recording.configure
  split
  · exact inv.passes rfl .refl (h.keep nofun nofun nofun nofun)
  · split
    · exact inv
    · exact inv.passes rfl .refl (h.keep nofun nofun nofun nofun)

/-! ## Writers are waited for -/

variable {r : Reset} {events : Events ι ρ} {n : Nat}

omit [DecidableEq ι] inv in
theorem within_active {pc : Pc ι ρ} (h : pc.within = true) : pc.active = true ∧ pc.registered = true := by
  cases pc <;> first | exact ⟨rfl, rfl⟩ | cases h

theorem Inv.wait_head (ha : s.admin = .wait_head r) : Inv s.manage := by
  have h := inv.sessions_at ha
  simp only [manage, ha]
  refine inv.continues ha .refl (h.keep nofun nofun h.zero nofun) ?_ (.inl nofun) ⟨rfl, rfl, rfl, rfl, rfl, rfl⟩ rfl (.inl rfl)
    fun _ => .inl
  -- a thread that has found its session active is registered
  rintro todo ⟨⟩ x hx
  exact inv.writers.registered x (within_active hx).2

variable {todo : List ι}

theorem Inv.wait (ha : s.admin = .wait r todo) (hman : s.Manageable) : Inv s.manage := by
  have h := inv.sessions_at ha
  have hwait := inv.writers.waiting todo (by rw [ha]; rfl)
  unfold Recording.Manageable at hman
  rw [ha] at hman
  cases todo with
  | cons p todo =>
    simp only [manage, ha]
    refine inv.continues ha .refl (h.keep nofun nofun h.zero nofun) ?_ (.inl nofun) ⟨rfl, rfl, rfl, rfl, rfl, rfl⟩ rfl
      (.inl rfl) fun _ => .inl
    rintro todo' ⟨⟩ x hx
    rcases mem_cons.mp (hwait x hx) with rfl | hin
    · have hwriter := (inv.ok x).writer (within_active hx).1
      exact absurd ((show (s.recorder x).writer_active = false from hman).symm.trans hwriter) nofun
    · exact hin
  | nil =>
    have hnone : ∀ x, (s.threads x).within = false := fun x => by
      by_contra hne
      have hin := hwait x (by simpa using hne)
      cases hin
    simp only [manage, ha]
    split
    all_goals
      exact inv.continues ha .refl (h.keep nofun nofun (fun _ => h.zero rfl) nofun) nofun (.inr hnone)
        ⟨rfl, rfl, rfl, rfl, rfl, rfl⟩ rfl (.inl rfl) fun _ => .inl

/-! ## Snapshots -/

variable {w : Walk ι ρ} {t : ThreadSnapshot ι ρ} {id index : Nat} {reset : Option Reset}

omit [DecidableEq ι] inv in
theorem walks_quiet (h : a.walks = some reset) (hr : reset.isSome = true) : a.quiet = true := by
  cases a <;> first | (cases h; exact hr) | cases h

omit [DecidableEq ι] in
theorem Inv.finish (ha : s.admin = a) (hwalks : a.walks = some reset)
    (hevents : events = none ∨ a.snapshots = events) : Inv (s.finish reset events) := by
  subst ha
  have h := inv.sessions
  have hquiet : reset.isSome = true → s.admin.quiet = true := walks_quiet hwalks
  cases reset with
  | some r =>
    refine inv.continues rfl .refl (h.keep nofun nofun (fun _ => h.zero (quiet_zero (hquiet rfl))) nofun) nofun
      (.inl fun _ => hquiet rfl) ⟨rfl, rfl, rfl, rfl, rfl, rfl⟩ rfl ?_ fun _ => .inl
    rcases hevents with he | he
    · exact .inl he
    · exact .inr he.symm
  | none => exact inv.returns rfl hevents

theorem Inv.last (ha : s.admin = .last reset) : Inv s.manage := by
  have h := inv.sessions_at ha
  simp only [manage, ha]
  split
  · exact inv.finish ha rfl (.inl rfl)
  · next hne =>
    refine inv.continues ha .refl (h.keep nofun nofun h.zero ?_) nofun (.inl id) ⟨rfl, rfl, rfl, rfl, rfl, rfl⟩ rfl (.inl rfl)
      fun _ => .inl
    rintro S ⟨⟩
    exact ⟨rfl, hne⟩

omit [DecidableEq ι] in
theorem Inv.reads (ha : s.admin = a)
    (hsame : (a'.waiting, a'.fresh, a'.published, a'.zero, a'.quiet, a'.session) =
      (none, none, none, a.zero, a.quiet, a.session))
    (hrings : ∀ y, a'.rings = some y → a.rings = some y) (hflags : ∀ x, a'.flags = some x → (s.recorder x).retired = true)
    (hreading : Reading s.recorder a')
    (hsettled : ∀ S x, a'.settled = some (S, x) → Written (s.recorder x.thread) S x x.total_events)
    (hunder : a'.snapshots = a.snapshots ∨
      ∀ S ts, a'.snapshots = some (S, ts) → ∀ x ∈ ts, Written (s.recorder x.thread) S x x.total_events) :
    Inv { s with admin := a' } := by
  subst ha
  have h := inv.sessions
  simp only [Prod.mk.injEq] at hsame
  obtain ⟨hwaiting, hfresh, hpublished, hzero, hquiet, hsession⟩ := hsame
  refine inv.goes_on (Nat.le_refl _)
    (h.keep (fun n hn => absurd (hfresh.symm.trans hn) nofun) (fun n hn => absurd (hpublished.symm.trans hn) nofun)
      (fun hz => h.zero (hzero ▸ hz)) fun S hS => h.session S (hsession ▸ hS))
    (fun todo ht => absurd (hwaiting.symm.trans ht) nofun) (fun hq => inv.writers.quiet (hquiet ▸ hq)) hrings
    (fun _ he => he) hflags hreading hsettled ?_ fun r hr => .inl hr
  rcases hunder with h | h
  · rw [h]; exact inv.snapshots.under_way
  · exact h

theorem Inv.head (ha : s.admin = .head reset n) : Inv s.manage := by
  simp only [manage, ha]
  split
  · exact inv.finish ha rfl (.inl rfl)
  · refine inv.reads ha rfl nofun nofun ⟨nofun, nofun, nofun, nofun⟩ nofun (.inr ?_)
    rintro S ts ⟨⟩ x hx
    cases hx

theorem Inv.walk (ha : s.admin = .walk w) : Inv s.manage := by
  have h := inv.sessions_at ha
  simp only [manage, ha]
  split
  · next p todo htodo =>
    split
    · next hsession =>
      refine inv.reads ha rfl nofun nofun ⟨?_, nofun, nofun, nofun⟩ nofun (.inl rfl)
      rintro S q ⟨⟩
      have hne := (h.session w.session rfl).2
      exact ((inv.ok p).kept (by rw [hsession]; exact hne)).1.symm.trans hsession
    · exact inv.reads ha rfl nofun nofun ⟨nofun, nofun, nofun, nofun⟩ nofun (.inl rfl)
  · exact inv.finish ha rfl (.inr rfl)

theorem Inv.lock (ha : s.admin = .lock w p) (hman : s.Manageable) : Inv s.manage := by
  have h := inv.sessions_at ha
  have hok := inv.ok p
  have hseen := inv.reading.seen w.session p (by rw [ha]; rfl)
  unfold Recording.Manageable at hman
  rw [ha] at hman
  simp only [manage, ha]
  refine inv.changes ha (h.keep nofun nofun h.zero h.session)
    (hok.holder _) (.inr (.inl hman)) (fun hr => hr) rfl rfl (fun h => h)
    (by rintro y ⟨⟩; exact ⟨rfl, rfl⟩) (fun _ he => he) rfl ⟨?_, nofun, nofun, nofun⟩ rfl (.inr rfl)
  rintro S q ⟨⟩
  simpa [becomes] using hseen

theorem Inv.total (ha : s.admin = .total w p) : Inv s.manage := by
  have hunder := inv.snapshots.under_way w.session w.threads (by rw [ha]; rfl)
  have hseen := inv.reading.seen w.session p (by rw [ha]; rfl)
  simp only [manage, ha]
  split
  · next r hr =>
    refine inv.reads ha rfl (fun _ hy => hy) nofun ⟨?_, ?_, nofun, nofun⟩ nofun (.inl rfl)
    · rintro S q ⟨⟩
      exact hseen
    · rintro S x id i ⟨⟩
      exact ⟨rfl, Nat.le_refl _, ⟨r, hr, rfl⟩, Nat.le_refl _, nofun, .nil, nofun⟩
  · refine inv.reads ha rfl (fun _ hy => hy) nofun ⟨nofun, nofun, nofun, nofun⟩ nofun (.inr ?_)
    rintro S ts ⟨⟩ x hx
    rcases mem_append.mp hx with hx | hx
    · exact hunder x hx
    · cases mem_singleton.mp hx
      exact ⟨nofun, .nil, nofun⟩

omit [DecidableEq ι] inv in
theorem Ok.hold {last : Nat} {u : ThreadRecorder ι ρ} {pc : Pc ι ρ} {holder : Option (Holder ι)} (hok : Ok last p u pc)
    (hfree : ∀ r, u.ring = some r → (r.slot index).holder ≠ some (.thread p)) :
    Ok last p { u with ring := u.ring.map (·.update index fun slot => { slot with holder }) } pc := by
  have hring : ∀ r', u.ring.map (·.update index fun slot => { slot with holder }) = some r' →
      ∃ r, u.ring = some r ∧ r' = r.update index fun slot => { slot with holder } := fun r' hr' => by
    obtain ⟨r, hr, he⟩ := map_eq_some_iff.mp hr'
    exact ⟨r, hr, he.symm⟩
  refine ⟨hok.call, hok.owner, hok.writer, fun hs => ⟨(hok.kept hs).1, by simpa using (hok.kept hs).2⟩,
    fun c hc => ⟨(hok.begun c hc).1, by simpa using (hok.begun c hc).2⟩, fun i id hi => ?_, fun i hi r' hr' => ?_,
    fun r' i hr' hi hs => ?_, fun i hi r' hr' => ?_, hok.released, hok.measured, hok.retired⟩
  · obtain ⟨hindex, r, hr, hid⟩ := hok.indexed i id hi
    exact ⟨hindex, map_update_id hr hid _ _⟩
  · obtain ⟨r, hr, rfl⟩ := hring r' hr'
    have hheld := hok.locks i hi r hr
    rw [update_slot]
    split
    · next hsame => rw [slot_congr hsame] at hheld; exact absurd hheld (hfree r hr)
    · exact hheld
  · obtain ⟨r, hr, rfl⟩ := hring r' hr'
    have hsame : ((r.update index fun slot => { slot with holder }).slot i).sequence = (r.slot i).sequence ∧
        ((r.update index fun slot => { slot with holder }).slot i).body = (r.slot i).body := by
      rw [update_slot]; split <;> exact ⟨rfl, rfl⟩
    rw [hsame.1] at hs
    rw [hsame.2]
    exact hok.stored r i hr hi hs
  · obtain ⟨r, hr, rfl⟩ := hring r' hr'
    have hnumber := hok.numbered i hi r hr
    rw [update_slot]
    split
    · exact hnumber
    · exact hnumber

omit [DecidableEq ι] inv in
theorem Part.hold {u : ThreadRecorder ι ρ} {S i : Nat} {f : Slot ι ρ → Slot ι ρ} (h : Part u S t id i) :
    Part { u with ring := u.ring.map (·.update index f) } S t id i := by
  obtain ⟨r, hr, hid⟩ := h.ring
  exact ⟨h.epoch, h.total, map_update_id hr hid _ _, h.first, h.written.written, h.written.increasing, h.written.window⟩

theorem Inv.read_slot (ha : s.admin = .slot w t id index) (hman : s.Manageable) : Inv s.manage := by
  have h := inv.sessions_at ha
  have hok := inv.ok t.thread
  have hseen := inv.reading.seen w.session t.thread (by rw [ha]; rfl)
  have hpart := inv.reading.part w.session t id index (by rw [ha]; rfl)
  have hheld := inv.rings.admin t.thread (by rw [ha]; rfl)
  unfold Recording.Manageable at hman
  rw [ha] at hman
  obtain ⟨r, hr, hid⟩ := hpart.ring
  unfold manage
  simp only [ha]
  split
  · next hlt =>
    have hnone : (r.slot index).holder = none := by
      have hfree := hman hlt
      unfold slot_holder at hfree
      rw [hr] at hfree
      exact hfree
    refine inv.changes ha (h.keep nofun nofun h.zero h.session) (hok.hold fun r' hr' => ?_) (.inl rfl) (fun hr => hr) rfl rfl
      (fun h => h) (by rintro y ⟨⟩; exact ⟨rfl, hheld⟩) (fun _ he => he) rfl ⟨?_, ?_, ?_, ?_⟩ rfl (.inr rfl)
    · cases some.inj (hr'.symm.trans hr)
      rw [hnone]
      nofun
    · rintro S q ⟨⟩
      simpa using hseen
    · rintro S x id' i ⟨⟩
      simpa using hpart.hold
    · rintro q i ⟨⟩
      refine ⟨r.update index fun slot => { slot with holder := some .admin }, ?_, ?_⟩
      · simp [hr]
      · simp
    · rintro x i ⟨⟩
      exact hlt
  · refine inv.reads ha rfl (fun _ hy => hy) nofun ⟨nofun, nofun, nofun, nofun⟩ ?_ (.inl rfl)
    rintro S x ⟨⟩
    refine ⟨hpart.written.written, hpart.written.increasing, fun e he => ?_⟩
    obtain ⟨hfirst, -, htotal⟩ := hpart.written.window e he
    exact ⟨hfirst, htotal, htotal⟩

/-- A slot is copied: what has the number of the index was written in this session. -/
theorem Inv.copy (ha : s.admin = .copy w t id index) : Inv s.manage := by
  have hok := inv.ok t.thread
  have hseen := inv.reading.seen w.session t.thread (by rw [ha]; rfl)
  have hpart := inv.reading.part w.session t id index (by rw [ha]; rfl)
  have hlt := inv.reading.below t index (by rw [ha]; rfl)
  obtain ⟨r, hr, hholder⟩ := inv.reading.locks t.thread index (by rw [ha]; rfl)
  have hwindow : ∀ e ∈ t.events, t.total_events - t.capacity < e.1 ∧ e.1 ≤ index + 1 ∧ e.1 ≤ t.total_events := fun e he => by
    obtain ⟨hfirst, hindex, htotal⟩ := hpart.written.window e he
    exact ⟨hfirst, Nat.le_succ_of_le hindex, htotal⟩
  simp only [manage, ha]
  split
  case h_2 hnone => exact absurd (hr.symm.trans hnone) nofun
  next r₀ hr₀ =>
  cases some.inj (hr₀.symm.trans hr)
  split
  · next hnumber =>
    refine inv.reads ha rfl (fun _ hy => hy) nofun ⟨?_, ?_, ?_, nofun⟩ nofun (.inl rfl)
    · rintro S q ⟨⟩
      exact hseen
    · rintro S x id' i ⟨⟩
      refine ⟨hpart.epoch, hpart.total, hpart.ring, Nat.le_succ_of_le hpart.first, ?_, ?_, ?_⟩
      · intro e he
        rcases mem_append.mp he with he | he
        · exact hpart.written.written e he
        · cases mem_singleton.mp he
          rcases hok.stored r index hr (Nat.lt_of_lt_of_le hlt hpart.total) hnumber with hf | hf
          · -- the writer would have the lock of the slot
            have hlocks : (s.threads t.thread).locks = some index := by
              generalize s.threads t.thread = pc at hf
              cases pc <;> first | exact hf | cases hf
            rw [hok.locks index hlocks r hr] at hholder
            cases hholder
          · rw [hseen, ← hpart.epoch, ← hnumber] at hf
            exact hf
      · rw [map_append, pairwise_append]
        refine ⟨hpart.written.increasing, by simp, fun a ha' b hb => ?_⟩
        obtain ⟨e, he, rfl⟩ := mem_map.mp ha'
        cases mem_singleton.mp hb
        rw [hnumber]
        exact Nat.lt_succ_of_le (hpart.written.window e he).2.1
      · intro e he
        rcases mem_append.mp he with he | he
        · exact hwindow e he
        · cases mem_singleton.mp he
          rw [hnumber]
          exact ⟨Nat.lt_succ_of_le hpart.first, Nat.le_refl _, hlt⟩
    · rintro q i ⟨⟩
      exact ⟨r, hr, hholder⟩
  · refine inv.reads ha rfl (fun _ hy => hy) nofun ⟨?_, ?_, ?_, nofun⟩ nofun (.inl rfl)
    · rintro S q ⟨⟩
      exact hseen
    · rintro S x id' i ⟨⟩
      exact ⟨hpart.epoch, hpart.total, hpart.ring, Nat.le_succ_of_le hpart.first, hpart.written.written,
        hpart.written.increasing, hwindow⟩
    · rintro q i ⟨⟩
      exact ⟨r, hr, hholder⟩

theorem Inv.unslot (ha : s.admin = .unslot w t id index) : Inv s.manage := by
  have h := inv.sessions_at ha
  have hok := inv.ok t.thread
  have hseen := inv.reading.seen w.session t.thread (by rw [ha]; rfl)
  have hpart := inv.reading.part w.session t id (index + 1) (by rw [ha]; rfl)
  have hheld := inv.rings.admin t.thread (by rw [ha]; rfl)
  obtain ⟨r, hr, hholder⟩ := inv.reading.locks t.thread index (by rw [ha]; rfl)
  simp only [manage, ha]
  refine inv.changes ha (h.keep nofun nofun h.zero h.session) (hok.hold fun r' hr' => ?_) (.inl rfl) (fun hr => hr) rfl rfl
    (fun h => h) (by rintro y ⟨⟩; exact ⟨rfl, hheld⟩) (fun _ he => he) rfl ⟨?_, ?_, nofun, nofun⟩ rfl (.inr rfl)
  · cases some.inj (hr'.symm.trans hr)
    rw [hholder]
    nofun
  · rintro S q ⟨⟩
    simpa [becomes, set_slot] using hseen
  · rintro S x id' i ⟨⟩
    simpa [becomes, set_slot] using hpart.hold

theorem Inv.settle (ha : s.admin = .settle w t) : Inv s.manage := by
  have hunder := inv.snapshots.under_way w.session w.threads (by rw [ha]; rfl)
  have hsettled := inv.snapshots.settled w.session t (by rw [ha]; rfl)
  have hall : ∀ x ∈ w.threads ++ [t], Written (s.recorder x.thread) w.session x x.total_events := fun x hx => by
    rcases mem_append.mp hx with hx | hx
    · exact hunder x hx
    · cases mem_singleton.mp hx
      exact hsettled
  simp only [manage, ha]
  split
  · next hretired =>
    exact inv.reads ha rfl (fun _ hy => hy) (by rintro x ⟨⟩; exact hretired)
      ⟨nofun, nofun, nofun, nofun⟩ nofun (.inr (by rintro S ts ⟨⟩; exact hall))
  · exact inv.reads ha rfl (fun _ hy => hy) nofun ⟨nofun, nofun, nofun, nofun⟩ nofun (.inr (by rintro S ts ⟨⟩; exact hall))

theorem Inv.flag (ha : s.admin = .flag w t) : Inv s.manage := by
  have h := inv.sessions_at ha
  have hok := inv.ok t.thread
  have hheld := inv.rings.admin t.thread (by rw [ha]; rfl)
  have hretired := inv.retirement.flags t.thread (by rw [ha]; rfl)
  simp only [manage, ha]
  exact inv.changes ha (h.keep nofun nofun h.zero h.session)
    (hok.flag hretired) (.inl rfl) (fun hr => hr) rfl rfl (fun h => h)
    (by rintro y ⟨⟩; exact ⟨rfl, hheld⟩) (fun _ he => he) rfl ⟨nofun, nofun, nofun, nofun⟩ rfl (.inr rfl)

theorem Inv.forget_settled (ha : s.admin = .forget w t) : Inv s.manage := by
  have h := inv.sessions_at ha
  have hunder := inv.snapshots.under_way w.session w.threads (by rw [ha]; rfl)
  obtain ⟨rings, bytes, hforget, hlisted⟩ := forget_listed s t.thread
  simp only [manage, ha, hforget]
  exact inv.goes_on (Nat.le_refl _) (h.keep nofun nofun h.zero h.session) nofun
    (fun hq => inv.writers.quiet (by rw [ha]; exact hq)) (fun y hy => by rw [ha]; exact hy) hlisted
    nofun ⟨nofun, nofun, nofun, nofun⟩ nofun (by rintro S ts ⟨⟩; exact hunder) fun r hr => .inl hr

theorem Inv.unlocks (ha : s.admin = a) (hheld : a.rings = some p) (hsessions : Sessions s.active s.last s.next a')
    (hquiet : a'.quiet = true → a.quiet = true) (hrings : a'.rings = some p) (hplain : a'.waiting = none ∧ a'.Plain)
    (hunder : a'.snapshots = a.snapshots) : Inv ((s.unlock_ring p).becomes a') := by
  subst ha
  obtain ⟨hwaiting, hplain⟩ := hplain
  have hok := inv.ok p
  have hclaims : ∀ y, a'.rings = some y → y = p ∧ (s.recorder p).ring_holder = some .admin := fun y hy =>
    ⟨some.inj (hy.symm.trans hrings), inv.rings.admin p hheld⟩
  by_cases hflag : (s.recorder p).release_on_unlock = true
  · obtain ⟨rings, bytes, hforget, hlisted⟩ := forget_listed s p
    simp only [Recording.unlock_ring, ThreadRecorder.unlock, hflag, if_true, hforget]
    exact inv.changes rfl hsessions (hok.release (exited_within (hok.retired (hok.released hflag)))) (.inl rfl)
      (fun hr => hr) rfl hwaiting hquiet hclaims hlisted hplain.flags (hplain.reading _) hplain.settled (.inr hunder)
  · rw [unlock_of_kept (by simpa using hflag)]
    have hchanges : Inv ((s.set p (s.recorder p)).becomes a') := inv.changes rfl hsessions hok (.inl rfl)
      (fun hr => hr) rfl hwaiting hquiet hclaims (fun _ he => he) hplain.flags (hplain.reading _) hplain.settled (.inr hunder)
    rw [set_self] at hchanges
    exact hchanges

omit [DecidableEq ι] inv in
theorem fail_sessions {active last next : Nat} (h : Sessions active last next a) (hwalks : a.walks = some
    reset) :
    Sessions active last next (Recording.fail reset : Admin ι ρ) := by
  cases reset with
  | none => exact ⟨h.current, h.bounded, nofun, nofun, nofun, nofun⟩
  | some r =>
    exact ⟨h.current, h.bounded, nofun, nofun, fun _ => h.zero (quiet_zero (walks_quiet hwalks rfl)), nofun⟩

omit [DecidableEq ι] inv in
theorem fail_plain (reset : Option Reset) : let a : Admin ι ρ := Recording.fail reset
    a.quiet = false ∧ a.rings = none ∧ a.snapshots = none ∧ a.waiting = none ∧ a.Plain := by
  cases reset <;> exact ⟨rfl, rfl, rfl, rfl, rfl, rfl, rfl, rfl, rfl, rfl⟩

theorem Inv.frees (ha : s.admin = a) (hheld : a.rings = some p) (hsessions : Sessions s.active s.last s.next a')
    (hquiet : a'.quiet = true → a.quiet = true) (hrings : a'.rings = none) (hplain : a'.waiting = none ∧ a'.Plain)
    (hunder : a'.snapshots = none ∨ a'.snapshots = a.snapshots) :
    Inv ((s.set p { s.recorder p with ring_holder := none }).becomes a') := by
  subst ha
  obtain ⟨hwaiting, hplain⟩ := hplain
  exact inv.changes rfl hsessions ((inv.ok p).holder _) (.inr (.inr (inv.rings.admin p hheld))) (fun hr => hr) rfl
    hwaiting hquiet (by rw [hrings]; exact nofun) (fun _ he => he) hplain.flags (hplain.reading _) hplain.settled hunder

theorem Inv.free {failed : Bool} (ha : s.admin = .free w p failed) : Inv s.manage := by
  have h := inv.sessions_at ha
  simp only [manage, ha]
  split
  · obtain ⟨hquiet, hrings, hunder, hplain⟩ := fail_plain (ι := ι) (ρ := ρ) w.reset
    exact inv.frees ha rfl (fail_sessions h rfl) (fun hq => absurd (hquiet.symm.trans hq) nofun) hrings hplain (.inl hunder)
  · exact inv.frees ha rfl (h.keep nofun nofun h.zero h.session) (fun h => h) rfl ⟨rfl, rfl, rfl, rfl, rfl, rfl, rfl⟩
      (.inr rfl)

/-! ## Clearing -/

theorem Inv.clear (ha : s.admin = .clear r events n todo) : Inv s.manage := by
  have h := inv.sessions_at ha
  cases todo with
  | cons p todo =>
    simp only [manage, ha]
    exact inv.continues ha .refl (h.keep h.fresh nofun h.zero nofun) nofun (.inl id) ⟨rfl, rfl, rfl, rfl, rfl, rfl⟩ rfl
      (.inr rfl) fun _ => .inl
  | nil =>
    simp only [manage, ha]
    split
    · exact inv.returns ha (.inr rfl)
    · exact inv.clearing ha rfl id rfl .refl (h.keep h.fresh nofun h.zero nofun)

theorem Inv.clear_lock {release : Bool} (ha : s.admin = .clear_lock r events n todo p release)
    (hman : s.Manageable) : Inv s.manage := by
  have h := inv.sessions_at ha
  have hok := inv.ok p
  unfold Recording.Manageable at hman
  rw [ha] at hman
  simp only [manage, ha]
  exact inv.changes ha (h.keep h.fresh nofun h.zero nofun)
    (hok.holder _) (.inr (.inl hman)) (fun hr => hr) rfl rfl (fun h => h)
    (by rintro y ⟨⟩; exact ⟨rfl, rfl⟩) (fun _ he => he) rfl ⟨nofun, nofun, nofun, nofun⟩ rfl (.inr rfl)

omit [DecidableEq ι] inv in
theorem Ok.clear {last : Nat} {u : ThreadRecorder ι ρ} {pc : Pc ι ρ} {release : Bool} (hok : Ok last p u pc)
    (hwithin : pc.within = false) : Ok last p (u.clear release) pc := by
  have hno : pc.begun = none ∧ pc.indexed = none ∧ pc.locks = none ∧ pc.filling = none := by
    cases pc <;> first | exact ⟨rfl, rfl, rfl, rfl⟩ | cases hwithin
  have hcleared : Ok last p { u with write_index := 0, session := 0 } pc :=
    ⟨hok.call, hok.owner, hok.writer, fun hs => absurd rfl hs, by rw [hno.1]; exact nofun, by rw [hno.2.1]; exact nofun,
      by rw [hno.2.2.1]; exact nofun, fun r i _ hi => absurd hi (Nat.not_lt_zero i), by rw [hno.2.2.2]; exact nofun,
      hok.released, hok.measured, hok.retired⟩
  unfold ThreadRecorder.clear
  simp only
  split
  · exact hcleared.release hwithin
  · exact hcleared

omit [DecidableEq ι] inv in
theorem clear_kept (u : ThreadRecorder ι ρ) (release : Bool) : (u.clear release).ring_holder = u.ring_holder ∧
    (u.clear release).retired = u.retired ∧ (u.clear release).history = u.history := by
  cases release <;> exact ⟨rfl, rfl, rfl⟩

theorem Inv.clear_ring {release : Bool} (ha : s.admin = .clear_ring r events n todo p release) :
    Inv s.manage := by
  have h := inv.sessions_at ha
  have hheld := inv.rings.admin p (by rw [ha]; rfl)
  have hwithin := inv.writers.quiet (by rw [ha]; rfl) p
  obtain ⟨hholder, hretired, hhistory⟩ := clear_kept (s.recorder p) release
  obtain ⟨rings, bytes, hforget, hlisted⟩ := forget_listed s p
  have hsessions : Sessions s.active s.last s.next (.clear_unlock r events n todo p : Admin ι ρ) :=
    (h.keep h.fresh nofun h.zero nofun)
  have hclaims : ∀ y, (Admin.clear_unlock r events n todo p : Admin ι ρ).rings = some y →
      y = p ∧ ((s.recorder p).clear release).ring_holder = some .admin := by
    rintro y ⟨⟩
    exact ⟨rfl, hholder.trans hheld⟩
  simp only [manage, ha]
  split
  · rw [hforget]
    exact inv.changes ha hsessions ((inv.ok p).clear hwithin) (.inl hholder)
      (fun hr => hretired.trans hr) hhistory rfl (fun h => h) hclaims hlisted rfl ⟨nofun, nofun, nofun, nofun⟩ rfl (.inr rfl)
  · exact inv.changes ha hsessions ((inv.ok p).clear hwithin) (.inl hholder)
      (fun hr => hretired.trans hr) hhistory rfl (fun h => h) hclaims (fun _ he => he) rfl
      ⟨nofun, nofun, nofun, nofun⟩ rfl (.inr rfl)

/-! ## The operation's steps -/

theorem Inv.manage (hman : s.Manageable) (hfresh : Fresh s .manage) : Inv s.manage := by
  obtain ⟨a, ha⟩ : ∃ a, s.admin = a := ⟨_, rfl⟩
  have h := inv.sessions_at ha
  cases a with
  | none => unfold Recording.Manageable at hman; rw [ha] at hman; exact hman.elim
  | conf_off | conf_zero policies capacity | swap disposition capture =>
    simp only [Recording.manage, ha]
    exact inv.passes rfl .refl ⟨fun hne => absurd rfl hne, h.bounded, nofun, nofun, fun _ => rfl, nofun⟩
  | conf_capacity policies capacity =>
    simp only [Recording.manage, ha]
    exact inv.passes rfl .refl (h.keep nofun nofun h.zero nofun)
  | conf_policy policies todo =>
    cases todo <;> simp only [Recording.manage, ha]
    · split
      · exact inv.passes rfl .refl (h.keep nofun nofun h.zero nofun)
      · exact inv.passes rfl .refl (h.keep nofun nofun nofun nofun)
    · exact inv.passes rfl .refl (h.keep nofun nofun h.zero nofun)
  | conf_next =>
    simp only [Recording.manage, ha, Nat.mod_eq_of_lt (hfresh.next (.inl ha))]
    refine inv.passes rfl .refl ⟨h.current, Nat.lt_succ_of_lt h.bounded, ?_, nofun, h.zero, nofun⟩
    rintro n ⟨⟩
    exact ⟨h.bounded, Nat.lt_succ_self _⟩
  | conf_last n =>
    obtain ⟨hlt, hnext⟩ := h.fresh n rfl
    simp only [Recording.manage, ha]
    refine inv.passes rfl (Nat.le_of_lt hlt) ⟨fun hne => absurd (h.zero rfl) hne, hnext, nofun, ?_, h.zero, nofun⟩
    rintro m ⟨⟩
    rfl
  | conf_active n =>
    simp only [Recording.manage, ha]
    exact inv.passes rfl .refl ⟨fun _ => h.published n rfl, h.bounded, nofun, nofun, nofun, nofun⟩
  | last reset => exact inv.last ha
  | head reset n => exact inv.head ha
  | walk w => exact inv.walk ha
  | lock w p => exact inv.lock ha hman
  | total w p => exact inv.total ha
  | slot w t id index => exact inv.read_slot ha hman
  | copy w t id index => exact inv.copy ha
  | unslot w t id index => exact inv.unslot ha
  | settle w t => exact inv.settle ha
  | flag w t => exact inv.flag ha
  | forget w t => exact inv.forget_settled ha
  | unlock w p failed =>
    simp only [Recording.manage, ha]
    exact inv.unlocks ha rfl (h.keep nofun nofun h.zero h.session) id rfl ⟨rfl, rfl, rfl, rfl, rfl, rfl, rfl⟩ rfl
  | free w p failed => exact inv.free ha
  | disable r todo | restore r todo =>
    cases todo <;> simp only [Recording.manage, ha]
    all_goals exact inv.passes rfl .refl (h.keep nofun nofun h.zero nofun)
  | wait_head r => exact inv.wait_head ha
  | wait r todo => exact inv.wait ha hman
  | restore_active r =>
    simp only [Recording.manage, ha]
    refine inv.passes rfl .refl ⟨?_, h.bounded, nofun, nofun, nofun, nofun⟩
    split
    · exact fun _ => rfl
    · exact fun hne => absurd rfl hne
  | next_session r events =>
    simp only [Recording.manage, ha, Nat.mod_eq_of_lt (hfresh.next (.inr ⟨_, _, ha⟩))]
    refine inv.clearing ha rfl id rfl .refl ⟨h.current, Nat.lt_succ_of_lt h.bounded, ?_, nofun, h.zero, nofun⟩
    rintro m ⟨⟩
    exact ⟨h.bounded, Nat.lt_succ_self _⟩
  | clear_head r events n =>
    simp only [Recording.manage, ha]
    exact inv.clearing ha rfl id rfl .refl (h.keep h.fresh nofun h.zero nofun)
  | clear r events n todo => exact inv.clear ha
  | clear_lock r events n todo p release => exact inv.clear_lock ha hman
  | clear_ring r events n todo p release => exact inv.clear_ring ha
  | clear_unlock r events n todo p =>
    simp only [Recording.manage, ha]
    exact inv.unlocks ha rfl (h.keep h.fresh nofun h.zero nofun) id rfl ⟨rfl, rfl, rfl, rfl, rfl, rfl, rfl⟩ rfl
  | clear_free r events n todo p =>
    simp only [Recording.manage, ha]
    exact inv.frees ha rfl (h.keep h.fresh nofun h.zero nofun) id rfl ⟨rfl, rfl, rfl, rfl, rfl, rfl, rfl⟩ (.inr rfl)
  | publish_last r events n =>
    obtain ⟨hlt, hnext⟩ := h.fresh n rfl
    simp only [Recording.manage, ha]
    refine inv.clearing ha rfl id rfl (Nat.le_of_lt hlt) ⟨fun hne => absurd (h.zero rfl) hne, hnext, nofun, ?_, h.zero, nofun⟩
    rintro m ⟨⟩
    rfl
  | publish_active r events n =>
    simp only [Recording.manage, ha]
    refine inv.clearing ha rfl nofun rfl .refl ⟨?_, h.bounded, nofun, nofun, nofun, nofun⟩
    split
    · exact fun _ => h.published n rfl
    · exact h.current
  | publish_policy r events todo =>
    cases todo <;> simp only [Recording.manage, ha]
    · exact inv.returns ha (.inr rfl)
    · exact inv.clearing ha rfl nofun rfl .refl (h.keep nofun nofun nofun nofun)

omit [DecidableEq ι] in
theorem Inv.fails (ha : s.admin = a) (hwalks : a.walks = some reset) :
    Inv (s.becomes (Recording.fail reset)) := by
  obtain ⟨hquiet, hrings, hunder, hwaiting, hplain⟩ := fail_plain (ι := ι) (ρ := ρ) reset
  exact inv.continues ha .refl (fail_sessions (ha ▸ inv.sessions) hwalks)
    (fun todo ht => absurd (hwaiting.symm.trans ht) nofun) (.inl fun hq => absurd (hquiet.symm.trans hq) nofun) hplain hrings
    (.inl hunder) fun _ => .inl

omit [DecidableEq ι] in
theorem Inv.admin_expire : Inv s.admin_expire := by
  have h := inv.sessions
  unfold Recording.admin_expire
  split
  · next w p ha => exact inv.fails ha rfl
  · next w t id index ha =>
    exact inv.reads ha rfl (fun _ hy => hy) nofun ⟨nofun, nofun, nofun, nofun⟩ nofun (.inl rfl)
  · next r todo ha =>
    rw [ha] at h
    exact inv.passes rfl .refl (h.keep nofun nofun h.zero nofun)
  · next r events n todo p release ha =>
    rw [ha] at h
    split
    · exact inv.passes rfl .refl (h.keep nofun nofun nofun nofun)
    · exact inv.passes rfl .refl (h.keep nofun nofun h.zero nofun)
  · exact inv

end Operations

/-! ## All runs -/

theorem Inv.call {event_class : EventClass} {body : ρ} (inv : Inv s) (hpc : s.threads p = .idle) :
    Inv (s.goto p (.policy ⟨event_class, body, 0, 0, 0⟩)) := by
  have h := inv.ok p
  rw [hpc] at h
  exact inv.moves (h.rest rfl rfl h.retired) nofun nofun (.inl rfl) rfl

theorem Inv.exit (inv : Inv s) (hpc : s.threads p = .idle) :
    Inv (if p ∈ s.recorders then (s.set p { s.recorder p with retired := true }).goto p .measure else s.goto p .gone) := by
  have h := inv.ok p
  rw [hpc] at h
  split
  · refine inv.turn ?_
      (fun h => absurd rfl h) (fun _ h => h) nofun nofun nofun (.inl rfl) (fun _ => rfl) nofun (fun _ h => .inl h)
      (.inl (.of_same rfl rfl rfl rfl)) fun _ h => h
    rw [if_pos rfl]
    exact ⟨nofun, h.owner, nofun, h.kept, nofun, nofun, nofun, h.stored, nofun, fun _ => rfl, fun _ => rfl, fun _ => rfl⟩
  · exact inv.moves (h.rest rfl rfl fun _ => rfl) nofun nofun (.inl rfl) rfl

variable [Inhabited ρ]

theorem Inv.init (h : (Recording.system ι ρ).init s) : Inv s := by
  obtain ⟨hactive, hlast, hnext, hrecorders, hadmin, hrings, hreturned, hthreads, hrecorder⟩ := h
  refine ⟨fun p => ?_, ?_, ?_, ?_, ?_, ?_, ?_⟩
  · rw [hthreads, hrecorder]
    exact ⟨nofun, Nat.zero_le _, nofun, fun hs => absurd rfl hs, nofun, nofun, nofun, nofun, nofun, nofun, nofun, nofun⟩
  · rw [hactive, hlast, hnext, hadmin]
    exact ⟨fun hne => absurd rfl hne, Nat.zero_lt_one, nofun, nofun, nofun, nofun⟩
  · rw [hadmin]
    exact ⟨fun p hp => (by rw [hthreads] at hp; cases hp), nofun, nofun⟩
  · rw [hadmin]
    exact ⟨fun p q hp => (by rw [hthreads] at hp; cases hp), nofun⟩
  · rw [hadmin, hrings]
    exact ⟨nofun, fun p q hp => (by rw [hthreads] at hp; cases hp), nofun⟩
  · rw [hadmin]
    exact ⟨nofun, nofun, nofun, nofun⟩
  · rw [hadmin, hreturned]
    exact ⟨nofun, nofun, nofun⟩

theorem Inv.reachable (h : ((Recording.system ι ρ).limit Fresh).Reachable s) : Inv s := by
  refine Lts.Reachable.inv (L := (system ι ρ).limit Fresh) Inv (fun _ hinit => Inv.init hinit) (fun s a s' _ inv hs => ?_) h
  obtain ⟨hs, hfresh⟩ := hs
  have hsessions := inv.sessions
  cases a with
  | call p event_class body => obtain ⟨hpc, rfl⟩ := hs; exact inv.call hpc
  | exit p => obtain ⟨hpc, rfl⟩ := hs; exact inv.exit hpc
  | step p => obtain ⟨henabled, rfl⟩ := hs; exact inv.step henabled hfresh
  | expire p => cases hs; exact inv.expire
  | configure policies capacity => obtain ⟨hnone, rfl⟩ := hs; exact inv.configure hnone
  | snapshot | reset disposition capture =>
    obtain ⟨hnone, rfl⟩ := hs
    exact inv.passes rfl .refl (hsessions.keep nofun nofun nofun nofun)
  | manage => obtain ⟨hman, rfl⟩ := hs; exact inv.manage hman hfresh
  | admin_expire => cases hs; exact inv.admin_expire

omit [DecidableEq ι] [Inhabited ρ] in
theorem Inv.sound (inv : Inv s) : s.Sound := by
  refine ⟨fun r hr t ht => ?_, fun p id hid => ?_, fun p id hid => ?_⟩
  · have h := inv.snapshots.returned r hr t ht
    exact ⟨h.written, h.increasing, fun e he => ⟨(h.window e he).1, (h.window e he).2.2⟩⟩
  · have hindexed : ∃ i, (s.threads p).indexed = some (i, id) := by
      generalize s.threads p = pc at hid
      cases pc <;> first | (cases hid; exact ⟨_, rfl⟩) | cases hid
    obtain ⟨i, hi⟩ := hindexed
    exact ((inv.ok p).indexed i id hi).2
  · have hpart : ∃ S x i, s.admin.part = some (S, x, id, i) ∧ x.thread = p := by
      generalize s.admin = a at hid
      cases a <;> first | (cases hid; exact ⟨_, _, _, rfl, rfl⟩) | cases hid
    obtain ⟨S, x, i, hx, rfl⟩ := hpart
    exact (inv.reading.part S x id i hx).ring

/-- In every run in which no call advances the index over a slot that has the number of the next event, what snapshots
return was written by the calls of their session since it was begun, and no ring is accessed after its release. -/
theorem snapshots_isolated (s : Recording ι ρ) (h : ((Recording.system ι ρ).limit Fresh).Reachable s) : s.Sound :=
  (Inv.reachable h).sound

/-! ## Runs -/

section Runs

instance (s : Recording ι ρ) (p : ι) : Decidable (s.Enabled p) := by
  unfold Recording.Enabled
  split <;> infer_instance

instance (s : Recording ι ρ) : Decidable s.Manageable := by
  unfold Recording.Manageable
  split <;> infer_instance

/-- A step of the system, computed. -/
def exec (s : Recording ι ρ) : Recording.Action ι ρ → Option (Recording ι ρ)
  | .call p event_class body =>
    match s.threads p with
    | .idle => some (s.goto p (.policy ⟨event_class, body, 0, 0, 0⟩))
    | _ => none
  | .step p => if s.Enabled p then some (s.step p) else none
  | .configure policies capacity =>
    match s.admin with
    | .none => some (s.configure policies capacity)
    | _ => none
  | .snapshot =>
    match s.admin with
    | .none => some (s.becomes (.last none))
    | _ => none
  | .manage => if s.Manageable then some s.manage else none
  | _ => none

theorem exec_step (s : Recording ι ρ) (a : Recording.Action ι ρ) (s' : Recording ι ρ) (h : exec s a = some s') :
    (Recording.system ι ρ).step s a s' := by
  cases a with
  | call p event_class body =>
    simp only [exec] at h
    split at h
    · next hpc => cases h; exact ⟨hpc, rfl⟩
    · cases h
  | step p =>
    simp only [exec] at h
    split at h
    · next he => cases h; exact ⟨he, rfl⟩
    · cases h
  | configure policies capacity | snapshot =>
    simp only [exec] at h
    split at h
    · next hnone => cases h; exact ⟨hnone, rfl⟩
    · cases h
  | manage =>
    simp only [exec] at h
    split at h
    · next hm => cases h; exact ⟨hm, rfl⟩
    · cases h
  | exit p => cases h
  | expire p => cases h
  | reset disposition capture => cases h
  | admin_expire => cases h

end Runs

/-- Nothing is recorded and no thread is registered. -/
def unused : Recording Unit Nat :=
  ⟨fun _ => 0, 6, 0, 0, 1, [], fun _ => ⟨0, none, none, 0, false, false, false, 0, 0, 0, []⟩, fun _ => .idle, .none, [], 0,
      0, 1, []⟩

/-- A thread records an event in one session. The next session is begun by a call that advances the index; a
snapshot is taken before it writes the slot. -/
def stale_run : List (Recording.Action Unit Nat) :=
  .configure (fun _ => 1) 6 :: List.replicate 12 .manage ++ .call () .general 7 :: List.replicate 19 (.step ()) ++
    .configure (fun _ => 3) 6 :: List.replicate 12 .manage ++ .call () .general 8 :: List.replicate 14 (.step ()) ++
    .snapshot :: List.replicate 13 .manage

theorem unused_init : (Recording.system Unit Nat).init unused := ⟨rfl, rfl, rfl, rfl, rfl, rfl, rfl, fun _ => rfl, fun _
    => rfl⟩

/-- An event of a snapshot was not written in its session since the session was begun. -/
def stale (s : Recording Unit Nat) : Bool :=
  s.returned.any fun r => r.2.any fun t => t.events.any fun e =>
    !(s.recorder t.thread).history.contains ⟨r.1, t.epoch, e.1, e.2⟩

theorem stale_not_sound {s : Recording Unit Nat} (h : stale s = true) : ¬s.Sound := by
  intro hsound
  obtain ⟨r, hr, hthreads⟩ := any_eq_true.mp h
  obtain ⟨t, ht, hevents⟩ := any_eq_true.mp hthreads
  obtain ⟨e, he, hmissing⟩ := any_eq_true.mp hevents
  have hwritten := (hsound.returned r hr t ht).written e he
  rw [contains_iff_mem.mpr hwritten] at hmissing
  cases hmissing

/-- A snapshot of the second session returns the event of the first one. -/
theorem snapshot_returns_stale_event : ∃ s : Recording Unit Nat, (Recording.system Unit Nat).Reachable s ∧ ¬s.Sound := by
  have hstale : (stale_run.foldlM exec unused).any stale = true := by decide +kernel
  cases hrun : stale_run.foldlM exec unused with
  | none => rw [hrun] at hstale; cases hstale
  | some s =>
    rw [hrun] at hstale
    exact ⟨s, (Lts.Run.foldlM exec_step stale_run (.init unused_init) hrun).reachable, stale_not_sound hstale⟩

instance (s : Recording Unit Nat) (a : Recording.Action Unit Nat) : Decidable (Fresh s a) := by
  have (p : Unit) : Decidable (∀ r, (s.recorder p).ring = some r →
      (r.slot (s.recorder p).write_index).sequence ≠ (s.recorder p).write_index + 1) := by
    cases (s.recorder p).ring with
    | none => exact isTrue nofun
    | some r => exact decidable_of_iff _ ⟨fun h r' hr' => Option.some.inj hr' ▸ h, fun h => h r rfl⟩
  unfold Fresh
  split
  · split <;> infer_instance
  · split <;> infer_instance
  · infer_instance

/-- A step over a slot that has not the number of the next event. -/
def exec_fresh (s : Recording Unit Nat) (a : Recording.Action Unit Nat) : Option (Recording Unit Nat) :=
  if Fresh s a then exec s a else none

theorem exec_fresh_step (s : Recording Unit Nat) (a : Recording.Action Unit Nat) (s' : Recording Unit Nat)
    (h : exec_fresh s a = some s') : ((Recording.system Unit Nat).limit Fresh).step s a s' := by
  unfold exec_fresh at h
  split at h
  · next hfresh => exact ⟨exec_step s a s' h, hfresh⟩
  · cases h

/-- In a session with rings of the given capacity, a thread records an event and a snapshot is taken. -/
def session_run (capacity body : Nat) : List (Recording.Action Unit Nat) :=
  .configure (fun _ => 1) capacity :: List.replicate 12 .manage ++ .call () .general body :: List.replicate 19 (.step ()) ++
    .snapshot :: List.replicate 13 .manage

/-- Two sessions, the second with larger rings. -/
theorem snapshots_isolated_two : ∃ s : Recording Unit Nat, ((Recording.system Unit Nat).limit Fresh).Reachable s ∧
    s.returned.map (fun r => (r.1, r.2.map (·.events))) = [(2, [[(1, 8)]]), (1, [[(1, 7)]])] ∧ s.Sound := by
  have hreturned : ((session_run 6 7 ++ session_run 7 8).foldlM exec_fresh unused).map
      (fun s => s.returned.map fun r => (r.1, r.2.map (·.events))) = some [(2, [[(1, 8)]]), (1, [[(1, 7)]])] := by decide +kernel
  obtain ⟨s, hrun, hs⟩ := map_eq_some_iff.mp hreturned
  have hreach := (Lts.Run.foldlM exec_fresh_step _ (.init unused_init) hrun).reachable
  exact ⟨s, hreach, hs, snapshots_isolated s hreach⟩

end Seismograph
