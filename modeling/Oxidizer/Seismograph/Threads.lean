import Oxidizer.Seismograph.Sessions
/-!
# What the threads do

One lemma for each step of a call and of the exit of a thread. A call advances the
index before it writes the slot: the only step that needs more than the invariant is
this one (`Fresh`), since the slot may still have the event that an earlier session
wrote under the same number.
-/

namespace Seismograph

open Lib List Recording

variable {ι ρ : Type} [DecidableEq ι] {s : Recording ι ρ} {p q : ι}

/-- The slot over which a call advances the index does not have the number of the next event, and neither the index nor
the number of the next session wraps around. -/
def Fresh (s : Recording ι ρ) : Recording.Action ι ρ → Prop
  | .step p =>
    match s.threads p with
    | .advance _ => (s.recorder p).write_index + 1 < 2 ^ 64 ∧ ∀ r, (s.recorder p).ring = some r →
      (r.slot (s.recorder p).write_index).sequence ≠ (s.recorder p).write_index + 1
    | _ => True
  | .manage =>
    match s.admin with
    | .conf_next | .next_session _ _ => s.next + 1 < 2 ^ 64
    | _ => True
  | _ => True

omit [DecidableEq ι] in
theorem Fresh.next (h : Fresh s .manage) (ha : s.admin = .conf_next ∨ ∃ r events, s.admin = .next_session r events) :
    s.next + 1 < 2 ^ 64 := by
  rcases ha with ha | ⟨r, events, ha⟩ <;> simpa only [Fresh, ha] using h

/-! ## Calls -/

@[simp] theorem set_self (s : Recording ι ρ) (p : ι) : s.set p (s.recorder p) = s := by
  unfold Recording.set
  congr 1
  funext q
  split
  · next h => rw [h]
  · rfl

variable (inv : Inv s)
include inv

omit [DecidableEq ι] in
theorem Inv.ok_at {pc : Pc ι ρ} (hpc : s.threads p = pc) : Ok s.last p (s.recorder p) pc := hpc ▸ inv.ok p

theorem Inv.proceeds {pc : Pc ι ρ} {recorders : List ι} {rings : List (ι × Nat)} {bytes : Nat}
    (hok : Ok s.last p (s.recorder p) pc) (hrecorders : ∀ x ∈ s.recorders, x ∈ recorders)
    (hregistered : pc.registered = true → p ∈ recorders)
    (hwithin : pc.within = true → (s.threads p).within = true ∨ s.active ≠ 0)
    (hclaims : pc.rings p = none ∨ pc.rings p = (s.threads p).rings p)
    (hmarks : ∀ x, pc.marks = some x → (s.recorder x).retired = true)
    (hlisted : ∀ e ∈ rings, e ∈ s.retired_rings ∨ (s.recorder e.1).retired = true) :
    Inv ({ s with recorders, retired_rings := rings, allocated_bytes := bytes }.goto p pc) := by
  rw [← set_self { s with recorders, retired_rings := rings, allocated_bytes := bytes } p]
  refine inv.turn (by rw [if_pos rfl]; exact hok) (fun h => absurd rfl h) hrecorders hregistered hwithin ?_ (.inl rfl) id
    ?_ hlisted (.inl (.refl _)) fun _ h => h
  · intro x hx
    rcases hclaims with h | h
    · rw [h] at hx; cases hx
    · have hold := inv.rings.thread p x (h ▸ hx)
      split
      · next he => subst he; exact hold
      · exact hold
  · exact hmarks

theorem Inv.moves {pc : Pc ι ρ} (hok : Ok s.last p (s.recorder p) pc)
    (hregistered : pc.registered = true → p ∈ s.recorders)
    (hwithin : pc.within = true → (s.threads p).within = true ∨ s.active ≠ 0)
    (hclaims : pc.rings p = none ∨ pc.rings p = (s.threads p).rings p) (hmarks : pc.marks = none) : Inv (s.goto p pc) :=
  inv.proceeds hok (fun _ h => h) hregistered hwithin hclaims
    (by rw [hmarks]; exact nofun) fun _ h => .inl h

theorem Inv.writes {t : ThreadRecorder ι ρ} {pc pc₀ : Pc ι ρ} (hpc : s.threads p = pc₀) (hok : Ok s.last p t pc)
    (hregistered : pc.registered = true → pc₀.registered = true) (hwithin : pc.within = true → pc₀.within = true)
    (hclaims : pc.rings p = none ∨ pc.rings p = some p ∧ t.ring_holder = some (.thread p))
    (hholder : t.ring_holder = (s.recorder p).ring_holder ∨ (s.recorder p).ring_holder = none ∨
      (s.recorder p).ring_holder = some (.thread p))
    (hretired : t.retired = (s.recorder p).retired) (hmarks : pc.marks = none)
    (hread : Extends (s.recorder p) t ∨ s.admin.rings ≠ some p ∧ ∀ S, s.admin.seen = some (S, p) → t.owner = S)
    (hhistory : ∀ e ∈ (s.recorder p).history, e ∈ t.history) : Inv ((s.set p t).goto p pc) := by
  subst hpc
  refine inv.turn (by rw [if_pos rfl]; exact hok) (fun h => absurd
    rfl h) (fun _ h => h) (fun h => inv.writers.registered p (hregistered h)) (fun h => .inl (hwithin h)) ?_ hholder
    (by rw [hretired]; exact id) (by rw [hmarks]; exact nofun) (fun _ h => .inl h) hread hhistory
  intro x hx
  rcases hclaims with h | ⟨h, hh⟩
  · rw [h] at hx; cases hx
  · rw [h] at hx; cases hx; rw [if_pos rfl]; exact hh

omit [DecidableEq ι] inv in
theorem Extends.of_same {t t' : ThreadRecorder ι ρ} (howner : t'.owner = t.owner) (hepoch : t'.epoch = t.epoch)
    (hindex : t'.write_index = t.write_index) (hring : t'.ring = t.ring) : Extends t t' :=
  ⟨howner, hepoch, Nat.le_of_eq hindex.symm, fun r hr => ⟨r, hring.trans hr, rfl, fun _ h => h⟩⟩

section Slots
omit [DecidableEq ι]

omit inv in
@[simp] theorem update_slot (r : Ring ι ρ) (i j : Nat) (f : Slot ι ρ → Slot ι ρ) :
    (r.update i f).slot j = if j &&& r.mask = i &&& r.mask then f (r.slot j) else r.slot j := rfl

omit inv in
theorem slot_congr {r : Ring ι ρ} {i j : Nat} (h : j &&& r.mask = i &&& r.mask) : r.slot j = r.slot i := by
  unfold Ring.slot
  rw [h]

omit inv in
theorem map_update_id {ring : Option (Ring ι ρ)} {r : Ring ι ρ} {id : Nat} (hr : ring = some r) (hid : r.id = id) (i : Nat)
    (f : Slot ι ρ → Slot ι ρ) : ∃ r', ring.map (·.update i f) = some r' ∧ r'.id = id :=
  ⟨r.update i f, by rw [hr]; rfl, hid⟩

omit inv in
theorem Extends.of_slot {t : ThreadRecorder ι ρ} {i : Nat} {f : Slot ι ρ → Slot ι ρ} {history : List (Entry ρ)}
    (h : ∀ r, t.ring = some r → (r.slot i).holder ≠ some .admin) :
    Extends t { t with ring := t.ring.map (·.update i f), history } := by
  refine ⟨rfl, rfl, Nat.le_refl _, fun r hr => ⟨r.update i f, by simp [hr], rfl, fun j hj => ?_⟩⟩
  rw [update_slot]
  split
  · next he => rw [slot_congr he] at hj; exact absurd hj (h r hr)
  · exact hj

end Slots

section Threads
variable [Inhabited ρ] {c : Call ρ} {index id : Nat}

theorem Inv.session (hpc : s.threads p = .session c) : Inv (s.step p) := by
  have h := inv.ok_at hpc
  simp only [step, hpc]
  split
  · exact inv.moves (h.rest rfl rfl h.retired) nofun nofun (.inl rfl) rfl
  · next hne =>
    have hlast := inv.sessions.current hne
    refine inv.moves { h with call := ?_ } nofun nofun (.inl rfl) rfl
    rintro c' ⟨⟩
    exact ⟨hne, by simpa only [hlast] using h.owner, Nat.le_of_eq hlast⟩

theorem Inv.register (hpc : s.threads p = .register c) : Inv (s.step p) := by
  have h := inv.ok_at hpc
  simp only [step, hpc]
  have hin : p ∈ (if p ∈ s.recorders then s.recorders else p :: s.recorders) := by
    split
    · assumption
    · simp
  have hsub : ∀ x ∈ s.recorders, x ∈ (if p ∈ s.recorders then s.recorders else p :: s.recorders) := fun x hx => by
    split
    · exact hx
    · exact mem_cons_of_mem p hx
  exact inv.proceeds { h with } hsub (fun _ => hin) nofun (.inl rfl) nofun fun _ h => .inl h

theorem Inv.check (hpc : s.threads p = .check_policy c ∨ s.threads p = .check_capacity c) : Inv (s.step p) := by
  rcases hpc with hpc | hpc
  all_goals
    have h := inv.ok_at hpc
    have hin := inv.writers.registered p (by rw [hpc]; rfl)
    simp only [step, hpc]
    split
    · exact inv.moves { h with } (fun _ => hin) nofun (.inl rfl) rfl
    · exact inv.moves { h with call := nofun } (fun _ => hin) nofun (.inl rfl) rfl

theorem Inv.check_session (hpc : s.threads p = .check_session c) : Inv (s.step p) := by
  have h := inv.ok_at hpc
  have hin := inv.writers.registered p (by rw [hpc]; rfl)
  simp only [step, hpc]
  split
  · next hactive =>
    refine inv.moves { h with } (fun _ => hin) (fun _ => .inr ?_) (.inl rfl) rfl
    rw [hactive]
    exact (h.call c rfl).1
  · exact inv.moves { h with call := nofun } (fun _ => hin) nofun (.inl rfl) rfl

theorem Inv.inside (hpc : s.threads p = .inside c) : Inv (s.step p) := by
  have h := inv.ok_at hpc
  have hin := inv.writers.registered p (by rw [hpc]; rfl)
  have hwithin : (s.threads p).within = true := by rw [hpc]; rfl
  simp only [step, hpc]
  split
  · next hsession =>
    have hkept := h.kept (by rw [hsession]; exact (h.call c rfl).1)
    refine inv.moves { h with begun := ?_ } (fun _ => hin) (fun _ => .inl hwithin) (.inl rfl) rfl
    rintro c' ⟨⟩
    exact ⟨hkept.1.symm.trans hsession, hkept.2⟩
  · exact inv.moves { h with } (fun _ => hin) (fun _ => .inl hwithin) (.inl rfl) rfl

theorem Inv.lock_ring (hpc : s.threads p = .lock_ring c) (hfree : (s.recorder p).ring_holder = none) :
    Inv (s.step p) := by
  have h := inv.ok_at hpc
  simp only [step, hpc]
  exact inv.writes hpc { h with } (fun _ => rfl) (fun _ => rfl) (.inr ⟨rfl, rfl⟩) (.inr (.inl hfree))
    rfl rfl (.inl (.of_same rfl rfl rfl rfl)) fun _ h => h

omit [DecidableEq ι] [Inhabited ρ] inv in
theorem seen_session {a : Admin ι ρ} {S : Nat} (h : a.seen = some (S, p)) : a.session = some S := by
  cases a <;> first | (cases h; rfl) | cases h

omit [DecidableEq ι] inv in
theorem begin_session_ring (t : ThreadRecorder ι ρ) (session capacity : Nat) : (t.begin_session session capacity).ring ≠
    none := by
  unfold ThreadRecorder.begin_session
  simp only
  split
  · split <;> nofun
  · nofun

/-- A session is begun: nothing has been written in it. -/
theorem Inv.start (hpc : s.threads p = .start c) : Inv (s.step p) := by
  have h := inv.ok_at hpc
  have hheld := inv.rings.thread p p (by rw [hpc]; rfl)
  obtain ⟨hne, howner, hlast⟩ := h.call c rfl
  simp only [step, hpc]
  refine inv.writes hpc ⟨?_, hlast, h.writer, fun _ => ⟨rfl, begin_session_ring _ _ _⟩, ?_, nofun, nofun, ?_, nofun,
      h.released, nofun, h.retired⟩ (fun _ => rfl) (fun _ => rfl) (.inr ⟨rfl, hheld⟩) (.inl rfl) rfl rfl
    (.inr ⟨fun ha => ?_, fun S hS => ?_⟩) fun _ h => h
  · rintro c' ⟨⟩
    exact ⟨hne, Nat.le_refl _, hlast⟩
  · rintro c' ⟨⟩
    exact ⟨rfl, begin_session_ring _ _ _⟩
  · exact fun r i _ hi => absurd hi (Nat.not_lt_zero i)
  · have hadmin := inv.rings.admin p ha
    rw [hheld] at hadmin
    cases hadmin
  · -- a snapshot that has found the recorder in its session is of the last session
    have hseen := inv.reading.seen S p hS
    have hS' := (inv.sessions.session S (seen_session hS)).1
    show c.session = S
    omega

omit [Inhabited ρ] inv in
theorem unlock_of_kept (h : (s.recorder p).release_on_unlock = false) : s.unlock_ring p = s := by
  unfold unlock_ring ThreadRecorder.unlock
  simp only [h, Bool.false_eq_true, if_false]
  exact set_self s p

theorem Inv.unlock_ring (hpc : s.threads p = .unlock_ring c) : Inv (s.step p) := by
  have h := inv.ok_at hpc
  have hin := inv.writers.registered p (by rw [hpc]; rfl)
  have hkept : (s.recorder p).release_on_unlock = false := by
    by_contra hne
    have hexited := h.retired (h.released (by simpa using hne))
    cases hexited
  simp only [step, hpc, unlock_of_kept hkept]
  exact inv.moves { h with } (fun _ => hin) (fun _ => .inl (by rw [hpc]; rfl)) (.inr (by rw [hpc]; rfl)) rfl

/-- The index is advanced over a slot that does not have the number of the next event. -/
theorem Inv.advance (hpc : s.threads p = .advance c) (hfresh : Fresh s (.step p)) : Inv (s.step p) := by
  have h := inv.ok_at hpc
  obtain ⟨r, hr⟩ := Option.ne_none_iff_exists'.mp (h.begun c rfl).2
  simp only [Fresh, hpc] at hfresh
  have hslot := hfresh.2 r hr
  simp only [step, hpc, Nat.mod_eq_of_lt hfresh.1]
  split
  case h_2 hnone => exact absurd (hr.symm.trans hnone) nofun
  next r₀ hr₀ =>
  have he : r₀ = r := Option.some.inj (hr₀.symm.trans hr)
  subst he
  refine inv.writes hpc { h with indexed := ?_, stored := ?_ } (fun _ => rfl) (fun _ => rfl) (.inl rfl) (.inl rfl) rfl rfl
    (.inl ⟨rfl, rfl, Nat.le_succ _, fun r hr => ⟨r, hr, rfl, fun _ h => h⟩⟩) fun _ h => h
  · rintro i id ⟨⟩
    exact ⟨rfl, r₀, hr, rfl⟩
  · intro r' i hr' hi hs
    have he : r' = r₀ := Option.some.inj (hr'.symm.trans hr)
    subst he
    rcases Nat.lt_succ_iff_lt_or_eq.mp hi with hlt | heq
    · exact h.stored r' i hr hlt hs
    · subst heq; exact absurd hs hslot

omit [Inhabited ρ] in
theorem Inv.slots {pc pc' : Pc ι ρ} (hpc : s.threads p = pc) {r : Ring ι ρ} (hr : (s.recorder p).ring = some r)
    {f : Slot ι ρ → Slot ι ρ} {history : List (Entry ρ)} (hholder : (r.slot index).holder ≠ some .admin)
    (hsame : pc'.call = pc.call ∧ pc'.active = pc.active ∧ pc'.begun = pc.begun ∧ pc'.indexed = pc.indexed ∧
      pc'.measures = pc.measures ∧ pc'.exited = pc.exited ∧ pc'.registered = pc.registered ∧ pc'.within = pc.within)
    (hplace : pc'.rings p = none ∧ pc'.marks = none)
    (hlocks : ∀ i, pc'.locks = some i → ((r.update index f).slot i).holder = some (.thread p))
    (hstored : ∀ i, i < (s.recorder p).write_index → ((r.update index f).slot i).sequence = i + 1 → pc'.filling = some i ∨
      ⟨(s.recorder p).owner, (s.recorder p).epoch, i + 1, ((r.update index f).slot i).body⟩ ∈ history)
    (hnumbered : ∀ i, pc'.filling = some i → ((r.update index f).slot i).sequence = i + 1)
    (hhistory : ∀ e ∈ (s.recorder p).history, e ∈ history) :
    Inv ((s.set p { s.recorder p with ring := (s.recorder p).ring.map (·.update index f), history }).goto p pc') := by
  subst hpc
  have h := inv.ok p
  obtain ⟨hcall, hactive, hbegun, hindexed, hmeasures, hexited, hregistered, hwithin⟩ := hsame
  have hring : ∀ r', (s.recorder p).ring.map (·.update index f) = some r' → r' = r.update index f := fun r' hr' => by
    rw [hr] at hr'
    exact (Option.some.inj hr').symm
  refine inv.writes rfl ⟨by rw [hcall]; exact h.call, h.owner, by rw [hactive]; exact h.writer, ?_, ?_, ?_, ?_, ?_, ?_,
      h.released, by rw [hmeasures]; exact h.measured, by rw [hexited]; exact h.retired⟩
    (by rw [hregistered]; exact id) (by rw [hwithin]; exact id) (.inl hplace.1) (.inl rfl) rfl hplace.2
    (.inl (.of_slot fun r' hr' => ?_)) hhistory
  · exact fun hs => ⟨(h.kept hs).1, by simp [hr]⟩
  · exact fun c hc => ⟨(h.begun c (hbegun ▸ hc)).1, by simp [hr]⟩
  · intro i id hi
    obtain ⟨hindex, r', hr', hid⟩ := h.indexed i id (hindexed ▸ hi)
    exact ⟨hindex, map_update_id hr' hid _ _⟩
  · intro i hi r' hr'
    rw [hring r' hr']
    exact hlocks i hi
  · intro r' i hr' hi hs
    rw [hring r' hr'] at hs ⊢
    exact hstored i hi hs
  · intro i hi r' hr'
    rw [hring r' hr']
    exact hnumbered i hi
  · rw [Option.some.inj (hr'.symm.trans hr)]
    exact hholder

theorem Inv.slot (hpc : s.threads p = .slot c index id) (hfree : s.slot_holder p index = none) :
    Inv (s.step p) := by
  have h := inv.ok_at hpc
  obtain ⟨-, r, hr, -⟩ := h.indexed index id rfl
  have hnone : (r.slot index).holder = none := by
    unfold slot_holder at hfree
    rw [hr] at hfree
    exact hfree
  simp only [step, hpc, set_slot]
  refine inv.slots hpc hr (by rw [hnone]; nofun) ⟨rfl, rfl, rfl, rfl, rfl, rfl, rfl, rfl⟩ ⟨rfl, rfl⟩ ?_ ?_ nofun fun _ h => h
  · rintro i ⟨⟩
    simp
  · intro i hi hs
    have hsame : ((r.update index fun slot => { slot with holder := some (.thread p) }).slot i).sequence =
        (r.slot i).sequence ∧
        ((r.update index fun slot => { slot with holder := some (.thread p) }).slot i).body = (r.slot i).body := by
      rw [update_slot]; split <;> exact ⟨rfl, rfl⟩
    rw [hsame.1] at hs
    rw [hsame.2]
    exact h.stored r i hr hi hs

theorem Inv.write (hpc : s.threads p = .write c index id) : Inv (s.step p) := by
  have h := inv.ok_at hpc
  obtain ⟨-, r, hr, -⟩ := h.indexed index id rfl
  have hholder := h.locks index rfl r hr
  simp only [step, hpc, set_slot]
  refine inv.slots hpc hr (by rw [hholder]; nofun) ⟨rfl, rfl, rfl, rfl, rfl, rfl, rfl, rfl⟩ ⟨rfl, rfl⟩ ?_ ?_ ?_ fun _ h => h
  · rintro i ⟨⟩
    simpa using hholder
  · intro i hi hs
    rw [update_slot] at hs ⊢
    split at hs
    · -- the slot has the number of this call
      have he : i = index := Nat.succ.inj hs.symm
      exact .inl (congrArg some he.symm)
    · next hother =>
      rw [if_neg hother]
      exact (h.stored r i hr hi hs).imp nofun fun hin => hin
  · rintro i ⟨⟩
    simp

theorem Inv.fill (hpc : s.threads p = .fill c index id) : Inv (s.step p) := by
  have h := inv.ok_at hpc
  obtain ⟨-, r, hr, -⟩ := h.indexed index id rfl
  have hholder := h.locks index rfl r hr
  have hnumber := h.numbered index rfl r hr
  have howner := (h.begun c rfl).1
  have hstep : s.step p = (s.set p { s.recorder p with
      ring := (s.recorder p).ring.map (·.update index fun slot => { slot with body := c.body })
      history := ⟨c.session, (s.recorder p).epoch, index + 1, c.body⟩ :: (s.recorder p).history }).goto p
        (.unlock_slot c index id) := by
    simp only [Recording.step, hpc, Recording.set_slot, Recording.set, Recording.goto, if_true]
    congr 1
    funext x
    split
    · rfl
    · rfl
  rw [hstep]
  refine inv.slots hpc hr (by rw [hholder]; nofun) ⟨rfl, rfl, rfl, rfl, rfl, rfl, rfl, rfl⟩ ⟨rfl, rfl⟩ ?_ ?_ nofun
    fun _ h => mem_cons_of_mem _ h
  · rintro i ⟨⟩
    simpa using hholder
  · intro i hi hs
    rw [update_slot] at hs ⊢
    split at hs
    · next hsame =>
      -- a slot has one number: it is the event of this call
      rw [if_pos hsame]
      have hs' : (r.slot i).sequence = i + 1 := hs
      rw [slot_congr hsame, hnumber] at hs'
      have he : i = index := (Nat.succ.inj hs').symm
      subst he
      refine .inr ?_
      rw [howner]
      exact mem_cons_self
    · next hother =>
      rw [if_neg hother]
      refine .inr (mem_cons_of_mem _ ?_)
      rcases h.stored r i hr hi hs with hf | hf
      · exact absurd (congrArg (· &&& r.mask) (Option.some.inj hf).symm) hother
      · exact hf

theorem Inv.unlock_slot (hpc : s.threads p = .unlock_slot c index id) : Inv (s.step p) := by
  have h := inv.ok_at hpc
  obtain ⟨-, r, hr, -⟩ := h.indexed index id rfl
  have hholder := h.locks index rfl r hr
  simp only [step, hpc, set_slot]
  refine inv.writes hpc ⟨nofun, h.owner, h.writer, ?_, nofun, nofun, nofun, ?_, nofun, h.released, nofun, h.retired⟩
    (fun _ => rfl) nofun (.inl rfl) (.inl rfl) rfl rfl (.inl (.of_slot fun r' hr' => ?_)) fun _ h => h
  · exact fun hs => ⟨(h.kept hs).1, by simp [hr]⟩
  · intro r' i hr' hi hs
    simp only [hr, Option.map_some, Option.some.injEq] at hr'
    subst hr'
    have hsame : ((r.update index fun slot => { slot with holder := none }).slot i).sequence = (r.slot i).sequence ∧
        ((r.update index fun slot => { slot with holder := none }).slot i).body = (r.slot i).body := by
      rw [update_slot]; split <;> exact ⟨rfl, rfl⟩
    rw [hsame.1] at hs
    rw [hsame.2]
    exact h.stored r i hr hi hs
  · have he : r' = r := Option.some.inj (hr'.symm.trans hr)
    rw [he, hholder]
    nofun

/-! ## Exit -/

omit [Inhabited ρ] in
theorem Inv.evicts {t : ThreadRecorder ι ρ} {pc pc₀ : Pc ι ρ} {rings : List (ι × Nat)} {bytes : Nat} (hat : s.threads p = pc₀)
    (hold : pc₀.exited = true) (hpc : pc.exited = true) (hmeasures : pc.measures = false) (hok : Ok s.last q t (s.threads q))
    (hclaims : ∀ x, pc.rings p = some x → x = q ∧ t.ring_holder = some (.thread p))
    (hholder : t.ring_holder = (s.recorder q).ring_holder ∨ (s.recorder q).ring_holder = none ∨
      (s.recorder q).ring_holder = some (.thread p))
    (hretired : t.retired = (s.recorder q).retired) (hmarks : pc.marks = none)
    (hread : Extends (s.recorder q) t ∨ s.admin.rings ≠ some q ∧ ∀ S, s.admin.seen = some (S, q) → t.owner = S)
    (hhistory : t.history = (s.recorder q).history)
    (hlisted : ∀ e ∈ rings, e ∈ s.retired_rings) :
    Inv (({ s with retired_rings := rings, allocated_bytes := bytes }.set q t).goto p pc) := by
  subst hat
  have hplace : ∀ pc : Pc ι ρ, pc.exited = true → pc.call = none ∧ pc.active = false ∧ pc.begun = none ∧ pc.indexed = none ∧
      pc.locks = none ∧ pc.filling = none ∧ pc.within = false ∧ pc.registered = false := fun pc h => by
    cases pc <;> first | exact ⟨rfl, rfl, rfl, rfl, rfl, rfl, rfl, rfl⟩ | cases h
  obtain ⟨hcall, hactive, hbegun, hindexed, hlocks, hfilling, hwithin, hregistered⟩ := hplace pc hpc
  have hfilled := (hplace _ hold).2.2.2.2.2.1
  have hrest : ∀ {u : ThreadRecorder ι ρ}, Ok s.last p u (s.threads p) → Ok s.last p u pc := fun hu =>
    hu.rest hfilled (by rw [hcall, hactive, hbegun, hindexed, hlocks, hfilling, hmeasures]) fun _ => hpc
  refine inv.turn ?_ (fun _ => hrest (inv.ok p)) (fun _ h => h)
    (by rw [hregistered]; exact nofun) (by rw [hwithin]; exact nofun) ?_ hholder (by rw [hretired]; exact id)
    (by rw [hmarks]; exact nofun) (fun e he => .inl (hlisted e he)) hread (by rw [hhistory]; exact fun _ h => h)
  · split
    · next h => subst h; exact hrest hok
    · exact hok
  · intro x hx
    obtain ⟨rfl, hh⟩ := hclaims x hx
    rw [if_pos rfl]
    exact hh

theorem Inv.measure (hpc : s.threads p = .measure) : Inv (s.step p) := by
  have h := inv.ok_at hpc
  simp only [step, hpc]
  split
  · exact inv.moves (h.rest rfl rfl fun _ => rfl) nofun nofun (.inl rfl) rfl
  · exact inv.moves { h with } nofun nofun (.inl rfl) rfl

theorem Inv.enlist {bytes : Nat} (hpc : s.threads p = .enlist bytes) : Inv (s.step p) := by
  have h := inv.ok_at hpc
  simp only [step, hpc]
  refine inv.proceeds (h.rest rfl rfl fun _ => rfl) (fun _ h => h) nofun nofun (.inl rfl) nofun fun e he => ?_
  rcases mem_append.mp he with he | he
  · exact .inl he
  · cases mem_singleton.mp he
    exact .inr (h.measured rfl)

variable {limit : Nat}

theorem Inv.evict (hpc : s.threads p = .evict limit) : Inv (s.step p) := by
  have h := inv.ok_at hpc
  have hgone : Inv (s.goto p .gone) := inv.moves (h.rest rfl rfl fun _ => rfl) nofun nofun (.inl rfl) rfl
  simp only [step, hpc]
  split
  · next q bytes rings hrings =>
    split
    · exact hgone
    · have hq := inv.retirement.listed (q, bytes) (by rw [hrings]; exact mem_cons_self)
      refine inv.proceeds (h.rest rfl rfl fun _ => rfl) (fun _ h => h)
        nofun nofun (.inl rfl) (fun x hx => ?_) fun e he => .inl (by rw [hrings]; exact mem_cons_of_mem _ he)
      cases hx
      exact hq
  · exact hgone

omit [Inhabited ρ] inv in
theorem forget_listed (s : Recording ι ρ) (q : ι) :
    ∃ rings bytes, s.forget_retired_ring q = { s with retired_rings := rings, allocated_bytes := bytes } ∧
      ∀ e ∈ rings, e ∈ s.retired_rings := by
  unfold forget_retired_ring
  split
  · exact ⟨_, _, rfl, fun e he => mem_of_mem_eraseP he⟩
  · exact ⟨s.retired_rings, s.allocated_bytes, rfl, fun e he => he⟩

theorem Inv.forget (hpc : s.threads p = .forget limit q) : Inv (s.step p) := by
  obtain ⟨rings, bytes, hforget, hlisted⟩ := forget_listed s q
  simp only [step, hpc, hforget]
  rw [← set_self { s with retired_rings := rings, allocated_bytes := bytes } q]
  exact inv.evicts hpc rfl rfl rfl (inv.ok q) nofun (.inl rfl) rfl rfl (.inl (.refl _)) rfl hlisted

theorem Inv.lock_evicted (hpc : s.threads p = .lock_evicted limit q)
    (hfree : (s.recorder q).ring_holder = none) : Inv (s.step p) := by
  simp only [step, hpc]
  exact inv.evicts hpc rfl rfl rfl ((inv.ok q).holder _) (by rintro x ⟨⟩; exact ⟨rfl, rfl⟩) (.inr (.inl hfree)) rfl rfl
    (.inl (.of_same rfl rfl rfl rfl)) rfl fun _ h => h

omit [DecidableEq ι] [Inhabited ρ] inv in
theorem Ok.release {last : Nat} {t : ThreadRecorder ι ρ} {pc : Pc ι ρ} (h : Ok last p t pc) (hexited : pc.within = false) :
    Ok last p t.release_ring_locked pc := by
  have hno : pc.begun = none ∧ pc.indexed = none ∧ pc.locks = none ∧ pc.filling = none := by
    cases pc <;> first | exact ⟨rfl, rfl, rfl, rfl⟩ | cases hexited
  exact { h with
    kept := fun hs => absurd rfl hs
    begun := by rw [hno.1]; exact nofun
    indexed := by rw [hno.2.1]; exact nofun
    locks := by rw [hno.2.2.1]; exact nofun
    stored := nofun
    numbered := by rw [hno.2.2.2]; exact nofun }

omit [DecidableEq ι] [Inhabited ρ] inv in
theorem exited_within {pc : Pc ι ρ} (h : pc.exited = true) : pc.within = false := by
  cases pc <;> first | rfl | cases h

theorem Inv.unlock_evicted (hpc : s.threads p = .unlock_evicted limit q) : Inv (s.step p) := by
  have h := inv.ok q
  have hheld := inv.rings.thread p q (by rw [hpc]; rfl)
  simp only [Recording.step, hpc]
  by_cases hflag : (s.recorder q).release_on_unlock = true
  · obtain ⟨rings, bytes, hforget, hlisted⟩ := forget_listed s q
    simp only [Recording.unlock_ring, ThreadRecorder.unlock, hflag, if_true, hforget]
    refine inv.evicts hpc rfl rfl rfl (h.release (exited_within (h.retired (h.released hflag))))
      (by rintro x ⟨⟩; exact ⟨rfl, hheld⟩) (.inl rfl) rfl rfl (.inr ⟨fun ha => ?_, fun S hS => inv.reading.seen S q hS⟩) rfl
      hlisted
    have hadmin := inv.rings.admin q ha
    rw [hheld] at hadmin
    cases hadmin
  · rw [unlock_of_kept (by simpa using hflag)]
    rw [← set_self s q]
    exact inv.evicts hpc rfl rfl rfl h (by rintro x ⟨⟩; exact ⟨rfl, hheld⟩) (.inl rfl) rfl rfl (.inl (.refl _)) rfl fun _ h => h

/-! ## A thread's steps -/

theorem Inv.step (henabled : s.Enabled p) (hfresh : Fresh s (.step p)) : Inv (s.step p) := by
  unfold Recording.Enabled at henabled
  cases hpc : s.threads p with
  | idle | gone => rw [hpc] at henabled; exact henabled.elim
  | policy c =>
    have h := inv.ok_at hpc
    simp only [Recording.step, hpc]
    split
    · exact inv.moves (h.rest rfl rfl h.retired) nofun nofun (.inl rfl) rfl
    · exact inv.moves (h.rest rfl rfl h.retired) nofun nofun (.inl rfl) rfl
  | session c => exact inv.session hpc
  | capacity c =>
    have h := inv.ok_at hpc
    simp only [Recording.step, hpc]
    refine inv.moves { h with call := ?_ } nofun nofun (.inl rfl) rfl
    rintro c' ⟨⟩
    exact h.call c rfl
  | register c => exact inv.register hpc
  | enter c =>
    have h := inv.ok_at hpc
    simp only [Recording.step, hpc]
    exact inv.writes hpc { h with writer := fun _ => rfl } (fun _ => rfl) nofun (.inl rfl) (.inl rfl) rfl rfl
      (.inl (.of_same rfl rfl rfl rfl)) fun _ h => h
  | check_policy c => exact inv.check (.inl hpc)
  | check_capacity c => exact inv.check (.inr hpc)
  | check_session c => exact inv.check_session hpc
  | inside c => exact inv.inside hpc
  | lock_ring c => rw [hpc] at henabled; exact inv.lock_ring hpc henabled
  | start c => exact inv.start hpc
  | unlock_ring c => exact inv.unlock_ring hpc
  | free_ring c =>
    have h := inv.ok_at hpc
    have hheld := inv.rings.thread p p (by rw [hpc]; rfl)
    simp only [Recording.step, hpc]
    exact inv.writes hpc { h with } (fun _ => rfl) (fun _ => rfl) (.inl rfl) (.inr (.inr hheld))
      rfl rfl (.inl (.of_same rfl rfl rfl rfl)) fun _ h => h
  | advance c => exact inv.advance hpc hfresh
  | slot c index id => rw [hpc] at henabled; exact inv.slot hpc henabled
  | write c index id => exact inv.write hpc
  | fill c index id => exact inv.fill hpc
  | unlock_slot c index id => exact inv.unlock_slot hpc
  | leave =>
    have h := inv.ok_at hpc
    simp only [Recording.step, hpc]
    exact inv.writes hpc ⟨nofun, h.owner, nofun, h.kept, nofun, nofun, nofun, h.stored, nofun, h.released, nofun, h.retired⟩
      nofun nofun (.inl rfl) (.inl rfl) rfl rfl (.inl (.of_same rfl rfl rfl rfl)) fun _ h => h
  | measure => exact inv.measure hpc
  | enlist bytes => exact inv.enlist hpc
  | evict limit => exact inv.evict hpc
  | mark limit q =>
    have hq := inv.retirement.marks p q (by rw [hpc]; rfl)
    simp only [Recording.step, hpc]
    exact inv.evicts hpc rfl rfl rfl ((inv.ok q).flag hq) nofun (.inl rfl) rfl rfl (.inl (.of_same rfl rfl rfl rfl)) rfl
      fun _ h => h
  | forget limit q => exact inv.forget hpc
  | lock_evicted limit q => rw [hpc] at henabled; exact inv.lock_evicted hpc henabled
  | unlock_evicted limit q => exact inv.unlock_evicted hpc
  | free_evicted limit q =>
    have hheld := inv.rings.thread p q (by rw [hpc]; rfl)
    simp only [Recording.step, hpc]
    exact inv.evicts hpc rfl rfl rfl ((inv.ok q).holder _) nofun (.inr (.inr hheld)) rfl rfl
      (.inl (.of_same rfl rfl rfl rfl)) rfl fun _ h => h

omit [Inhabited ρ] in
theorem Inv.expire : Inv (s.expire p) := by
  have h := inv.ok p
  unfold Recording.expire
  split
  case h_7 => exact inv
  all_goals
    rename_i hpc
    rw [hpc] at h
  case h_1 | h_2 | h_3 =>
    exact inv.moves (h.rest rfl rfl h.retired) nofun nofun (.inl rfl) rfl
  case h_4 | h_5 =>
    exact inv.moves { h with
      call := nofun, begun := nofun, indexed := nofun, locks := nofun, numbered := nofun, measured := nofun }
      (fun _ => inv.writers.registered p (by rw [hpc]; rfl)) nofun (.inl rfl) rfl
  case h_6 =>
    exact inv.moves (h.rest rfl rfl fun _ => rfl) nofun nofun (.inl rfl) rfl

end Threads

end Seismograph
