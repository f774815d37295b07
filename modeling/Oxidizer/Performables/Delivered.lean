import Oxidizer.Performables.Assigned
/-!
# Every notification is delivered exactly

The calls, and what follows for every reachable state of `Notify`.
-/

namespace Performables

open Lib List

namespace Notify
variable {ι : Type} [DecidableEq ι] {s : Notify ι} {p : ι}

omit [DecidableEq ι] in
/-- A party between its calls has neither the lock nor a notification to pass on. -/
theorem Pc.between {pc : Pc ι} (h : pc = .fresh ∨ pc = .rest) : pc.holds = false ∧ pc.carries = none := by
  rcases h with rfl | rfl <;> exact ⟨rfl, rfl⟩

namespace Inv

variable (inv : Inv s)
include inv

theorem ok_at {pc : Pc ι} (hpc : (s.calls p).pc = pc) : { s.calls p with pc }.Ok (p ∈ s.queue) (Popped s p) := by
  subst hpc
  exact inv.ok p

/-! ## Calls -/

/-- A call that starts or goes on does not touch the queue. -/
theorem turns {t : Call ι} (hold : (s.calls p).pc.holds = false) (hnew : t.pc.holds = false)
    (there : t.pc.needs = true ∨ t.has_waiter = true → (s.calls p).has_waiter = true)
    (ticket : t.ticket = (s.calls p).ticket) (ok : t.Ok (p ∈ s.queue) (Popped s p))
    (custody : Custody (s.set p t).content fun n => ((s.set p t).calls n).issued = true) : Inv (s.set p t) := by
  have hplain : ∀ pc : Pc ι, pc.holds = false → pc.midway = false ∧ pc.pops = none ∧ ∀ ok, pc ≠ .empties_cancel ok := by
    intro pc hpc
    cases pc <;> simp_all [Pc.holds, Pc.midway, Pc.pops]
  have hold' := hplain _ hold
  have hnew' := hplain _ hnew
  have hticket : ∀ q, ((s.set p t).calls q).ticket = (s.calls q).ticket := by grind
  have hpops : ∀ q, ((s.set p t).calls q).pc.pops = (s.calls q).pc.pops := by grind
  have hmid : ∀ q, ((s.set p t).calls q).pc.midway = (s.calls q).pc.midway := by grind
  have hpopped : ∀ q, Popped (s.set p t) q ↔ Popped s q := fun q => by simp only [Popped, hpops]
  exact {
    held := fun q => by have := inv.held q; grind
    mid := by simp only [hmid]; exact inv.mid
    word := by simp only [hmid]; exact inv.word
    drained := fun q ok hq => by have := inv.drained q ok; grind
    permit := inv.permit
    made := inv.made
    there := fun q hq => by have := inv.there q; have := inv.there p; grind
    ok := fun q => by have := inv.ok q; grind
    nodup := inv.nodup
    sorted := by simp only [hticket]; exact inv.sorted
    clock := by simp only [hticket]; exact inv.clock
    first := by simp only [hticket, hpops]; exact inv.first
    custody }

theorem notify_one (hpc : (s.calls p).pc = .fresh) :
    Inv (s.set p { s.calls p with pc := .load p false, issued := true }) := by
  obtain ⟨hclear, -, -, -, hissued⟩ := inv.ok_at hpc
  refine inv.turns (by rw [hpc]; rfl) rfl (by grind [Pc.needs]) rfl ⟨rfl, hclear⟩ ?_
  refine inv.custody.issue (a := .carried p) (n := p) (by simp [content, hpc, Pc.carries]) (by simpa using hissued)
    (fun place => ?_) ?_
  · cases place <;> grind -ring -linarith [content, Pc.carries]
  · grind

theorem goes {pc : Pc ι} (hold : (s.calls p).pc.holds = false) (hnew : pc.holds = false) (there : pc.needs = false)
    (carries : pc.carries = (s.calls p).pc.carries) (ok : { s.calls p with pc }.Ok (p ∈ s.queue) (Popped s p)) :
    Inv (s.goto p pc) := by
  refine inv.turns hold hnew (by simp [there]) rfl ok (inv.custody.congr (fun place => ?_) ?_)
  · cases place <;> grind -ring -linarith [content]
  · grind

theorem begins {pc : Pc ι} (hpc : (s.calls p).pc = .fresh) (h : pc = .try_take ∨ (∃ how, pc = .take how) ∨ pc = .rest) :
    Inv (s.goto p pc) := by
  obtain ⟨hclear, hnotified, hreceived, hwaiter, -⟩ := inv.ok_at hpc
  have hfresh := Pc.between (.inl hpc)
  rcases h with rfl | ⟨how, rfl⟩ | rfl <;> refine inv.goes hfresh.1 rfl rfl hfresh.2.symm ?_
  · exact ⟨hclear, hnotified, hreceived, hwaiter⟩
  · exact ⟨hclear, hnotified, hreceived, hwaiter⟩
  · exact .inr ⟨hwaiter, hnotified, hclear.1, hclear.2.1, hclear.2.2.2, .inr ⟨hreceived, hclear.2.2.1⟩⟩

theorem expire (hpc : (s.calls p).pc = .park true) : Inv (s.goto p (.lock_cancel false)) := by
  have hok := inv.ok_at hpc
  exact inv.goes (by rw [hpc]; rfl) rfl rfl (by rw [hpc]; rfl) hok

theorem poll (hpc : (s.calls p).pc = .rest) (poll : Bool) : Inv (s.poll p poll) := by
  have hok := inv.ok p
  simp only [Call.Ok, hpc, Call.Registered] at hok
  have hrest := Pc.between (.inr hpc)
  simp only [Notify.poll]
  split
  · cases poll with
    | false => exact inv
    | true =>
      refine inv.turns hrest.1 rfl (by grind [Call.consume, Pc.needs]) rfl ?_ ?_
      · grind [Call.Ok, Call.consume]
      · refine inv.custody.moves (a := .assigned p) (b := .consumed p) (by rintro ⟨⟩) ?_ (fun place => ?_) ?_
        · grind [content]
        · cases place <;> grind -ring -linarith [content, Pc.carries, Call.consume]
        · grind [Call.consume]
  · split <;> refine inv.goes hrest.1 rfl rfl hrest.2.symm ?_ <;> grind [Call.Ok, Call.Clear, Call.Registered]

theorem drop (hpc : (s.calls p).pc = .rest) : Inv (s.drop p) := by
  have hok := inv.ok p
  simp only [Call.Ok, hpc] at hok
  have hrest := Pc.between (.inr hpc)
  simp only [Notify.drop]
  split
  · refine inv.goes hrest.1 rfl rfl hrest.2.symm ?_
    exact hok.resolve_right (by grind)
  split
  · refine inv.turns hrest.1 ?_ ?_ rfl ?_
      (inv.custody.moves (a := .assigned p) (b := .carried p) (by rintro ⟨⟩) ?_ (fun place => ?_) ?_)
    · grind [Pc.holds]
    · grind [Pc.needs]
    · grind [Call.Ok, Call.Clear]
    · exact hrest.2
    · cases place <;> grind -ring -linarith [content, Pc.carries]
    · grind
  · refine inv.goes hrest.1 rfl rfl hrest.2.symm ?_
    grind [Call.Ok, Call.Clear]

/-! ## Runs -/

omit inv in
theorem init (h : (system ι).init s) : Inv s := by
  obtain ⟨hword, hmade, hholder, hqueue, hstored, hmerged, -, hcalls⟩ := h
  refine ⟨?_, ?_, ?_, ?_, ?_, ?_, ?_, ?_, ?_, ?_, ?_, ?_, ?_⟩
  · simp [hholder, hcalls, Pc.holds]
  · simp [hcalls, Pc.midway]
  · simp [hword, hqueue]
  · simp [hcalls]
  · simp [hword, hstored]
  · simp [hword]
  · simp [hcalls, Pc.needs]
  · intro p
    simp [hcalls, Call.Ok, Call.Clear, hqueue, Popped, Pc.pops]
  · simp [hqueue]
  · simp [hqueue]
  · simp [hqueue]
  · simp [hcalls, Pc.pops]
  · refine ⟨by simp [hcalls], fun place n hn => ?_⟩
    cases place <;> simp [content, hcalls, hstored, hmerged, Pc.carries] at hn

omit inv in
theorem reachable (h : (system ι).Reachable s) : Inv s := by
  refine Lts.Reachable.inv Inv (fun s => init) ?_ h
  rintro s a s' - inv hs
  cases a with
  | notify_one p =>
    obtain ⟨hpc, rfl⟩ := hs
    exact inv.notify_one hpc
  | try_wait p =>
    obtain ⟨hpc, rfl⟩ := hs
    exact inv.begins hpc (.inl rfl)
  | wait p timed =>
    obtain ⟨hpc, rfl⟩ := hs
    exact inv.begins hpc (.inr (.inl ⟨_, rfl⟩))
  | wait_async p =>
    obtain ⟨hpc, rfl⟩ := hs
    exact inv.begins hpc (.inr (.inr rfl))
  | poll p poll =>
    obtain ⟨hpc, rfl⟩ := hs
    exact inv.poll hpc poll
  | drop p =>
    obtain ⟨hpc, rfl⟩ := hs
    exact inv.drop hpc
  | expire p =>
    obtain ⟨hpc, rfl⟩ := hs
    exact inv.expire hpc
  | step p =>
    obtain ⟨hen, rfl⟩ := hs
    exact inv.step hen

theorem listed_of_waiting {w : ι} (h : Waiting (s.calls w)) : w ∈ s.queue ∨ Popped s w := by
  have hok := inv.ok w
  obtain ⟨hn, h⟩ := h
  have hreg : (s.calls w).Registered (w ∈ s.queue) (Popped s w) := by
    split at h <;> (try cases h) <;> simp only [Call.Ok, *] at hok
    case h_8 hpc => exact (hok.resolve_right fun hno => by simp at hno).2
    all_goals first | exact hok | exact hok.2
  obtain ⟨-, -, ⟨h, -⟩ | ⟨-, -, h⟩⟩ := hreg
  · simp [hn] at h
  · exact h

theorem waiting_of_listed {w : ι} (h : w ∈ s.queue ∨ Popped s w) (hfree : (s.calls w).pc.holds = false ∨
    ∃ how, (s.calls w).pc = .unlock_enqueue how) : Waiting (s.calls w) := by
  have hok := inv.ok w
  obtain ⟨hn, -, -⟩ := hok.waiting h
  refine ⟨hn, ?_⟩
  unfold Call.Ok Call.Clear at hok
  split <;> split at hok <;> simp_all [Pc.holds]
  grind

theorem exact : Exact s := by
  refine ⟨inv.custody, ?_, ?_, ?_, ?_, ?_, inv.permit, ?_⟩
  · intro p hpc
    have hok := inv.ok_at hpc
    exact ⟨hok.2.2.2, hok.2.2.1⟩
  · intro p hpc
    have hok := inv.ok_at hpc
    exact ⟨hok.2.2.2, hok.2.2.1⟩
  · intro p n w ok hpc
    have hpops : (s.calls p).pc.pops = some w := by rw [hpc]; rfl
    have hholds : (s.calls p).pc.holds = true := by rw [hpc]; rfl
    have hwp : w ≠ p := by
      rintro rfl
      have hok := inv.ok w
      simp only [Call.Ok, hpc] at hok
      exact hok.2.2.1 ⟨w, hpops⟩
    refine ⟨inv.waiting_of_listed (.inr ⟨p, hpops⟩) (.inl (inv.others hholds hwp)), fun w' hw' hne => ?_⟩
    -- the others that wait are still in the queue, behind the one that was popped
    rcases inv.listed_of_waiting hw' with h | h
    · exact (inv.first p w hpops).2 w' h
    · rw [inv.popped_iff hholds, hpops] at h
      exact absurd (Option.some.inj h).symm hne
  · intro hfree
    refine inv.word fun p => ?_
    by_contra h
    have := (inv.held p).mpr (Pc.holds_of_midway (by simpa using h))
    simp [hfree] at this
  · intro hfree w
    have hnone : ∀ p, (s.calls p).pc.holds = false := by
      intro p
      by_contra h
      have := (inv.held p).mpr (by simpa using h)
      simp [hfree] at this
    refine ⟨fun h => inv.waiting_of_listed (.inl h) (.inl (hnone w)), fun h => ?_⟩
    rcases inv.listed_of_waiting h with h | ⟨p, h⟩
    · exact h
    · have := hnone p
      rw [Pc.holds_of_pops h] at this
      cases this
  · exact fun p hpc => inv.ok_at hpc

end Inv

/-- Every notification of every run is delivered exactly. -/
theorem notify_exact (s : Notify ι) (h : (system ι).Reachable s) : Exact s := (Inv.reachable h).exact

instance (s : Notify ι) (p : ι) : Decidable (s.Enabled p) := by
  unfold Enabled
  split <;> infer_instance

/-- Two waits are queued. The time of the first is over when it has been given the notification, and the second, a future,
consumes it. -/
theorem notify_exact_passed_on : ∃ s, (system (Fin 3)).Reachable s ∧ (s.calls 1).pc = .ended ∧ (s.calls 2).pc = .completed ∧
    (s.calls 2).consumed = some 0 ∧ Exact s := by
  have hsteps : ∀ p (s : Notify (Fin 3)), s.Enabled p → (system (Fin 3)).step s (.step p) (s.step p) := fun p s hs => ⟨hs, rfl⟩
  have h : (system (Fin 3)).Reachable ⟨.empty, false, none, [], fun _ =>
      ⟨.fresh, false, false, false, false, false, false, false, none, none, 0⟩, none, [], 0⟩ :=
    ⟨[], .init ⟨rfl, rfl, rfl, rfl, rfl, rfl, rfl, fun _ => rfl⟩⟩
  have h := h.step (a := Action.wait (1 : Fin 3) true) ⟨rfl, rfl⟩
  have h := h.iterate (hsteps 1) 7 (by decide)
  have h := h.step (a := Action.wait_async (2 : Fin 3)) ⟨rfl, rfl⟩
  have h := h.step (a := Action.poll (2 : Fin 3) true) ⟨rfl, rfl⟩
  have h := h.iterate (hsteps 2) 9 (by decide)
  have h := h.step (a := Action.notify_one (0 : Fin 3)) ⟨rfl, rfl⟩
  have h := h.iterate (hsteps 0) 7 (by decide)
  have h := h.step (a := Action.expire (1 : Fin 3)) ⟨rfl, rfl⟩
  have h := h.iterate (hsteps 1) 11 (by decide)
  have h := h.step (a := Action.poll (2 : Fin 3) true) ⟨rfl, rfl⟩
  have h := h.iterate (hsteps 2) 1 (by decide)
  exact ⟨_, h, rfl, rfl, rfl, notify_exact _ h⟩

end Notify

end Performables
