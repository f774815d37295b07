import Oxidizer.Hedging.Model
/-!
# Which output a hedged call returns

An output that needs no recovery ends the call at once. So all outputs of a call that still
awaits need recovery, and a call that has run out of attempts returns the last of them;
there is one, for an attempt that is not in flight any more has ended.
-/

namespace Hedging

namespace HedgingShared

open Lib List

variable {In Out : Type} {h : HedgingShared In Out}

/-- An output the call returns as soon as it is there. -/
def accepts (h : HedgingShared In Out) (x : Completion Out) : Prop := h.recovery_kind x.out ⟨x.clock, x.attempt⟩ = none

/-- The attempts of a call: all that were launched are in flight or have ended. -/
structure Attempts (h : HedgingShared In Out) (c : Call In Out) : Prop where
  total_eq : c.total_attempts = h.max_hedged_attempts.toNat + 1
  index_le : c.attempt.index ≤ h.max_hedged_attempts.toNat
  launched_le : ∀ launch ∈ c.launched, launch.1.index ≤ c.attempt.index
  launched_lt : (c.launched.map (·.1.index)).Pairwise (· < ·)
  launched_ne : c.launched ≠ []
  perm : (c.futs ++ c.completed.map (·.attempt)).Perm (c.launched.map (·.1))

structure Undecided (h : HedgingShared In Out) (c : Call In Out) : Prop extends Attempts h c where
  recoverable : ∀ x ∈ c.completed, ¬ h.accepts x
  last_eq : c.last_result = c.completed.getLast?.map (·.out)

/-- The output a call returns: the first one that is accepted, or else the last of all. -/
def Decided (h : HedgingShared In Out) (c : Call In Out) (out : Out) : Prop :=
  ∃ before last, c.completed = before ++ [last] ∧ last.out = out ∧ (∀ x ∈ before, ¬ h.accepts x) ∧
    (h.accepts last ∨ (c.completed.map (·.attempt)).Perm (c.launched.map (·.1)))

/-- A call whose input could be cloned. -/
def Inv (h : HedgingShared In Out) (c : Call In Out) : Prop :=
  Attempts h c ∧ match c.point with
  | .direct => False
  | .select next_attempt _ => Undecided h c ∧ c.futs ≠ [] ∧ c.attempt.increment c.total_attempts = some next_attempt
  | .drain => Undecided h c ∧ c.futs ≠ []
  | .returned out => Decided h c out
  | .panicked => False

/-! ## Steps -/

variable {c : Call In Out}

theorem increment_eq (hc : Attempts h c) :
    c.attempt.increment c.total_attempts =
      if c.attempt.index + 1 ≤ h.max_hedged_attempts.toNat then
        some ⟨c.attempt.index + 1, c.attempt.index + 1 == h.max_hedged_attempts.toNat⟩
      else none := by
  have hmax : h.max_hedged_attempts.toNat < 2 ^ 8 := h.max_hedged_attempts.toNat_lt
  have hindex := hc.index_le
  have hnext : saturating_add c.attempt.index 1 = c.attempt.index + 1 := Nat.min_eq_left (by omega)
  simp only [Attempt.increment, hnext, hc.total_eq, Nat.add_sub_cancel]
  split
  · rw [if_neg (by omega)]
  · rw [if_pos (by omega)]

variable (hc : Undecided h c)
include hc

theorem exhausted_inv (hfuts : c.futs = []) : Inv h (exhausted c) := by
  have hperm := hc.perm
  rw [hfuts, nil_append] at hperm
  have hne : c.completed ≠ [] := by
    intro hnil
    rw [hnil, map_nil] at hperm
    exact hc.launched_ne (map_eq_nil_iff.mp hperm.symm.eq_nil)
  obtain ⟨before, last, hsplit⟩ : ∃ before last, c.completed = before ++ [last] :=
    ⟨_, _, (dropLast_append_getLast hne).symm⟩
  have hlast : c.last_result = some last.out := by
    rw [hc.last_eq, hsplit, getLast?_concat]
    rfl
  unfold exhausted
  rw [hlast]
  refine ⟨{ hc.toAttempts with }, ⟨before, last, hsplit, rfl, ?_, .inr hperm⟩⟩
  intro x hx
  exact hc.recoverable x (by rw [hsplit]; exact mem_append_left _ hx)

theorem Undecided.at_point (point : Point Out) : Undecided h { c with point } :=
  { hc with }

theorem drain_inv : Inv h (next c .drain) := by
  unfold next
  split
  · rename_i hempty
    exact exhausted_inv hc (List.isEmpty_iff.mp hempty)
  · rename_i hfuts
    have hne : c.futs ≠ [] := fun hnil => hfuts (List.isEmpty_iff.mpr hnil)
    exact ⟨(hc.at_point .drain).toAttempts, hc.at_point .drain, hne⟩

theorem run_delay_loop_inv : Inv h (h.run_delay_loop c) := by
  unfold run_delay_loop
  split
  · rename_i next_attempt hnext
    unfold next
    split
    · rename_i hempty
      exact exhausted_inv hc (List.isEmpty_iff.mp hempty)
    · rename_i hfuts
      have hne : c.futs ≠ [] := fun hnil => hfuts (List.isEmpty_iff.mpr hnil)
      exact ⟨(hc.at_point _).toAttempts, hc.at_point _, hne, hnext⟩
  · exact drain_inv hc

theorem launch_undecided {next_attempt : Attempt} (delay : Nat)
    (hnext : c.attempt.increment c.total_attempts = some next_attempt) :
    Undecided h { h.launch_hedging_attempt c next_attempt delay with attempt := next_attempt } := by
  rw [increment_eq hc.toAttempts] at hnext
  split at hnext
  · rename_i hle
    cases hnext
    unfold launch_hedging_attempt
    have hold : ∀ launch ∈ c.launched, launch.1.index < c.attempt.index + 1 := fun launch hl =>
      Nat.lt_succ_of_le (hc.launched_le launch hl)
    split
    · refine ⟨⟨hc.total_eq, hle, ?_, ?_, by simp, ?_⟩, hc.recoverable, hc.last_eq⟩
      · intro launch hl
        rcases mem_append.mp hl with hl | hl
        · exact Nat.le_of_lt (hold launch hl)
        · cases mem_singleton.mp hl
          exact Nat.le_refl _
      · rw [map_append, pairwise_append]
        refine ⟨hc.launched_lt, pairwise_singleton _ _, ?_⟩
        intro i hi j hj
        obtain ⟨launch, hl, rfl⟩ := mem_map.mp hi
        cases mem_singleton.mp hj
        exact hold launch hl
      · rw [map_append, append_assoc]
        refine (List.Perm.append_left c.futs perm_append_comm).trans ?_
        rw [← append_assoc]
        exact hc.perm.append_right _
    · exact ⟨⟨hc.total_eq, hle, fun launch hl => Nat.le_of_lt (hold launch hl), hc.launched_lt, hc.launched_ne, hc.perm⟩,
        hc.recoverable, hc.last_eq⟩
  · cases hnext

omit hc in
theorem complete_attempts (hc : Attempts h c) {x : Completion Out} (hx : x.attempt ∈ c.futs) :
    Attempts h (complete c x) := by
  refine ⟨hc.total_eq, hc.index_le, hc.launched_le, hc.launched_lt, hc.launched_ne, ?_⟩
  show (c.futs.erase x.attempt ++ (c.completed ++ [x]).map (·.attempt)).Perm _
  rw [map_append, ← append_assoc]
  refine perm_append_comm.trans (List.Perm.trans ?_ hc.perm)
  exact (perm_cons_erase hx).symm.append_right _

theorem complete_undecided {x : Completion Out} (hx : x.attempt ∈ c.futs)
    (hrec : ¬ h.accepts x) : Undecided h { complete c x with last_result := some x.out } := by
  refine ⟨{ complete_attempts hc.toAttempts hx with }, ?_, ?_⟩
  · intro y hy
    rcases mem_append.mp hy with hy | hy
    · exact hc.recoverable y hy
    · cases mem_singleton.mp hy
      exact hrec
  · simp [complete]

theorem complete_decided {x : Completion Out} (hx : x.attempt ∈ c.futs)
    (hacc : h.accepts x) : Inv h { complete c x with point := .returned x.out } := by
  exact ⟨{ complete_attempts hc.toAttempts hx with }, ⟨c.completed, x, rfl, rfl, hc.recoverable, .inl hacc⟩⟩

omit hc

/-- What a signal does. -/
inductive Resumed (h : HedgingShared In Out) (c : Call In Out) : Signal Out → Call In Out → Prop where
  | direct (x : Completion Out) (hp : c.point = .direct) (hx : x.attempt = c.attempt) :
      Resumed h c (.completes x) { c with completed := c.completed ++ [x], point := .returned x.out }
  | accepted (x : Completion Out) (hp : c.point = .drain ∨ ∃ next_attempt delay, c.point = .select next_attempt delay)
      (hx : x.attempt ∈ c.futs) (hacc : h.accepts x) :
      Resumed h c (.completes x) { complete c x with point := .returned x.out }
  | hedged (x : Completion Out) (next_attempt : Attempt) (delay : Nat) (hp : c.point = .select next_attempt delay)
      (hx : x.attempt ∈ c.futs) (hrec : ¬ h.accepts x) :
      Resumed h c (.completes x) (h.run_delay_loop
        { h.launch_hedging_attempt { complete c x with last_result := some x.out } next_attempt 0 with attempt := next_attempt })
  | drained (x : Completion Out) (hp : c.point = .drain) (hx : x.attempt ∈ c.futs) (hrec : ¬ h.accepts x) :
      Resumed h c (.completes x) (next { complete c x with last_result := some x.out } .drain)
  | delayed (next_attempt : Attempt) (delay : Nat) (hp : c.point = .select next_attempt delay) :
      Resumed h c .delay_expires
        (h.run_delay_loop { h.launch_hedging_attempt c next_attempt delay with attempt := next_attempt })

variable {c c' : Call In Out} {signal : Signal Out}

theorem resume_cases (hs : h.resume c signal = some c') : Resumed h c signal c' := by
  have hne : ∀ {x : Completion Out} {kind}, h.recovery_kind x.out ⟨x.clock, x.attempt⟩ = some kind → ¬ h.accepts x :=
    fun hkind hacc => by rw [accepts, hkind] at hacc; cases hacc
  unfold resume at hs
  cases signal with
  | completes x =>
    simp only at hs
    split at hs
    · rename_i hp
      split at hs
      · rename_i hx
        cases hs
        exact .direct x hp hx
      · cases hs
    · rename_i next_attempt delay hp
      split at hs
      · rename_i hx
        split at hs
        · rename_i hacc
          cases hs
          exact .accepted x (.inr ⟨_, _, hp⟩) hx hacc
        · rename_i kind hkind
          cases hs
          exact .hedged x next_attempt delay hp hx (hne hkind)
      · cases hs
    · rename_i hp
      split at hs
      · rename_i hx
        split at hs
        · rename_i hacc
          cases hs
          exact .accepted x (.inl hp) hx hacc
        · rename_i kind hkind
          cases hs
          exact .drained x hp hx (hne hkind)
      · cases hs
    · cases hs
  | delay_expires =>
    simp only at hs
    split at hs
    · rename_i next_attempt delay hp
      cases hs
      exact .delayed next_attempt delay hp
    · cases hs

theorem resume_inv (hc : Inv h c) (hs : Resumed h c signal c') : Inv h c' := by
  obtain ⟨-, hpoint⟩ := hc
  cases hs with
  | direct x hp hx =>
    rw [hp] at hpoint
    exact hpoint.elim
  | accepted x hp hx hacc =>
    rcases hp with hp | ⟨next_attempt, delay, hp⟩ <;> rw [hp] at hpoint
    · exact complete_decided hpoint.1 hx hacc
    · exact complete_decided hpoint.1 hx hacc
  | hedged x next_attempt delay hp hx hrec =>
    rw [hp] at hpoint
    exact run_delay_loop_inv (launch_undecided (complete_undecided hpoint.1 hx hrec) 0 hpoint.2.2)
  | drained x hp hx hrec =>
    rw [hp] at hpoint
    exact drain_inv (complete_undecided hpoint.1 hx hrec)
  | delayed next_attempt delay hp =>
    rw [hp] at hpoint
    exact run_delay_loop_inv (launch_undecided hpoint.1 delay hpoint.2.2)

def first (h : HedgingShared In Out) : Attempt := ⟨0, saturating_add h.max_hedged_attempts.toNat 1 == 1⟩

variable {input input' : In}

theorem run_hedging_inv {cloned : In} (hclone : h.clone_input input ⟨h.first⟩ = (some cloned, input')) :
    Inv h (h.run_hedging input) := by
  have hmax : h.max_hedged_attempts.toNat < 2 ^ 8 := h.max_hedged_attempts.toNat_lt
  unfold first at hclone
  unfold run_hedging
  simp only [hclone]
  refine run_delay_loop_inv ⟨⟨Nat.min_eq_left (by omega), Nat.zero_le _, ?_, by simp, by simp, by simp⟩, by simp, rfl⟩
  intro launch hl
  cases mem_singleton.mp hl
  exact Nat.le_refl _

/-- A call whose input could not be cloned. -/
structure Direct (h : HedgingShared In Out) (sent : In) (c : Call In Out) : Prop where
  attempt_eq : c.attempt = h.first
  launched_eq : c.launched = [(h.first, sent)]
  outputs : (c.point = .direct ∧ c.completed = []) ∨ ∃ x : Completion Out, c.point = .returned x.out ∧ c.completed = [x]

theorem run_hedging_direct (hclone : h.clone_input input ⟨h.first⟩ = (none, input')) :
    Direct h (h.invoke_on_execute input' h.first 0) (h.run_hedging input) := by
  unfold first at hclone
  unfold run_hedging
  simp only [hclone]
  exact ⟨rfl, rfl, .inl ⟨rfl, rfl⟩⟩

theorem resume_direct {sent : In} (hc : Direct h sent c)
    (hs : Resumed h c signal c') : Direct h sent c' := by
  obtain ⟨hattempt, hlaunched, ⟨hpoint, hnone⟩ | ⟨x, hpoint, -⟩⟩ := hc
  · cases hs with
    | direct x hp hx => exact ⟨hattempt, hlaunched, .inr ⟨x, rfl, by rw [hnone]; rfl⟩⟩
    | accepted x hp | hedged x next_attempt delay hp | drained x hp | delayed next_attempt delay hp => simp [hpoint] at hp
  · cases hs with
    | direct x hp | accepted x hp | hedged x next_attempt delay hp | drained x hp | delayed next_attempt delay hp =>
      simp [hpoint] at hp

/-! ## Runs -/

theorem run_inv {cloned : In} (hclone : h.clone_input input ⟨h.first⟩ = (some cloned, input'))
    (hc : (h.system input).Reachable c) : Inv h c := by
  refine Lts.Reachable.inv _ ?_ ?_ hc
  · rintro c rfl
    exact run_hedging_inv hclone
  · intro c signal c' _ hc hs
    exact resume_inv hc (resume_cases hs)

theorem run_direct (hclone : h.clone_input input ⟨h.first⟩ = (none, input'))
    (hc : (h.system input).Reachable c) : Direct h (h.invoke_on_execute input' h.first 0) c := by
  refine Lts.Reachable.inv _ ?_ ?_ hc
  · rintro c rfl
    exact run_hedging_direct hclone
  · intro c signal c' _ hc hs
    exact resume_direct hc (resume_cases hs)

/-- What every signal adds to: the outputs seen and the attempts begun. -/
def progress (c : Call In Out) : Nat := c.completed.length + c.attempt.index

theorem exhausted_keeps (c : Call In Out) : (exhausted c).completed = c.completed ∧ (exhausted c).attempt = c.attempt := by
  unfold exhausted
  split <;> exact ⟨rfl, rfl⟩

theorem next_keeps (c : Call In Out) (point : Point Out) :
    (next c point).completed = c.completed ∧ (next c point).attempt = c.attempt := by
  unfold next
  split
  · exact exhausted_keeps c
  · exact ⟨rfl, rfl⟩

theorem run_delay_loop_keeps (c : Call In Out) :
    (h.run_delay_loop c).completed = c.completed ∧ (h.run_delay_loop c).attempt = c.attempt := by
  unfold run_delay_loop
  split <;> exact next_keeps _ _

theorem launch_completed (c : Call In Out) (attempt : Attempt) (delay : Nat) :
    (h.launch_hedging_attempt c attempt delay).completed = c.completed := by
  unfold launch_hedging_attempt
  split <;> rfl

/-- A call sees the outputs that it is given. -/
theorem resume_completed (hs : Resumed h c signal c') : c'.completed = c.completed ++ signal.completion.toList := by
  cases hs with
  | direct x hp hx => rfl
  | accepted x hp hx hacc => rfl
  | hedged x next_attempt delay hp hx hrec => rw [(run_delay_loop_keeps _).1]; exact launch_completed ..
  | drained x hp hx hrec => exact (next_keeps _ _).1
  | delayed next_attempt delay hp =>
    rw [(run_delay_loop_keeps _).1, Signal.completion, Option.toList_none, append_nil]
    exact launch_completed ..

theorem run_completed {signals : List (Signal Out)} (hrun : (h.system input).Run signals c) :
    c.completed = signals.filterMap Signal.completion := by
  induction hrun with
  | init h0 =>
    rw [h0, run_hedging]
    dsimp only
    split
    · rfl
    · exact (run_delay_loop_keeps _).1
  | step hr hs ih =>
    rw [resume_completed (resume_cases hs), ih, filterMap_append]
    rfl

theorem increment_index (hc : Attempts h c) {next_attempt : Attempt}
    (hnext : c.attempt.increment c.total_attempts = some next_attempt) : next_attempt.index = c.attempt.index + 1 := by
  rw [increment_eq hc] at hnext
  split at hnext
  · cases hnext
    rfl
  · cases hnext

theorem resume_progress (hc : Inv h c ∨ ∃ sent, Direct h sent c)
    (hs : Resumed h c signal c') : progress c < progress c' := by
  have hselect : ∀ {next_attempt delay}, c.point = .select next_attempt delay → next_attempt.index = c.attempt.index + 1 := by
    intro next_attempt delay hp
    rcases hc with ⟨hatt, hpoint⟩ | ⟨sent, -, -, ⟨hpoint, -⟩ | ⟨x, hpoint, -⟩⟩
    · rw [hp] at hpoint
      exact increment_index hatt hpoint.2.2
    · rw [hp] at hpoint; cases hpoint
    · rw [hp] at hpoint; cases hpoint
  have hcompleted := congrArg length (resume_completed hs)
  rw [length_append] at hcompleted
  unfold progress
  cases hs with
  | direct x hp hx | accepted x hp hx hacc => exact Nat.add_lt_add_right (by rw [hcompleted]; simp [Signal.completion]) _
  | drained x hp hx hrec =>
    rw [hcompleted, (next_keeps _ _).2]
    exact Nat.add_lt_add_right (Nat.lt_succ_self _) _
  | hedged x next_attempt delay hp | delayed next_attempt delay hp =>
    rw [hcompleted, (run_delay_loop_keeps _).2, hselect hp]
    omega

theorem reachable_cases (hc : (h.system input).Reachable c) : Inv h c ∨ ∃ sent, Direct h sent c := by
  rcases hclone : h.clone_input input ⟨h.first⟩ with ⟨_ | cloned, input'⟩
  · exact .inr ⟨_, run_direct hclone hc⟩
  · exact .inl (run_inv hclone hc)

theorem run_length {signals : List (Signal Out)} (hrun : (h.system input).Run signals c) :
    signals.length ≤ progress c := by
  induction hrun with
  | init => exact Nat.zero_le _
  | step hr hs ih =>
    have hlt := resume_progress (reachable_cases hr.reachable) (resume_cases hs)
    rw [length_append, length_singleton]
    omega

theorem Attempts.launched_length (hc : Attempts h c) : c.launched.length ≤ h.max_hedged_attempts.toNat + 1 := by
  have hnodup : (c.launched.map (·.1.index)).Nodup := hc.launched_lt.imp fun hlt => Nat.ne_of_lt hlt
  have hsub : c.launched.map (·.1.index) ⊆ range (h.max_hedged_attempts.toNat + 1) := by
    intro index hindex
    obtain ⟨launch, hl, rfl⟩ := mem_map.mp hindex
    exact mem_range.mpr (Nat.lt_succ_of_le (Nat.le_trans (hc.launched_le launch hl) hc.index_le))
  have hlen := (subperm_of_subset hnodup hsub).length_le
  rwa [length_map, length_range] at hlen

theorem Attempts.completed_length (hc : Attempts h c) : c.completed.length ≤ c.launched.length := by
  have hlen := hc.perm.length_eq
  simp only [length_append, length_map] at hlen
  omega

theorem Attempts.in_flight (hc : Attempts h c) {attempt : Attempt} :
    attempt ∈ c.futs ↔ attempt ∈ c.launched.map (·.1) ∧ attempt ∉ c.completed.map (·.attempt) := by
  have hnodup : (c.launched.map (·.1)).Nodup := by
    refine List.Nodup.of_map Attempt.index ?_
    rw [map_map]
    exact hc.launched_lt.imp fun hlt => Nat.ne_of_lt hlt
  have hall := hc.perm.nodup_iff.mpr hnodup
  have hdisjoint := (nodup_append.mp hall).2.2
  rw [← hc.perm.mem_iff, mem_append]
  constructor
  · exact fun hmem => ⟨.inl hmem, fun hdone => hdisjoint _ hmem _ hdone rfl⟩
  · rintro ⟨hmem | hdone, hnot⟩
    · exact hmem
    · exact absurd hdone hnot

/-- While a call awaits, an attempt is in flight, and the call takes whichever ends first. -/
theorem awaiting (hc : Inv h c) (hp : ∀ out, c.point ≠ .returned out) :
    Undecided h c ∧ c.futs ≠ [] ∧ ∀ x : Completion Out, x.attempt ∈ c.futs → ∃ c', h.resume c (.completes x) = some c' := by
  obtain ⟨-, hpoint⟩ := hc
  rcases hat : c.point with _ | ⟨next_attempt, delay⟩ | _ | out | _ <;> rw [hat] at hpoint
  · exact hpoint.elim
  · refine ⟨hpoint.1, hpoint.2.1, fun x hx => ?_⟩
    simp only [resume, hat, if_pos hx]
    split <;> exact ⟨_, rfl⟩
  · refine ⟨hpoint.1, hpoint.2, fun x hx => ?_⟩
    simp only [resume, hat, if_pos hx]
    split <;> exact ⟨_, rfl⟩
  · exact absurd hat (hp out)
  · exact hpoint.elim

/-- Attempts of a call that have not ended. -/
def pending (c : Call In Out) : List Attempt := (c.launched.map (·.1)).filter fun attempt => attempt ∉ c.completed.map (·.attempt)

/-- A call launches each attempt at most once, in order, and does not wait forever for attempts that end: a signal is
taken for each attempt that is pending, and only so many. With a clone to start with it returns the first output
that needs no recovery, or when all launched attempts have ended the last one. Without, the input is launched as it is.
The outputs are those of the signals, in their order. -/
theorem first_accepted_output_wins (h : HedgingShared In Out) (input : In) {signals : List (Signal Out)} {c : Call In Out}
    (hrun : (h.system input).Run signals c) :
    (c.launched.map (·.1.index)).Pairwise (· < ·) ∧ c.launched.length ≤ h.max_hedged_attempts.toNat + 1 ∧
    c.point ≠ .panicked ∧ signals.length ≤ 2 * h.max_hedged_attempts.toNat + 1 ∧
    c.completed = signals.filterMap Signal.completion ∧
    ((∀ out, c.point ≠ .returned out) → pending c ≠ [] ∧
      ∀ attempt ∈ pending c, ∀ out clock, ∃ c', h.resume c (.completes ⟨attempt, out, clock⟩) = some c') ∧
    match h.clone_input input ⟨h.first⟩ with
    | (none, input') => c.launched = [(h.first, h.invoke_on_execute input' h.first 0)] ∧
        ∀ out, c.point = .returned out → ∃ x, c.completed = [x] ∧ x.out = out
    | (some _, _) => (∀ out, c.point = .returned out → Decided h c out) ∧
        ((∀ out, c.point ≠ .returned out) → ∀ x ∈ c.completed, ¬ h.accepts x) := by
  have hlength := run_length hrun
  have hgiven := run_completed hrun
  rcases hclone : h.clone_input input ⟨h.first⟩ with ⟨_ | cloned, input'⟩
  · obtain ⟨hattempt, hlaunched, houtputs⟩ := run_direct hclone hrun.reachable
    have hindex : c.attempt.index = 0 := by rw [hattempt]; rfl
    rw [hlaunched]
    refine ⟨pairwise_singleton _ _, by simp, ?_, ?_, hgiven, ?_, rfl, ?_⟩
    · rcases houtputs with ⟨hp, -⟩ | ⟨x, hp, -⟩ <;> rw [hp] <;> exact nofun
    · have hone : c.completed.length ≤ 1 := by
        rcases houtputs with ⟨-, hcomp⟩ | ⟨x, -, hcomp⟩ <;> rw [hcomp] <;> simp
      rw [progress, hindex] at hlength
      omega
    · intro hp
      rcases houtputs with ⟨hp', hcomp⟩ | ⟨x, hp', -⟩
      · have hpending : pending c = [c.attempt] := by simp [pending, hlaunched, hcomp, hattempt]
        rw [hpending]
        refine ⟨by simp, fun attempt hmem out clock => ?_⟩
        cases mem_singleton.mp hmem
        simp only [resume, hp', if_true]
        exact ⟨_, rfl⟩
      · exact absurd hp' (hp x.out)
    · intro out hp
      rcases houtputs with ⟨hp', -⟩ | ⟨x, hp', hcomp⟩
      · rw [hp'] at hp; cases hp
      · rw [hp'] at hp
        cases hp
        exact ⟨x, hcomp, rfl⟩
  · have hinv := run_inv hclone hrun.reachable
    have hatt := hinv.1
    have hmem : ∀ attempt, attempt ∈ pending c ↔ attempt ∈ c.futs := fun attempt => by
      rw [hatt.in_flight, pending, mem_filter, decide_eq_true_eq]
    refine ⟨hatt.launched_lt, hatt.launched_length, ?_, ?_, hgiven, fun hp => ?_, ?_, fun hp => (awaiting hinv hp).1.recoverable⟩
    · intro hp
      have hpoint := hinv.2
      rw [hp] at hpoint
      exact hpoint
    · have h1 := hatt.completed_length
      have h2 := hatt.launched_length
      have h3 := hatt.index_le
      rw [progress] at hlength
      omega
    · obtain ⟨-, hne, htaken⟩ := awaiting hinv hp
      obtain ⟨attempt, hattempt⟩ := exists_mem_of_ne_nil _ hne
      exact ⟨ne_nil_of_mem ((hmem attempt).mpr hattempt), fun attempt ha out clock => htaken _ ((hmem attempt).mp ha)⟩
    · intro out hp
      have hpoint := hinv.2
      rw [hp] at hpoint
      exact hpoint

/-- Two attempts, and outputs that need recovery when they are zero. -/
def one_hedge : HedgingShared Unit Nat where
  max_hedged_attempts := 1
  delay_fn _ _ := 5
  clone_input input _ := (some input, input)
  should_recover out _ := if out = 0 then .retry else .never
  on_execute := none
  handle_unavailable := false

/-- The delay expires, the first attempt fails, and the second one succeeds. -/
def one_hedge_signals : List (Signal Nat) :=
  [.delay_expires, .completes ⟨⟨0, false⟩, 0, 7⟩, .completes ⟨⟨1, true⟩, 3, 8⟩]

theorem first_accepted_output_wins_one_hedge : ∃ c, (one_hedge.system ()).Run one_hedge_signals c ∧ c.point = .returned 3 ∧
    c.launched.length ≤ 2 := by
  have hrun : (one_hedge.system ()).Run ([] ++ one_hedge_signals) _ :=
    Lts.Run.foldlM (fun _ _ _ hs => hs) one_hedge_signals (.init rfl) rfl
  exact ⟨_, hrun, rfl, (first_accepted_output_wins one_hedge () hrun).2.1⟩

end HedgingShared

end Hedging
