import Oxidizer.Breaker.Model
/-!
# The sliding health window counts exactly

The windows of the deque cut the history of the calls into segments: those of windows
that are gone, and one for every window that is left, which starts with the call that
made it. Each window has the tally of its segment, and the running total has the tally
of them all, as long as no counter can be full.
-/

namespace Breaker

open List ExecutionInfo HealthMetricsBuilder HealthMetrics

/-- A call of `HealthMetrics::record`: the result and its time. -/
abbrev Recording := ExecutionResult × Nat

def HealthMetrics.run (m : HealthMetrics) (calls : List Recording) : HealthMetrics :=
  calls.foldl (fun m call => m.record call.1 call.2) m

namespace ExecutionInfo

def add (a b : ExecutionInfo) : ExecutionInfo :=
  ⟨a.succeeded + b.succeeded, a.failed + b.failed, a.abandoned + b.abandoned⟩

def Below (info : ExecutionInfo) (n : Nat) : Prop := info.succeeded ≤ n ∧ info.failed ≤ n ∧ info.abandoned ≤ n

theorem add_subtract (a b : ExecutionInfo) : (a.add b).subtract a = b := by simp [add, subtract]

theorem default_add (a : ExecutionInfo) : default.add a = a := by simp [add, default]

end ExecutionInfo

def tally (calls : List Recording) : ExecutionInfo :=
  ⟨calls.countP (·.1 = .success), calls.countP (·.1 = .failure), calls.countP (·.1 = .abandoned)⟩

theorem tally_append (xs ys : List Recording) : tally (xs ++ ys) = (tally xs).add (tally ys) := by
  simp [tally, add]

theorem tally_below (calls : List Recording) : (tally calls).Below calls.length :=
  ⟨countP_le_length, countP_le_length, countP_le_length⟩

theorem ExecutionInfo.record_eq {info : ExecutionInfo} {n : Nat} (h : info.Below n) (hn : n + 1 < 2 ^ 32)
    (result : ExecutionResult) (now : Nat) : info.record result = info.add (tally [(result, now)]) := by
  obtain ⟨hs, hf, ha⟩ := h
  cases result with
  | success | failure | abandoned => simp [record, add, tally, saturating_add]; omega

def total_counts (windows : List Window) : ExecutionInfo :=
  ⟨(windows.map (·.counts.succeeded)).sum, (windows.map (·.counts.failed)).sum, (windows.map (·.counts.abandoned)).sum⟩

theorem total_counts_cons (w : Window) (windows : List Window) :
    total_counts (w :: windows) = w.counts.add (total_counts windows) := by simp [total_counts, add]

/-- The calls that a window has counted, from the one that made it on. -/
structure Window.Holds (w : Window) (calls : List Recording) : Prop where
  counts : w.counts = tally calls
  started : calls.head?.map Prod.snd = some w.started_at

/-- Windows that were expired at a call after all of their own, with the calls after those of them all. -/
def Expired (sampling_duration : Nat) : List (Window × List Recording) → List Recording → Prop
  | [], _ => True
  | entry :: rest, later =>
    (∃ call ∈ rest.flatMap Prod.snd ++ later, sampling_duration < call.2 - entry.1.started_at) ∧
      Expired sampling_duration rest later

theorem expired_append {d : Nat} {xs ys : List (Window × List Recording)} {later : List Recording} :
    Expired d (xs ++ ys) later ↔ Expired d xs (ys.flatMap Prod.snd ++ later) ∧ Expired d ys later := by
  induction xs with
  | nil => simp [Expired]
  | cons entry rest ih => rw [cons_append, Expired, Expired, ih, flatMap_append, append_assoc, and_assoc]

theorem Expired.mono {d : Nat} {xs : List (Window × List Recording)} {later later' : List Recording}
    (h : Expired d xs later) (hsub : later ⊆ later') : Expired d xs later' := by
  induction xs with
  | nil => trivial
  | cons entry rest ih =>
    obtain ⟨⟨call, hcall, hd⟩, hrest⟩ := h
    exact ⟨⟨call, append_subset.mpr ⟨subset_append_left .., subset_append_of_subset_right _ hsub⟩ hcall, hd⟩, ih hrest⟩

theorem expired_at {d : Nat} {call : Recording} {xs : List (Window × List Recording)}
    (h : ∀ entry ∈ xs, d < call.2 - entry.1.started_at) : Expired d xs [call] := by
  induction xs with
  | nil => trivial
  | cons entry rest ih =>
    exact ⟨⟨call, by simp, h entry (mem_cons_self ..)⟩, ih fun e he => h e (mem_cons_of_mem _ he)⟩

/-- Every window with its calls, in the order in which they were made: first those that are gone. The windows that a call
finds expired go before it is counted, when it is still in `upcoming`. -/
structure Ledger (d : Nat) (windows : List Window) (calls upcoming : List Recording)
    (gone ledger : List (Window × List Recording)) : Prop where
  windows_eq : windows = ledger.map Prod.fst
  calls_eq : calls = gone.flatMap Prod.snd ++ ledger.flatMap Prod.snd
  holds : ∀ entry ∈ gone ++ ledger, entry.1.Holds entry.2
  expired : Expired d gone (ledger.flatMap Prod.snd ++ upcoming)

variable {d : Nat} {windows : List Window} {calls upcoming : List Recording} {gone ledger : List (Window × List Recording)}

theorem total_counts_ledger (h : ∀ entry ∈ ledger, entry.1.Holds entry.2) :
    total_counts (ledger.map Prod.fst) = tally (ledger.flatMap Prod.snd) := by
  induction ledger with
  | nil => rfl
  | cons entry rest ih =>
    rw [map_cons, total_counts_cons, flatMap_cons, tally_append, (h entry (by simp)).counts,
      ih fun e he => h e (by simp [he])]

namespace Ledger

theorem total (h : Ledger d windows calls upcoming gone ledger) :
    total_counts windows = tally (ledger.flatMap Prod.snd) := by
  rw [h.windows_eq, total_counts_ledger fun e he => h.holds e (mem_append_right _ he)]

theorem below (h : Ledger d windows calls upcoming gone ledger) : (tally (ledger.flatMap Prod.snd)).Below calls.length := by
  have hle : (ledger.flatMap Prod.snd).length ≤ calls.length := by
    rw [h.calls_eq, length_append]; omega
  obtain ⟨hs, hf, ha⟩ := tally_below (ledger.flatMap Prod.snd)
  exact ⟨by omega, by omega, by omega⟩

theorem drop {removed kept : List Window} (h : Ledger d (removed ++ kept) calls [] gone ledger) {call : Recording}
    (hremoved : ∀ w ∈ removed, d < call.2 - w.started_at) : ∃ gone' ledger', Ledger d kept calls [call] gone' ledger' := by
  obtain ⟨removed, rest, rfl, rfl, hkept⟩ := map_eq_append_iff.mp h.windows_eq.symm
  refine ⟨gone ++ removed, rest, hkept.symm, ?_, by rw [append_assoc]; exact h.holds, ?_⟩
  · rw [h.calls_eq, flatMap_append, flatMap_append, append_assoc]
  · have hgone := h.expired
    rw [append_nil, flatMap_append] at hgone
    refine expired_append.mpr ⟨?_, ?_⟩
    · rw [← append_assoc]
      exact hgone.mono fun c hc => mem_append_left _ hc
    · exact (expired_at fun e he => hremoved e.1 (mem_map_of_mem he)).mono fun c hc => mem_append_right _ hc

theorem push {result : ExecutionResult} {now : Nat} (h : Ledger d windows calls [(result, now)] gone ledger) :
    Ledger d (windows ++ [⟨tally [(result, now)], now⟩]) (calls ++ [(result, now)]) [] gone
      (ledger ++ [(⟨tally [(result, now)], now⟩, [(result, now)])]) where
  windows_eq := by rw [h.windows_eq]; simp
  calls_eq := by rw [h.calls_eq]; simp
  holds entry he := by
    rw [← append_assoc] at he
    rcases mem_append.mp he with he | he
    · exact h.holds entry he
    · cases mem_singleton.mp he
      exact ⟨rfl, rfl⟩
  expired := by simpa using h.expired

theorem extend {init : List Window} {back : Window} {result : ExecutionResult} {now : Nat}
    (h : Ledger d (init ++ [back]) calls [(result, now)] gone ledger) :
    ∃ ledger', Ledger d (init ++ [{ back with counts := back.counts.add (tally [(result, now)]) }])
      (calls ++ [(result, now)]) [] gone ledger' := by
  obtain ⟨first, last, rfl, hinit, hback⟩ := map_eq_append_iff.mp h.windows_eq.symm
  obtain ⟨entry, rfl, rfl⟩ := map_eq_singleton_iff.mp hback
  have hholds := h.holds entry (by simp)
  refine ⟨first ++ [({ entry.1 with counts := entry.1.counts.add (tally [(result, now)]) }, entry.2 ++ [(result, now)])], ?_⟩
  refine ⟨by simp [hinit], by rw [h.calls_eq]; simp, ?_, by simpa using h.expired⟩
  intro e he
  rw [← append_assoc] at he
  rcases mem_append.mp he with he | he
  · exact h.holds e (by rw [← append_assoc]; exact mem_append_left _ he)
  · cases mem_singleton.mp he
    refine ⟨by rw [tally_append, ← hholds.counts], ?_⟩
    rw [head?_append_of_ne_nil]
    · exact hholds.started
    · intro hnil
      have := hholds.started
      rw [hnil] at this
      cases this

end Ledger

/-! ## One call -/

namespace HealthMetrics

/-- What holds after the calls in the history. -/
structure Inv (m : HealthMetrics) (calls upcoming : List Recording) : Prop where
  ledger : ∃ gone ledger, Ledger m.sampling_duration m.windows calls upcoming gone ledger
  counts : m.counts = total_counts m.windows
  apart : m.windows.Pairwise fun a b => a.started_at + m.window_duration ≤ b.started_at
  within : ∀ a ∈ m.windows, ∀ b ∈ m.windows, b.started_at - a.started_at ≤ m.sampling_duration

/-- What is expired is a front part of the deque, and the total follows. -/
theorem drop_expired_spec (now sampling_duration : Nat) {windows : List Window} {counts : ExecutionInfo}
    (hcounts : counts = total_counts windows) (horder : windows.Pairwise fun a b => a.started_at ≤ b.started_at) :
    ∃ removed kept, windows = removed ++ kept ∧
      drop_expired now sampling_duration windows counts = (kept, total_counts kept) ∧
      (∀ w ∈ removed, sampling_duration < now - w.started_at) ∧ ∀ w ∈ kept, now - w.started_at ≤ sampling_duration := by
  induction windows generalizing counts with
  | nil => exact ⟨[], [], rfl, by rw [hcounts]; rfl, by simp, by simp⟩
  | cons front rest ih =>
    rw [pairwise_cons] at horder
    unfold drop_expired
    split
    · rename_i hfront
      have hrest : counts.subtract front.counts = total_counts rest := by
        rw [hcounts, total_counts_cons, add_subtract]
      obtain ⟨removed, kept, rfl, hdrop, hremoved, hkept⟩ := ih hrest horder.2
      exact ⟨front :: removed, kept, rfl, hdrop, forall_mem_cons.mpr ⟨hfront, hremoved⟩, hkept⟩
    · rename_i hfront
      refine ⟨[], front :: rest, rfl, by rw [hcounts], by simp, ?_⟩
      intro w hw
      rcases mem_cons.mp hw with rfl | hw
      · omega
      · have := horder.1 w hw
        omega

/-- No window is older than the sampling duration. -/
def Fresh (m : HealthMetrics) (now : Nat) : Prop := ∀ w ∈ m.windows, now - w.started_at ≤ m.sampling_duration

variable {m : HealthMetrics}

theorem Inv.below (h : m.Inv calls upcoming) : m.counts.Below calls.length := by
  obtain ⟨gone, ledger, hledger⟩ := h.ledger
  rw [h.counts, hledger.total]
  exact hledger.below

theorem Inv.drop_expired (h : m.Inv calls []) (result : ExecutionResult) (now : Nat) :
    ∃ kept, HealthMetrics.drop_expired now m.sampling_duration m.windows m.counts = (kept, total_counts kept) ∧
      Inv { m with windows := kept, counts := total_counts kept } calls [(result, now)] ∧
      Fresh { m with windows := kept, counts := total_counts kept } now := by
  have horder : m.windows.Pairwise fun a b => a.started_at ≤ b.started_at := h.apart.imp fun hab => by omega
  obtain ⟨removed, kept, hsplit, hdrop, hremoved, hfresh⟩ := drop_expired_spec now m.sampling_duration h.counts horder
  obtain ⟨gone, ledger, hledger⟩ := h.ledger
  have hapart := h.apart
  rw [hsplit] at hledger hapart
  have hmem {w : Window} (hw : w ∈ kept) : w ∈ m.windows := by rw [hsplit]; exact mem_append_right _ hw
  exact ⟨kept, hdrop,
    ⟨hledger.drop (show ∀ w ∈ removed, _ < (result, now).2 - w.started_at from hremoved), rfl,
      (pairwise_append.mp hapart).2.1, fun a ha b hb => h.within a (hmem ha) b (hmem hb)⟩,
    hfresh⟩

theorem Inv.push {result : ExecutionResult} {now : Nat} (h : m.Inv calls [(result, now)]) (hfresh : m.Fresh now)
    (hback : ∀ w ∈ m.windows, w.started_at + m.window_duration ≤ now) :
    Inv { m with windows := m.windows ++ [⟨tally [(result, now)], now⟩], counts := m.counts.add (tally [(result, now)]) }
        (calls ++ [(result, now)]) [] ∧
      Fresh { m with windows := m.windows ++ [⟨tally [(result, now)], now⟩], counts := m.counts.add (tally [(result, now)]) }
        now := by
  obtain ⟨gone, ledger, hledger⟩ := h.ledger
  have hall : ∀ w ∈ m.windows ++ [⟨tally [(result, now)], now⟩], w.started_at ≤ now ∧ now - w.started_at ≤ m.sampling_duration := by
    intro w hw
    rcases mem_append.mp hw with hw | hw
    · have := hback w hw
      exact ⟨by omega, hfresh w hw⟩
    · cases mem_singleton.mp hw
      exact ⟨Nat.le_refl now, by simp⟩
  refine ⟨⟨⟨gone, _, hledger.push⟩, ?_, ?_, ?_⟩, fun w hw => (hall w hw).2⟩
  · simp [h.counts, total_counts, add]
  · refine pairwise_append.mpr ⟨h.apart, pairwise_singleton _ _, ?_⟩
    intro a ha b hb
    cases mem_singleton.mp hb
    exact hback a ha
  · intro a ha b hb
    obtain ⟨-, ha⟩ := hall a ha
    obtain ⟨hb, -⟩ := hall b hb
    show b.started_at - a.started_at ≤ m.sampling_duration
    omega

theorem Inv.extend {init : List Window} {back : Window} {result : ExecutionResult} {now : Nat}
    (h : m.Inv calls [(result, now)]) (hw : m.windows = init ++ [back]) (hfresh : m.Fresh now) :
    Inv { m with windows := init ++ [{ back with counts := back.counts.add (tally [(result, now)]) }],
                 counts := m.counts.add (tally [(result, now)]) } (calls ++ [(result, now)]) [] ∧
      Fresh { m with windows := init ++ [{ back with counts := back.counts.add (tally [(result, now)]) }],
                     counts := m.counts.add (tally [(result, now)]) } now := by
  obtain ⟨gone, ledger, hledger⟩ := h.ledger
  rw [hw] at hledger
  -- the starts of the windows are what they were
  have hmem {w : Window} (hmem : w ∈ init ++ [{ back with counts := back.counts.add (tally [(result, now)]) }]) :
      ∃ w' ∈ m.windows, w'.started_at = w.started_at := by
    rcases mem_append.mp hmem with hmem | hmem
    · exact ⟨w, by rw [hw]; exact mem_append_left _ hmem, rfl⟩
    · cases mem_singleton.mp hmem
      exact ⟨back, by rw [hw]; simp, rfl⟩
  refine ⟨⟨⟨gone, hledger.extend⟩, ?_, ?_, ?_⟩, ?_⟩
  · simp [h.counts, hw, total_counts, add, Nat.add_assoc]
  · have hapart := h.apart
    rw [hw, pairwise_append] at hapart
    refine pairwise_append.mpr ⟨hapart.1, pairwise_singleton _ _, ?_⟩
    intro a ha b hb
    cases mem_singleton.mp hb
    exact hapart.2.2 a ha back (mem_singleton_self _)
  · intro a ha b hb
    obtain ⟨a', ha', haeq⟩ := hmem ha
    obtain ⟨b', hb', hbeq⟩ := hmem hb
    rw [← haeq, ← hbeq]
    exact h.within a' ha' b' hb'
  · intro w hw
    obtain ⟨w', hw', heq⟩ := hmem hw
    rw [← heq]
    exact hfresh w' hw'

/-- A call counts its result once, in the newest window or in one that it makes. -/
theorem Inv.record (h : m.Inv calls []) (hpos : 0 < m.window_duration) (hlen : calls.length + 1 < 2 ^ 32)
    (result : ExecutionResult) (now : Nat) :
    (m.record result now).Inv (calls ++ [(result, now)]) [] ∧ (m.record result now).Fresh now := by
  obtain ⟨kept, hdrop, hinv, hfresh⟩ := h.drop_expired result now
  have hcounts : (total_counts kept).record result = (total_counts kept).add (tally [(result, now)]) :=
    record_eq hinv.below hlen result now
  have hnew : default.record result = tally [(result, now)] := by
    rw [record_eq (n := 0) ⟨by decide, by decide, by decide⟩ (by decide) result now,
      default_add]
  unfold HealthMetrics.record
  simp only [hdrop, hcounts, update_current]
  rcases eq_nil_or_concat kept with rfl | ⟨init, back, rfl⟩
  · rw [getLast?_nil, hnew]
    exact hinv.push hfresh (fun w hw => nomatch hw)
  · rw [concat_eq_append] at *
    rw [getLast?_concat]
    dsimp only
    split
    · rename_i hold
      rw [hnew]
      refine hinv.push hfresh (fun w hw => ?_)
      rcases mem_append.mp hw with hw | hw
      · have : w.started_at + m.window_duration ≤ back.started_at :=
          (pairwise_append.mp hinv.apart).2.2 w hw back (mem_singleton_self _)
        show w.started_at + m.window_duration ≤ now
        omega
      · cases mem_singleton.mp hw
        show back.started_at + m.window_duration ≤ now
        omega
    · have hback : back.counts.Below calls.length := by
        obtain ⟨hs, hf, ha⟩ := hinv.below
        simp only [total_counts, map_append, sum_append, map_cons, sum_cons, map_nil, sum_nil]
          at hs hf ha
        exact ⟨by omega, by omega, by omega⟩
      rw [dropLast_concat, record_eq hback hlen result now]
      exact hinv.extend rfl hfresh

/-- Windows that are apart by `d`: the newest starts that much later for every window before it. -/
theorem apart_length {d : Nat} {w : Window} {windows : List Window}
    (h : (w :: windows).Pairwise fun a b => a.started_at + d ≤ b.started_at) :
    ∃ b ∈ w :: windows, w.started_at + windows.length * d ≤ b.started_at := by
  induction windows generalizing w with
  | nil => exact ⟨w, by simp, by simp⟩
  | cons w' rest ih =>
    rw [pairwise_cons] at h
    obtain ⟨b, hb, hle⟩ := ih h.2
    have := h.1 w' (mem_cons_self ..)
    refine ⟨b, mem_cons_of_mem _ hb, ?_⟩
    rw [length_cons, Nat.succ_mul]
    omega

theorem Inv.length_le (h : m.Inv calls upcoming) (hdur : m.sampling_duration < 11 * m.window_duration) : m.windows.length ≤ 11 := by
  cases hw : m.windows with
  | nil => exact Nat.zero_le _
  | cons w rest =>
    have hapart := h.apart
    rw [hw] at hapart
    obtain ⟨b, hb, hle⟩ := apart_length hapart
    have hwithin := h.within w (by rw [hw]; simp) b (by rw [hw]; exact hb)
    have : rest.length * m.window_duration < 11 * m.window_duration := by omega
    have := Nat.lt_of_mul_lt_mul_right this
    rw [length_cons]
    omega

theorem run_concat (m : HealthMetrics) (calls : List Recording) (call : Recording) :
    m.run (calls ++ [call]) = (m.run calls).record call.1 call.2 := by
  simp [run]

theorem run_durations (m : HealthMetrics) (calls : List Recording) :
    (m.run calls).window_duration = m.window_duration ∧ (m.run calls).sampling_duration = m.sampling_duration := by
  induction calls generalizing m with
  | nil => exact ⟨rfl, rfl⟩
  | cons call rest ih => exact ih (m.record call.1 call.2)

theorem Inv.run {before : List Recording} (h : m.Inv before []) (hpos : 0 < m.window_duration) (calls : List Recording)
    (hlen : before.length + calls.length < 2 ^ 32) : (m.run calls).Inv (before ++ calls) [] := by
  induction calls generalizing m before with
  | nil => rw [append_nil]; exact h
  | cons call rest ih =>
    rw [length_cons] at hlen
    have hcall := (h.record hpos (by omega) call.1 call.2).1
    have hrest := ih hcall hpos (by rw [length_append, length_singleton]; omega)
    rw [append_assoc] at hrest
    exact hrest

end HealthMetrics

theorem HealthMetricsBuilder.build_inv (b : HealthMetricsBuilder) : b.build.Inv [] [] :=
  ⟨⟨[], [], rfl, rfl, by simp, trivial⟩, rfl, List.Pairwise.nil, fun _ h => nomatch h⟩

/-- Ten windows and a remainder of nanoseconds, which is shorter than a window. -/
theorem HealthMetricsBuilder.build_durations (sampling_duration : Nat) (failure_threshold : Threshold) (min_throughput : Nat)
    (abandoned_policy : AbandonedPolicy) :
    let m := (new sampling_duration failure_threshold min_throughput abandoned_policy).build
    0 < m.window_duration ∧ m.sampling_duration < 11 * m.window_duration := by
  simp only [new, build, MIN_SAMPLING_DURATION, WINDOW_COUNT]
  omega

/-- After every call the running total is the sum over the windows of the deque, which are at least a window's duration
apart, at most eleven, and none of them is expired. They have counted all calls from the one that made the first of them
on, each of them once, and the calls before that one were counted by windows that a later call found expired. -/
theorem health_window_exact (sampling_duration : Nat) (failure_threshold : Threshold) (min_throughput : Nat)
    (abandoned_policy : AbandonedPolicy) (calls : List Recording) (result : ExecutionResult) (now : Nat)
    (hlen : calls.length + 1 < 2 ^ 32) :
    let m := (HealthMetricsBuilder.new sampling_duration failure_threshold min_throughput abandoned_policy).build.run
      (calls ++ [(result, now)])
    m.counts = total_counts m.windows ∧
      m.windows.Pairwise (fun a b => a.started_at < b.started_at ∧ a.started_at + m.window_duration ≤ b.started_at) ∧
      (∀ w ∈ m.windows, now - w.started_at ≤ m.sampling_duration) ∧
      (∃ gone ledger : List (Window × List Recording), m.windows = ledger.map Prod.fst ∧
        calls ++ [(result, now)] = gone.flatMap Prod.snd ++ ledger.flatMap Prod.snd ∧
        (∀ entry ∈ gone ++ ledger,
          entry.1.counts = tally entry.2 ∧ entry.2.head?.map Prod.snd = some entry.1.started_at) ∧
        Expired m.sampling_duration gone (ledger.flatMap Prod.snd)) ∧
      m.windows.length ≤ 11 := by
  intro m
  obtain ⟨hpos, hdur⟩ :=
    build_durations sampling_duration failure_threshold min_throughput abandoned_policy
  obtain ⟨hwindow, hsampling⟩ := run_durations
    (new sampling_duration failure_threshold min_throughput abandoned_policy).build calls
  have hbefore := (build_inv _).run hpos calls (by rw [length_nil]; omega)
  have hinv := hbefore.record (by rw [hwindow]; exact hpos) hlen result now
  rw [← run_concat _ calls (result, now)] at hinv
  obtain ⟨hinv, hfresh⟩ := hinv
  obtain ⟨hwindow, hsampling⟩ := run_durations
    (new sampling_duration failure_threshold min_throughput abandoned_policy).build (calls ++ [(result, now)])
  obtain ⟨gone, ledger, hledger⟩ := hinv.ledger
  have horder : ∀ {a b : Window}, a.started_at + m.window_duration ≤ b.started_at → a.started_at < b.started_at := by
    intro a b hab
    have : m.window_duration ≠ 0 := by
      rw [hwindow]
      omega
    omega
  refine ⟨hinv.counts, hinv.apart.imp fun hab => ⟨horder hab, hab⟩, hfresh,
    ⟨gone, ledger, hledger.windows_eq, hledger.calls_eq, ?_, by simpa using hledger.expired⟩,
    hinv.length_le (by rw [hwindow, hsampling]; exact hdur)⟩
  intro entry he
  exact ⟨(hledger.holds entry he).counts, (hledger.holds entry he).started⟩

/-- The second call comes two seconds later, with a sampling duration of one. -/
theorem health_window_exact_expired :
    let m := (HealthMetricsBuilder.new 0 (fun _ _ => false) 0 .ignore).build.run [(.success, 0), (.failure, 2000000000)]
    m.counts = ⟨0, 1, 0⟩ ∧ m.counts = total_counts m.windows ∧ m.windows.length ≤ 11 := by
  have h := health_window_exact 0 (fun _ _ => false) 0 .ignore [(.success, 0)] .failure 2000000000 (by decide)
  exact ⟨by decide, h.1, h.2.2.2.2⟩

end Breaker
