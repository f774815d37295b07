import Oxidizer.Rallocator.Combining
/-!
# The lease on the value

The invariant of the combining lock, over the queue of the published nodes and
the thread that has the lease. A combiner has a node in its care: the front of
the queue, or the last node it has still to release. All nodes behind the front
are fresh, and each is linked to the one before it or about to be.
-/

namespace Rallocator

namespace Combining
variable {ι τ ρ : Type}

/-! ## Nodes -/

/-- The action of the call is in its node and has not been run. -/
def Fresh (t : Thread ι τ ρ) : Prop := ∃ action, t.given = some action ∧ t.action = some action ∧ t.seen = []

/-- The action has been taken to be run. -/
def Taken (t : Thread ι τ ρ) (action : τ → ρ × τ) : Prop := t.given = some action ∧ t.action = none ∧ t.seen = []

/-- The action has been run once, and the result is in the node. -/
def Served (t : Thread ι τ ρ) : Prop :=
  ∃ action value, t.given = some action ∧ t.action = none ∧ t.seen = [value] ∧ t.result = some (action value).1

/-- The action has been run once, and this is the result. -/
def Ran (t : Thread ι τ ρ) (result : ρ) : Prop :=
  ∃ action value, t.given = some action ∧ t.seen = [value] ∧ result = (action value).1

def Pc.parked : Pc ι τ ρ → Bool
  | .wait _ | .sleep | .asleep => true
  | _ => false

/-- The owner waits and has not been allowed to return. -/
def Waits (t : Thread ι τ ρ) : Prop := t.pc.parked = true ∧ (t.status = .waiting ∨ t.status = .sleeping)

/-- The node that a thread serves, or has still to release. -/
def Pc.cares : Pc ι τ ρ → Option ι
  | .prefetch current | .invoke current | .run current _ _ | .next current | .leave current | .stalled current
  | .reload current | .wake _ .head (.pass current) | .notify _ (.pass current) => some current
  | .wake node .done _ => some node
  | .notify _ (.advance successor) => some successor
  | _ => none

/-- A node serves itself, or waits for a combiner whose own node is done with. -/
def Minds (s : Combining ι τ ρ) (queue : List ι) (p c : ι) : Prop :=
  c = p ∧ (s.threads p).status ≠ .done ∨ c ≠ p ∧ Waits (s.threads c) ∧ p ∉ queue ∧ Served (s.threads p)

/-- Two neighbours in the queue. -/
def Joined (s : Combining ι τ ρ) (a b : ι) : Prop :=
  Fresh (s.threads b) ∧
    ((s.threads b).pc = .link a ∧ (s.threads a).next = none ∨ Waits (s.threads b) ∧ (s.threads a).next = some b)

def Linked (s : Combining ι τ ρ) : List ι → Prop
  | [] => True
  | [a] => (s.threads a).next = none
  | a :: b :: queue => Joined s a b ∧ Linked s (b :: queue)

/-! ## The invariant -/

/-- The lease holder at work on the front of the queue. -/
def Heads (s : Combining ι τ ρ) (queue : List ι) (lease : Option ι) (p c : ι) : Prop :=
  lease = some p ∧ queue.head? = some c ∧ Minds s queue p c

/-- A thread that has a node to release outside of the queue. -/
def Releases (s : Combining ι τ ρ) (queue : List ι) (lease : Option ι) (p c : ι) : Prop :=
  c ∉ queue ∧ p ∉ queue ∧ (c ≠ p → lease ≠ some c) ∧ Served (s.threads c) ∧ Minds s queue p c

def Out (queue : List ι) (lease : Option ι) (p : ι) : Prop := p ∉ queue ∧ lease ≠ some p

/-- A thread in `wait`, by the status of its node. -/
def Holding (queue : List ι) (lease : Option ι) (p : ι) (t : Thread ι τ ρ) : Prop :=
  match t.status with
  | .waiting | .sleeping => lease ≠ some p
  | .head => lease = some p ∧ queue.head? = some p ∧ Fresh t
  | .done => Out queue lease p ∧ Served t

/-- Where a thread is, in terms of the queue and the lease. -/
def Ok (s : Combining ι τ ρ) (queue : List ι) (lease : Option ι) (p : ι) : Prop :=
  let t := s.threads p
  match t.pc with
  | .idle => Out queue lease p
  | .enter action | .flag action => Out queue lease p ∧ t.given = some action ∧ t.seen = []
  | .fast action => lease = some p ∧ p ∉ queue ∧ t.given = some action ∧ t.seen = []
  | .fast_run action value => lease = some p ∧ p ∉ queue ∧ t.given = some action ∧ t.seen = [] ∧ s.value = value
  | .fast_clear result => lease = some p ∧ p ∉ queue ∧ Ran t result
  | .publish => Out queue lease p ∧ Fresh t ∧ t.next = none ∧ t.status = .waiting
  | .acquire | .spin => queue.head? = some p ∧ lease ≠ some p ∧ Fresh t ∧ t.status = .waiting
  | .link _ => lease ≠ some p ∧ p ∈ queue.tail ∧ t.status = .waiting
  | .wait _ | .sleep | .asleep => Holding queue lease p t
  | .woke =>
    t.status = .head ∧ lease = some p ∧ queue.head? = some p ∧ Fresh t ∨
      t.status = .done ∧ Out queue lease p ∧ Served t
  | .prefetch c | .invoke c | .notify _ (.advance c) => Heads s queue lease p c ∧ Fresh (s.threads c)
  | .run c action value => Heads s queue lease p c ∧ Taken (s.threads c) action ∧ s.value = value
  | .next c | .leave c => Heads s queue lease p c ∧ Served (s.threads c)
  | .stalled c => Heads s queue lease p c ∧ Served (s.threads c) ∧ 2 ≤ queue.length
  | .reload c => Heads s queue lease p c ∧ Served (s.threads c) ∧ (s.threads c).next ≠ none
  | .wake c .done (.advance n) | .wake n .head (.pass c) =>
    Heads s queue lease p c ∧ Served (s.threads c) ∧ (s.threads c).next = some n
  | .wake c .done .clear => lease = some p ∧ Releases s queue lease p c
  | .wake c .done .finish | .notify _ (.pass c) => lease ≠ some p ∧ Releases s queue lease p c
  | .notify _ .clear | .clear => lease = some p ∧ p ∉ queue ∧ Served t
  | .notify _ .finish | .finish => Out queue lease p ∧ Served t
  | .returned result => Out queue lease p ∧ Ran t result
  | .wake _ _ _ | .fault => False

/-- The thread acts for the lease, or is going to see that it has it. -/
def Leads (t : Thread ι τ ρ) : Prop :=
  match t.pc with
  | .fast _ | .fast_run _ _ | .fast_clear _ | .prefetch _ | .invoke _ | .run _ _ _ | .next _ | .leave _ | .stalled _
  | .reload _ | .wake _ .done (.advance _) | .wake _ .done .clear | .wake _ .head _ | .notify _ (.advance _)
  | .notify _ .clear | .clear => True
  | .wait _ | .sleep | .asleep | .woke => t.status = .head
  | _ => False

/-- The lease holder serves this node, or is its owner. -/
def Fronted (s : Combining ι τ ρ) (lease : Option ι) (c : ι) : Prop :=
  ∃ r, lease = some r ∧ (r = c ∨ (s.threads r).pc.cares = some c)

structure InvAt (s : Combining ι τ ρ) (queue : List ι) (lease : Option ι) : Prop where
  flag : s.flag = lease.isSome
  last : s.last = queue.getLast?
  nodup : queue.Nodup
  chain : Linked s queue
  ok : ∀ p, Ok s queue lease p
  care : ∀ p p' c, (s.threads p).pc.cares = some c → (s.threads p').pc.cares = some c → p = p'
  leads : ∀ p, lease = some p → Leads (s.threads p)
  front : ∀ p, queue.head? = some p → (s.threads p).pc = .acquire ∨ (s.threads p).pc = .spin ∨ Fronted s lease p
  parked : ∀ p, Waits (s.threads p) → p ∈ queue.tail ∨ ∃ r, (s.threads r).pc.cares = some p
  slept : ∀ p, Waits (s.threads p) → ((s.threads p).status = .sleeping ↔ (s.threads p).pc = .asleep)
  noticed : ∀ p, (s.threads p).pc = .asleep →
    (s.threads p).status = .sleeping ∨ (s.threads p).woken = true ∨ ∃ r after, (s.threads r).pc = .notify p after

/-! ## What a step of another thread leaves alone -/

/-- A node is left as it is, but for a link that is set. -/
structure Kept (t t' : Thread ι τ ρ) : Prop where
  waits : Waits t → Waits t'
  given : t'.given = t.given
  action : t'.action = t.action
  seen : t'.seen = t.seen
  result : t'.result = t.result
  next : t.next ≠ none → t'.next = t.next

theorem Kept.refl (t : Thread ι τ ρ) : Kept t t := ⟨id, rfl, rfl, rfl, rfl, fun _ => rfl⟩

variable {t t' : Thread ι τ ρ}

theorem Kept.fresh (h : Kept t t') (hf : Fresh t) : Fresh t' := by
  unfold Fresh
  rw [h.given, h.action, h.seen]
  exact hf

theorem Kept.taken (h : Kept t t') {action : τ → ρ × τ} (hf : Taken t action) : Taken t' action := by
  unfold Taken
  rw [h.given, h.action, h.seen]
  exact hf

theorem Kept.served (h : Kept t t') (hf : Served t) : Served t' := by
  unfold Served
  rw [h.given, h.action, h.seen, h.result]
  exact hf

theorem Kept.next_some (h : Kept t t') {n : ι} (hn : t.next = some n) : t'.next = some n :=
  (h.next (by simp [hn])).trans hn

/-- A thread is where it was, but for a link or a wake. -/
structure Unmoved (t t' : Thread ι τ ρ) : Prop extends Kept t t' where
  pc : t'.pc = t.pc
  status : t'.status = t.status
  fresh_link : t.pc = .publish → t'.next = t.next

theorem Unmoved.of_eq (h : t' = t) : Unmoved t t' := by
  subst h
  exact ⟨Kept.refl _, rfl, rfl, fun _ => rfl⟩

theorem Kept.ran (h : Kept t t') {result : ρ} (hr : Ran t result) : Ran t' result := by
  unfold Ran
  rw [h.given, h.seen]
  exact hr

/-- What a thread relies on, from one state to another. -/
structure Frame (s s' : Combining ι τ ρ) (queue queue' : List ι) (lease lease' : Option ι) (p : ι) : Prop where
  own : Unmoved (s.threads p) (s'.threads p)
  leased : lease' = some p ↔ lease = some p
  out : p ∉ queue → p ∉ queue'
  head : ¬Waits (s.threads p) → queue.head? = some p → queue'.head? = some p
  tail : ¬Waits (s.threads p) → p ∈ queue.tail → p ∈ queue'.tail
  node : ∀ c, (s.threads p).pc.cares = some c → c ≠ p → Kept (s.threads c) (s'.threads c)
  fronts : ∀ c, (s.threads p).pc.cares = some c → queue.head? = some c → queue'.head? = some c
  outs : ∀ c, (s.threads p).pc.cares = some c → c ∉ queue → c ∉ queue'
  unleased : ∀ c, (s.threads p).pc.cares = some c → lease ≠ some c → lease' ≠ some c
  value : lease = some p → s'.value = s.value
  length : lease = some p → 2 ≤ queue.length → 2 ≤ queue'.length

namespace Frame
variable {s s' : Combining ι τ ρ} {queue queue' : List ι} {lease lease' : Option ι} {p c : ι}

variable (h : Frame s s' queue queue' lease lease' p)
include h

variable (hc : (s.threads p).pc.cares = some c)
include hc

theorem kept :
    Kept (s.threads c) (s'.threads c) := by
  by_cases hcp : c = p
  · rw [hcp]
    exact h.own.toKept
  · exact h.node c hc hcp

omit hc in
theorem outside (ho : Out queue lease p) : Out queue' lease' p :=
  ⟨h.out ho.1, fun hl => ho.2 (h.leased.mp hl)⟩

theorem minds
    (hm : Minds s queue p c) : Minds s' queue' p c := by
  rcases hm with ⟨hcp, hs⟩ | ⟨hcp, hw, hq, hs⟩
  · exact .inl ⟨hcp, by rwa [h.own.status]⟩
  · exact .inr ⟨hcp, (h.kept hc).waits hw, h.out hq, h.own.served hs⟩

theorem heads
    (hh : Heads s queue lease p c) : Heads s' queue' lease' p c :=
  ⟨h.leased.mpr hh.1, h.fronts c hc hh.2.1, h.minds hc hh.2.2⟩

theorem releases
    (hr : Releases s queue lease p c) : Releases s' queue' lease' p c :=
  ⟨h.outs c hc hr.1, h.out hr.2.1, fun hcp => h.unleased c hc (hr.2.2.1 hcp), (h.kept hc).served hr.2.2.2.1,
    h.minds hc hr.2.2.2.2⟩

omit hc

theorem unled (hl : lease ≠ some p) : lease' ≠ some p :=
  fun hl' => hl (h.leased.mp hl')

end Frame

theorem Ok.frame {s s' : Combining ι τ ρ} {queue queue' : List ι} {lease lease' : Option ι} {p : ι}
    (hok : Ok s queue lease p) (h : Frame s s' queue queue' lease lease' p) : Ok s' queue' lease' p := by
  have hk := fun c => h.kept (c := c)
  have hh := fun c => h.heads (c := c)
  have hr := fun c => h.releases (c := c)
  simp only [Ok, h.own.pc] at hok ⊢
  generalize hpc : (s.threads p).pc = pc at hok hk hh hr ⊢
  cases pc with
  | wake n st after =>
    cases st <;> cases after <;> simp only [Pc.cares] at hk hh hr hok ⊢
    case done.advance => exact ⟨hh _ rfl hok.1, (hk _ rfl).served hok.2.1, (hk _ rfl).next_some hok.2.2⟩
    case done.clear => exact ⟨h.leased.mpr hok.1, hr _ rfl hok.2⟩
    case done.finish => exact ⟨h.unled hok.1, hr _ rfl hok.2⟩
    case head.pass => exact ⟨hh _ rfl hok.1, (hk _ rfl).served hok.2.1, (hk _ rfl).next_some hok.2.2⟩
  | notify n after =>
    cases after <;> simp only [Pc.cares] at hk hh hr hok ⊢
    case advance => exact ⟨hh _ rfl hok.1, (hk _ rfl).fresh hok.2⟩
    case clear => exact ⟨h.leased.mpr hok.1, h.out hok.2.1, h.own.served hok.2.2⟩
    case pass => exact ⟨h.unled hok.1, hr _ rfl hok.2⟩
    case finish => exact ⟨h.outside hok.1, h.own.served hok.2⟩
  | prefetch c | invoke c =>
    exact ⟨hh _ rfl hok.1, (hk _ rfl).fresh hok.2⟩
  | run c action value =>
    exact ⟨hh _ rfl hok.1, (hk _ rfl).taken hok.2.1, (h.value hok.1.1).trans hok.2.2⟩
  | next c | leave c =>
    exact ⟨hh _ rfl hok.1, (hk _ rfl).served hok.2⟩
  | stalled c =>
    exact ⟨hh _ rfl hok.1, (hk _ rfl).served hok.2.1, h.length hok.1.1 hok.2.2⟩
  | reload c =>
    refine ⟨hh _ rfl hok.1, (hk _ rfl).served hok.2.1, ?_⟩
    rw [(hk _ rfl).next hok.2.2]
    exact hok.2.2
  | wait | sleep | asleep =>
    simp only [Holding, h.own.status] at hok ⊢
    cases hst : (s.threads p).status <;> simp only [hst] at hok ⊢
    case waiting => exact h.unled hok
    case sleeping => exact h.unled hok
    case head => exact ⟨h.leased.mpr hok.1, h.head (by simp [Waits, hst]) hok.2.1, h.own.fresh hok.2.2⟩
    case done => exact ⟨h.outside hok.1, h.own.served hok.2⟩
  | woke =>
    simp only [h.own.status] at hok ⊢
    rcases hok with ⟨hst, hl, hq, hf⟩ | ⟨hst, ho, hs⟩
    · exact .inl ⟨hst, h.leased.mpr hl, h.head (by simp [Waits, hst]) hq, h.own.fresh hf⟩
    · exact .inr ⟨hst, h.outside ho, h.own.served hs⟩
  | idle =>
    exact h.outside hok
  | enter | flag =>
    simp only [h.own.given, h.own.seen] at hok ⊢
    exact ⟨h.outside hok.1, hok.2⟩
  | publish =>
    simp only [h.own.status, h.own.fresh_link hpc] at hok ⊢
    exact ⟨h.outside hok.1, h.own.fresh hok.2.1, hok.2.2⟩
  | finish =>
    exact ⟨h.outside hok.1, h.own.served hok.2⟩
  | returned =>
    exact ⟨h.outside hok.1, h.own.ran hok.2⟩
  | fast =>
    simp only [h.own.given, h.own.seen] at hok ⊢
    exact ⟨h.leased.mpr hok.1, h.out hok.2.1, hok.2.2⟩
  | fast_clear =>
    exact ⟨h.leased.mpr hok.1, h.out hok.2.1, h.own.ran hok.2.2⟩
  | clear =>
    exact ⟨h.leased.mpr hok.1, h.out hok.2.1, h.own.served hok.2.2⟩
  | fast_run =>
    simp only [h.own.given, h.own.seen] at hok ⊢
    exact ⟨h.leased.mpr hok.1, h.out hok.2.1, hok.2.2.1, hok.2.2.2.1, (h.value hok.1).trans hok.2.2.2.2⟩
  | acquire | spin =>
    simp only [h.own.status] at hok ⊢
    exact ⟨h.head (by simp [Waits, hpc, Pc.parked]) hok.1, h.unled hok.2.1, h.own.fresh hok.2.2.1, hok.2.2.2⟩
  | link =>
    simp only [h.own.status] at hok ⊢
    exact ⟨h.unled hok.1, h.tail (by simp [Waits, hpc, Pc.parked]) hok.2.1, hok.2.2⟩
  | fault => exact hok.elim

/-! ## Steps of one thread -/

theorem Linked.congr {s s' : Combining ι τ ρ} : ∀ {queue : List ι}, Linked s queue →
    (∀ a ∈ queue, (s'.threads a).next = (s.threads a).next) →
    (∀ b ∈ queue.tail, (Fresh (s.threads b) → Fresh (s'.threads b)) ∧ (Waits (s.threads b) → Waits (s'.threads b)) ∧
      ∀ a, (s.threads b).pc = .link a → (s'.threads b).pc = .link a) → Linked s' queue
  | [], _, _, _ => trivial
  | [a], h, hnext, _ => (hnext a (by simp)).trans h
  | a :: b :: queue, ⟨hj, h⟩, hnext, hnode => by
    obtain ⟨hfresh, hwaits, hlink⟩ := hnode b (by simp)
    refine ⟨⟨hfresh hj.1, ?_⟩, h.congr (fun c hc => hnext c (by simp [hc])) fun c hc => hnode c ?_⟩
    · rw [hnext a (by simp)]
      rcases hj.2 with ⟨h1, h2⟩ | ⟨h1, h2⟩
      · exact .inl ⟨hlink a h1, h2⟩
      · exact .inr ⟨hwaits h1, h2⟩
    · exact List.mem_cons_of_mem b hc

namespace InvAt
variable {s s' : Combining ι τ ρ} {queue queue' : List ι} {lease lease' : Option ι} {p c : ι}

/-- A node in the care of a thread is the front of the queue, or is released outside of it. -/
theorem serves_or_releases (inv : InvAt s queue lease) (hc : (s.threads p).pc.cares = some c) :
    Heads s queue lease p c ∨ Releases s queue lease p c := by
  have hok := inv.ok p
  cases hpc : (s.threads p).pc with
  | wake n st after =>
    rw [hpc] at hc
    simp only [Ok, hpc] at hok
    cases st <;> cases after <;> simp only [Pc.cares, Option.some.injEq, reduceCtorEq] at hc hok
    case done.advance => exact .inl (hc ▸ hok.1)
    case done.clear => exact .inr (hc ▸ hok.2)
    case done.finish => exact .inr (hc ▸ hok.2)
    case head.pass => exact .inl (hc ▸ hok.1)
  | notify n after =>
    rw [hpc] at hc
    simp only [Ok, hpc] at hok
    cases after <;> simp only [Pc.cares, Option.some.injEq, reduceCtorEq] at hc hok
    case advance => exact .inl (hc ▸ hok.1)
    case pass => exact .inr (hc ▸ hok.2)
  | prefetch | invoke | run | next | leave | stalled | reload =>
    rw [hpc] at hc
    simp only [Ok, hpc] at hok
    simp only [Pc.cares, Option.some.injEq] at hc
    exact .inl (hc ▸ hok.1)
  | idle | enter | flag | fast | fast_run | fast_clear | publish | acquire | spin | link | wait | sleep | asleep | woke
  | clear | finish | returned | fault => simp [hpc, Pc.cares] at hc

theorem minds (inv : InvAt s queue lease) (hc : (s.threads p).pc.cares = some c) : Minds s queue p c := by
  rcases inv.serves_or_releases hc with h | h
  · exact h.2.2
  · exact h.2.2.2.2

theorem care_waits (inv : InvAt s queue lease) (hc : (s.threads p).pc.cares = some c) (hne : c ≠ p) :
    Waits (s.threads c) := by
  rcases inv.minds hc with ⟨h, -⟩ | ⟨-, h, -⟩
  · exact absurd h hne
  · exact h

end InvAt

end Combining

end Rallocator
