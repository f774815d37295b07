import Mathlib
/-!
# Methods that mutate, panic or do not return

`Exec σ ε α` is a method on a mutable receiver of type `σ`. It returns an
`α`, panics with an `ε`, or does not return; in every case the receiver is
left in some state, so what a caught panic leaves behind can be stated.
Loops run on fuel: `loop n` gives `div` when the body has not finished after
`n` rounds, so a loop that returns for all large `n` terminates, and one that
gives `div` for every `n` spins.
-/

namespace Lib

inductive Outcome (ε α : Type) where
  | ok (a : α)
  | panic (e : ε)
  | div
deriving DecidableEq

/-- A method on a mutable receiver `σ` that can panic with `ε`. -/
structure Exec (σ ε α : Type) where
  run : σ → Outcome ε α × σ

namespace Exec
variable {σ ε α β : Type}

instance : Monad (Exec σ ε) where
  pure a := ⟨fun s => (.ok a, s)⟩
  bind m k := ⟨fun s =>
    match m.run s with
    | (.ok a, s') => (k a).run s'
    | (.panic e, s') => (.panic e, s')
    | (.div, s') => (.div, s')⟩

def panic (e : ε) : Exec σ ε α := ⟨fun s => (.panic e, s)⟩

def self : Exec σ ε σ := ⟨fun s => (.ok s, s)⟩

def put (s : σ) : Exec σ ε Unit := ⟨fun _ => (.ok (), s)⟩

/-- `Option::expect`: the value, or a panic. -/
def expect (e : ε) : Option α → Exec σ ε α
  | some a => pure a
  | none => panic e

def assert (c : Bool) (e : ε) : Exec σ ε Unit := if c then pure () else panic e

/-- `loop { body }` for at most `fuel` rounds: `.inl` goes round again with
the new locals, `.inr` leaves the loop. -/
def loop (fuel : Nat) (body : β → Exec σ ε (β ⊕ α)) (x : β) : Exec σ ε α :=
  match fuel with
  | 0 => ⟨fun s => (.div, s)⟩
  | n + 1 => do
    match ← body x with
    | .inl y => loop n body y
    | .inr a => pure a

/-! ## Running the primitives -/

@[simp] theorem run_pure (a : α) (s : σ) : (pure a : Exec σ ε α).run s = (.ok a, s) := rfl
@[simp] theorem run_panic (e : ε) (s : σ) : (panic e : Exec σ ε α).run s = (.panic e, s) := rfl
@[simp] theorem run_self (s : σ) : (self : Exec σ ε σ).run s = (.ok s, s) := rfl
@[simp] theorem run_put (s t : σ) : (put t : Exec σ ε Unit).run s = (.ok (), t) := rfl
@[simp] theorem expect_some (e : ε) (a : α) : (expect e (some a) : Exec σ ε α) = pure a := rfl
@[simp] theorem expect_none (e : ε) : (expect e none : Exec σ ε α) = panic e := rfl

variable {k : α → Exec σ ε β}

variable {m : Exec σ ε α}

variable {s s' : σ} {a : α}

theorem bind_ok (h : m.run s = (.ok a, s')) :
    (m >>= k).run s = (k a).run s' := by
  change (match m.run s with | (.ok a, s') => (k a).run s' | (.panic e, s') => (.panic e, s') | (.div, s') => _) = _
  rw [h]

variable {e : ε}

theorem bind_panic (h : m.run s = (.panic e, s')) :
    (m >>= k).run s = (.panic e, s') := by
  change (match m.run s with | (.ok a, s') => (k a).run s' | (.panic e, s') => (.panic e, s') | (.div, s') => _) = _
  rw [h]

theorem bind_div (h : m.run s = (.div, s')) :
    (m >>= k).run s = (.div, s') := by
  change (match m.run s with | (.ok a, s') => (k a).run s' | (.panic e, s') => (.panic e, s') | (.div, s') => _) = _
  rw [h]

theorem expect_ok {o : Option α} : (expect e o).run s = (.ok a, s') ↔ o = some a ∧ s = s' := by
  cases o with
  | none => exact ⟨nofun, nofun⟩
  | some b =>
    rw [Option.some.injEq]
    constructor
    · intro h
      cases h
      exact ⟨rfl, rfl⟩
    · rintro ⟨rfl, rfl⟩
      rfl

@[simp] theorem pure_then (a : α) (k : α → Exec σ ε β) : ((pure a : Exec σ ε α) >>= k) = k a := rfl
@[simp] theorem panic_then (e : ε) (k : α → Exec σ ε β) : ((panic e : Exec σ ε α) >>= k) = panic e := rfl
@[simp] theorem self_then (k : σ → Exec σ ε β) (s : σ) : ((self : Exec σ ε σ) >>= k).run s = (k s).run s := rfl
@[simp] theorem put_then (t : σ) (k : Unit → Exec σ ε β) (s : σ) :
    ((put t : Exec σ ε Unit) >>= k).run s = (k ()).run t := rfl

theorem then_assoc {γ : Type} (m : Exec σ ε α) (k : α → Exec σ ε β) (l : β → Exec σ ε γ) :
    ((m >>= k) >>= l) = m >>= fun a => k a >>= l := by
  refine congrArg Exec.mk (funext fun s => ?_)
  simp only [bind]
  rcases m.run s with ⟨_ | _ | _, s'⟩ <;> rfl

theorem lawful : LawfulMonad (Exec σ ε) :=
  LawfulMonad.mk' _
    (fun m => by
      refine congrArg Exec.mk (funext fun s => ?_)
      rcases m.run s with ⟨_ | _ | _, s'⟩ <;> rfl)
    (fun _ _ => rfl) then_assoc

theorem mapM_ok {f : α → Exec σ ε β} {as : List α} {bs : List β}
    (h : List.Forall₂ (fun a b => (f a).run s = (.ok b, s)) as bs) : (as.mapM f).run s = (.ok bs, s) := by
  have := lawful (σ := σ) (ε := ε)
  induction h with
  | nil => rfl
  | cons ha _ ih => rw [List.mapM_cons, bind_ok ha, bind_ok ih, run_pure]

variable {c : Bool}

theorem assert_true (h : c = true) (e : ε) : (assert c e : Exec σ ε Unit) = pure () := by
  simp [assert, h]

theorem assert_false (h : c = false) (e : ε) : (assert c e : Exec σ ε Unit) = panic e := by
  simp [assert, h]

/-! ## Loops -/

variable {body : β → Exec σ ε (β ⊕ α)}

variable {x : β}

theorem loop_step {y : β} (n : Nat)
    (h : (body x).run s = (.ok (.inl y), s')) : (loop (n + 1) body x).run s = (loop n body y).run s' := by
  rw [loop, bind_ok h]

theorem loop_exit (n : Nat)
    (h : (body x).run s = (.ok (.inr a), s')) : (loop (n + 1) body x).run s = (.ok a, s') := by
  rw [loop, bind_ok h]; rfl

theorem loop_more : ∀ {n x s} m, n ≤ m →
    (loop n body x).run s = (.ok a, s') → (loop m body x).run s = (.ok a, s') := by
  intro n
  induction n with
  | zero => intro x s m _ h; cases h
  | succ n ih =>
    intro x s m hm h
    obtain ⟨m, rfl⟩ : ∃ k, m = k + 1 := ⟨m - 1, by omega⟩
    rcases hb : (body x).run s with ⟨(y | b) | e | _, s₁⟩
    · rw [loop_step n hb] at h
      rw [loop_step m hb]
      exact ih m (Nat.le_of_succ_le_succ hm) h
    · rw [loop_exit n hb] at h
      rw [loop_exit m hb]
      exact h
    · rw [loop, bind_panic hb] at h
      cases h
    · rw [loop, bind_div hb] at h
      cases h

/-- Total correctness of a loop: `I` is kept by every round, each round that
goes on lowers `μ`, and a round that leaves gives `Q`. Then every fuel above
`μ` is enough. -/
theorem loop_total (body : β → Exec σ ε (β ⊕ α)) (μ : β → σ → Nat) (I : β → σ → Prop) (Q : α → σ → Prop)
    (hs : ∀ x s, I x s → (∃ y s', (body x).run s = (.ok (.inl y), s') ∧ I y s' ∧ μ y s' < μ x s) ∨
      (∃ a s', (body x).run s = (.ok (.inr a), s') ∧ Q a s')) :
    ∀ fuel x s, I x s → μ x s < fuel → ∃ a s', (loop fuel body x).run s = (.ok a, s') ∧ Q a s' := by
  intro fuel
  induction fuel with
  | zero => intro x s _ h; exact absurd h (Nat.not_lt_zero _)
  | succ n ih =>
    intro x s hI hμ
    rcases hs x s hI with ⟨y, s', hb, hI', hlt⟩ | ⟨a, s', hb, hQ⟩
    · rw [loop_step n hb]
      exact ih y s' hI' (Nat.lt_of_lt_of_le hlt (Nat.le_of_lt_succ hμ))
    · exact ⟨a, s', loop_exit n hb, hQ⟩

theorem loop_spins (h : (body x).run s = (.ok (.inl x), s)) :
    ∀ fuel, (loop fuel body x).run s = (.div, s) := by
  intro fuel
  induction fuel with
  | zero => rfl
  | succ n ih => rw [loop_step n h, ih]

/-! ## What a method keeps, however it ends -/

/-- `I` holds afterwards if it held before, whether the method returned, panicked or did not return. -/
def Keeps (I : σ → Prop) (m : Exec σ ε α) : Prop := ∀ s, I s → I (m.run s).2

variable {I : σ → Prop}

theorem keeps_pure (a : α) : Keeps I (pure a : Exec σ ε α) := fun _ h => h

theorem keeps_panic (e : ε) : Keeps I (panic e : Exec σ ε α) := fun _ h => h

theorem keeps_self : Keeps I (self : Exec σ ε σ) := fun _ h => h

theorem keeps_expect (e : ε) (o : Option α) : Keeps I (expect e o : Exec σ ε α) := by
  cases o with
  | none => exact keeps_panic e
  | some a => exact keeps_pure a

theorem keeps_assert (c : Bool) (e : ε) : Keeps I (assert c e : Exec σ ε Unit) := by
  unfold assert
  split
  · exact keeps_pure ()
  · exact keeps_panic e

theorem keeps_then {J : σ → Prop} (hm : Keeps J m) (hs : J s)
    (hI : ∀ s, J s → I s) (hk : ∀ a s, J s → I ((k a).run s).2) : I ((m >>= k).run s).2 := by
  have hmid := hm s hs
  rcases hrun : m.run s with ⟨a | e | _, s'⟩ <;> rw [hrun] at hmid
  · rw [bind_ok hrun]
    exact hk a s' hmid
  · rw [bind_panic hrun]
    exact hI s' hmid
  · rw [bind_div hrun]
    exact hI s' hmid

theorem keeps_bind (hm : Keeps I m) (hk : ∀ a, Keeps I (k a)) : Keeps I (m >>= k) :=
  fun _ hs => keeps_then hm hs (fun _ h => h) hk

theorem keeps_expect_then {o : Option α} (hs : I s)
    (hk : ∀ a, o = some a → I ((k a).run s).2) : I ((expect e o >>= k).run s).2 := by
  cases o with
  | none => exact hs
  | some a => exact hk a rfl

theorem keeps_assert_then {k : Unit → Exec σ ε β} (hs : I s) (hk : I ((k ()).run s).2) :
    I ((assert c e >>= k).run s).2 := by
  cases c with
  | false => exact hs
  | true => exact hk

theorem keeps_ite {c : Prop} [Decidable c] {m m' : Exec σ ε α} (hm : Keeps I m) (hm' : Keeps I m') :
    Keeps I (if c then m else m') := by
  split
  · exact hm
  · exact hm'

theorem keeps_loop (h : ∀ x, Keeps I (body x)) (fuel : Nat) (x : β) :
    Keeps I (loop fuel body x) := by
  induction fuel generalizing x with
  | zero => exact fun _ hs => hs
  | succ n ih =>
    refine keeps_bind (h x) ?_
    rintro (y | a)
    · exact ih y
    · exact keeps_pure a

end Exec

end Lib
