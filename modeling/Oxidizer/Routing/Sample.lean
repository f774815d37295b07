import Oxidizer.Routing.Resolve
/-!
# A request for every route

No literal of a template has a `*` or is empty. A path with `*` where the
atoms of a route have a variable, and with empty segments where they have
`**`, is thus matched by no atoms that come before them. Such a request
reaches its route, unless the text after the last `:` of a literal is taken
for a verb.
-/

namespace Routing

open Lib List

/-! ## What the parser leaves in the atoms -/

def Atom.Parsed : Atom → Prop
  | .literal text => text ≠ [] ∧ ∀ b ∈ text, Plain b
  | .affix pre suf => pre ++ suf ≠ [] ∧ ∀ b ∈ pre ++ suf, Plain b ∧ b ≠ COLON
  | .single | .rest => True

def Atom.sample : Atom → Str
  | .literal text => text
  | .single => [STAR]
  | .affix pre suf => pre ++ [STAR] ++ suf
  | .rest => []

/-- `**` takes two empty segments, as a path of one is the root. -/
def sample : List Atom → List Str
  | [] => []
  | a :: atoms => if a = .rest then [[], []] else a.sample :: sample atoms

/-- Literal text ends before the `*`. -/
theorem leads_to_star {pre suf pre' rest : Str} (hstar : STAR ∉ pre') (h : pre ++ STAR :: suf = pre' ++ rest) :
    pre' <+: pre := by
  rcases append_eq_append_iff.mp h with ⟨tail, rfl, htail⟩ | ⟨tail, rfl, -⟩
  · cases tail with
    | nil => simp
    | cons b tail =>
      cases htail
      simp at hstar
  · exact prefix_append _ _

theorem star_affix {pre suf pre' middle suf' : Str} (hstar : STAR ∉ pre' ++ suf')
    (h : pre ++ [STAR] ++ suf = pre' ++ middle ++ suf') : pre' <+: pre ∧ suf' <:+ suf := by
  rw [mem_append, not_or] at hstar
  have hback : suf.reverse ++ STAR :: pre.reverse = suf'.reverse ++ (middle.reverse ++ pre'.reverse) := by
    simpa using congrArg reverse h
  rw [append_assoc, append_assoc] at h
  exact ⟨leads_to_star hstar.1 h, reverse_prefix.mp (leads_to_star (mt mem_reverse.mp hstar.2) hback)⟩

/-- Of the atoms that take the sample of an atom, it comes first. -/
theorem Atom.Accepts.sample {a b : Atom} (ha : a.Parsed) (hrest : a ≠ .rest) (hb : b.Parsed) (h : b.Accepts a.sample) :
    b = a ∨ a.Before b := by
  have hstar : ∀ {pre suf : Str}, (Atom.affix pre suf).Parsed → STAR ∉ pre ++ suf := fun h hmem => (h.2 _ hmem).1.2.1 rfl
  cases a with
  | rest => exact absurd rfl hrest
  | literal text =>
    cases b with
    | literal text' => exact .inl (congrArg _ h.symm)
    | _ => exact .inr (by simp [Before, rank])
  | single =>
    cases b with
    | literal text => exact absurd rfl (hb.2 STAR (h ▸ mem_singleton_self _)).2.1
    | single => exact .inl rfl
    | rest => exact h.elim
    | affix pre suf =>
      obtain ⟨middle, -, heq⟩ := h
      obtain ⟨hpre, hsuf⟩ := star_affix (hstar hb) (show [] ++ [STAR] ++ [] = _ from heq)
      rw [prefix_nil] at hpre
      rw [suffix_nil] at hsuf
      exact absurd (by rw [hpre, hsuf]; rfl) hb.1
  | affix pre suf =>
    cases b with
    | literal text =>
      refine absurd rfl (hb.2 STAR (h ▸ ?_)).2.1
      simp [Atom.sample]
    | single => exact .inr (by simp [Before, rank])
    | rest => exact h.elim
    | affix pre' suf' =>
      obtain ⟨middle, -, heq⟩ := h
      obtain ⟨hpre, hsuf⟩ := star_affix (hstar hb) heq
      have hle := hpre.length_le
      have hle' := hsuf.length_le
      by_cases hlt : pre'.length + suf'.length < pre.length + suf.length
      · exact .inr (.inl hlt)
      · rw [hpre.eq_of_length (by omega), hsuf.eq_of_length (by omega)]
        exact .inl rfl

def join (segs : List Str) : Str := segs.flatMap (SLASH :: ·)

/-- The path that a route is asked with. -/
def Route.path (route : Route) : Str := join (sample route.atoms) ++ route.template.verb.elim [] (COLON :: ·)

theorem Matches.last {atoms : List Atom} {segs : List Str} {text : Str} (h : Matches atoms segs)
    (hlast : atoms.getLast? = some (.literal text)) : segs.getLast? = some text := by
  induction atoms generalizing segs with
  | nil => cases hlast
  | cons a atoms ih =>
    by_cases ha : a = .rest
    · subst ha
      cases (h : atoms = [])
      cases hlast
    · obtain ⟨s, segs, rfl, hs, hm⟩ := (matches_cons ha _ _).mp h
      by_cases hnil : atoms = []
      · subst hnil
        cases hlast
        cases (hm : segs = [])
        exact congrArg some hs
      · rw [getLast?_cons_of_ne_nil hnil] at hlast
        rw [getLast?_cons, ih hm hlast]
        rfl

end Routing
