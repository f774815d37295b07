import Oxidizer.Routing.Captures
/-!
# Resolution meets the declared precedence

The resolver of a list of routes answers a request with the declared route
that matches and comes first: by the order of its atoms, and among routes with
the same atoms by the order of declaration. If no declared route matches there
is no answer. What it captures is what the variables of the route span.
-/

namespace Routing

open Lib Lib.Exec List RawResolver

/-! ## The declarative side -/

/-- The path body, and the verb if some route has one. -/
def split (routes : List Route) (path : Str) : Str × Option Str :=
  if routes.any fun route => route.template.verb.isSome then split_verb path else (path, none)

/-- Route number `i` is declared, and answers a request. -/
structure Candidate (routes : List Route) (method : String) (path : Str) (i : Nat) (route : Route) : Prop where
  declared : routes[i]? = some route
  method_eq : route.method = method
  verb_eq : route.template.verb = (split routes path).2
  hits : Matches route.atoms (segments (split routes path).1)

/-- No other candidate comes before route number `i`. -/
structure Selected (routes : List Route) (method : String) (path : Str) (i : Nat) (route : Route) : Prop where
  candidate : Candidate routes method path i route
  first : ∀ j other, Candidate routes method path j other →
    Precedes route.atoms other.atoms ∨ other.atoms = route.atoms ∧ i ≤ j

variable {path : Str}

theorem Selected.unique {routes : List Route} {method : String} {i j : Nat} {route other : Route}
    (h : Selected routes method path i route) (h' : Selected routes method path j other) : i = j ∧ route = other := by
  have hij : i = j := by
    rcases h.first j other h'.candidate with hlt | ⟨heq, hle⟩ <;> rcases h'.first i route h.candidate with hlt' | ⟨heq', hle'⟩
    · exact absurd hlt' hlt.asymm
    · rw [heq'] at hlt
      exact absurd hlt hlt.asymm
    · rw [heq] at hlt'
      exact absurd hlt' hlt'.asymm
    · exact Nat.le_antisymm hle hle'
  subst hij
  exact ⟨rfl, Option.some.inj (h.candidate.declared.symm.trans h'.candidate.declared)⟩

/-! ## What the trie answers -/

theorem find_first {α : Type} {r : α → α → Prop} {p : α → Bool} {l : List α} (h : l.Pairwise r) {x y : α}
    (hx : l.find? p = some x) (hy : y ∈ l) (hp : p y = true) : y = x ∨ r x y := by
  obtain ⟨-, front, back, rfl, hfront⟩ := find?_eq_some_iff_append.mp hx
  rcases mem_append.mp hy with hy | hy
  · have := hfront y hy
    rw [hp] at this
    cases this
  · rcases mem_cons.mp hy with rfl | hy
    · exact .inl rfl
    · exact .inr ((pairwise_cons.mp (pairwise_append.mp h).2.1).1 y hy)

theorem zipIdx_sorted {α : Type} (l : List α) (k : Nat) : (l.zipIdx k).Pairwise fun a b => a.2 < b.2 := by
  induction l generalizing k with
  | nil => exact .nil
  | cons x l ih =>
    refine pairwise_cons.mpr ⟨fun y hy => ?_, ih (k + 1)⟩
    exact le_snd_of_mem_zipIdx hy

section
variable {routes : List Route} (method : String) (path : Str)

variable {trie : Trie}

theorem Trie.Holds.any_verb_eq (h : trie.Holds routes.zipIdx) :
    trie.any_verb = routes.any fun route => route.template.verb.isSome := by
  rw [h.verbs]
  conv_rhs => rw [← zipIdx_map_fst 0 routes, any_map]
  rfl

/-- The request as the walk sees it. -/
abbrev request (routes : List Route) (method : String) (path : Str) (scanned : ScannedPath) : Walk :=
  ⟨scanned, method, (split routes path).2⟩

theorem answers_iff {route : Route} {i : Nat} (hmem : (route, i) ∈ routes.zipIdx) :
    ((route.leaf i).method == method &&
      (!(routes.any fun route => route.template.verb.isSome) || (route.leaf i).verb == (split routes path).2)) = true ↔
    route.method = method ∧ route.template.verb = (split routes path).2 := by
  have hroute : route ∈ routes := fst_mem_of_mem_zipIdx hmem
  simp only [Route.leaf, Bool.and_eq_true, beq_iff_eq, Bool.or_eq_true, Bool.not_eq_true']
  refine and_congr_right fun _ => ⟨fun h => h.elim (fun hnone => ?_) id, .inr⟩
  have := any_eq_false.mp hnone route hroute
  rw [split, hnone]
  simpa using this

theorem dispatch_leaves (scanned : ScannedPath) (h : trie.Holds routes.zipIdx) {shape : List Atom}
    (hshape : RestLast shape) (hm : Matches shape (segments (split routes path).1)) :
    match (request routes method path scanned).dispatch trie.any_verb (leaves_at shape trie.root) with
    | none => ∀ i route, Candidate routes method path i route → route.atoms ≠ shape
    | some leaf => ∃ i route, leaf = route.leaf i ∧ Candidate routes method path i route ∧ route.atoms = shape ∧
        ∀ j other, Candidate routes method path j other → other.atoms = shape → i ≤ j := by
  have hin : ∀ {i route}, Candidate routes method path i route → route.atoms = shape →
      (route, i) ∈ routes.zipIdx.filter fun e => e.1.atoms = shape := by
    intro i route hc ha
    exact mem_filter.mpr ⟨mk_mem_zipIdx_iff_getElem?.mpr hc.declared, by simpa using ha⟩
  have hyes : ∀ {i route}, Candidate routes method path i route → _ := fun {i route} hc =>
    (answers_iff method path (mk_mem_zipIdx_iff_getElem?.mpr hc.declared)).mpr
      ⟨hc.method_eq, hc.verb_eq⟩
  unfold Walk.dispatch
  rw [h.leaves shape hshape, find?_map, h.any_verb_eq]
  split
  · rename_i hnone
    intro i route hc ha
    exact find?_eq_none.mp (Option.map_eq_none_iff.mp hnone) _ (hin hc ha) (hyes hc)
  · rename_i leaf hsome
    obtain ⟨⟨route, i⟩, hfind, rfl⟩ := Option.map_eq_some_iff.mp hsome
    obtain ⟨hmem, hatoms⟩ := mem_filter.mp (mem_of_find?_eq_some hfind)
    have hanswers := find?_some hfind
    obtain ⟨hmethod, hverb⟩ := (answers_iff method path hmem).mp hanswers
    have hatoms : route.atoms = shape := by simpa using hatoms
    refine ⟨i, route, rfl, ⟨mk_mem_zipIdx_iff_getElem?.mp hmem, hmethod, hverb, hatoms ▸ hm⟩, hatoms, ?_⟩
    intro j other hc ha
    rcases find_first ((zipIdx_sorted routes 0).filter _) hfind (hin hc ha) (hyes hc) with heq | hlt
    · cases heq
      exact Nat.le_refl _
    · exact Nat.le_of_lt hlt

theorem Matches.restLast {shape : List Atom} {segs : List Str} (h : Matches shape segs) : RestLast shape := by
  induction shape generalizing segs with
  | nil => trivial
  | cons a shape ih =>
    by_cases ha : a = .rest
    · subst ha
      exact h
    · obtain ⟨s, rest, rfl, -, hm⟩ := (matches_cons ha _ _).mp h
      cases a with
      | rest => exact absurd rfl ha
      | _ => exact ih hm

theorem answer_selected (scanned : ScannedPath) (h : trie.Holds routes.zipIdx) {rt : RtNode}
    (hc : Compiled trie.root rt) :
    match answer (request routes method path scanned) trie.any_verb (segments (split routes path).1) rt with
    | none => ∀ i route, ¬ Candidate routes method path i route
    | some leaf => ∃ i route, leaf = route.leaf i ∧ Selected routes method path i route := by
  have hanswer := answer_spec (request routes method path scanned) trie.any_verb (segments (split routes path).1) hc h.sorted
  generalize answer _ _ _ rt = result at hanswer ⊢
  cases result with
  | none =>
    intro i route hcand
    have hd := dispatch_leaves method path scanned h hcand.hits.restLast hcand.hits
    rw [hanswer _ hcand.hits] at hd
    exact hd i route hcand rfl
  | some leaf =>
    obtain ⟨shape, hm, hleaf, hfirst⟩ := hanswer
    have hd := dispatch_leaves method path scanned h hm.restLast hm
    rw [hleaf] at hd
    obtain ⟨i, route, rfl, hcand, hatoms, hearliest⟩ := hd
    refine ⟨i, route, rfl, hcand, fun j other hother => ?_⟩
    have hsome : (request routes method path scanned).dispatch trie.any_verb (leaves_at other.atoms trie.root) ≠ none := by
      intro hnone
      have hd := dispatch_leaves method path scanned h hother.hits.restLast hother.hits
      rw [hnone] at hd
      exact hd j other hother rfl
    rcases hfirst other.atoms hother.hits hsome with heq | hprec
    · exact .inr ⟨heq.trans hatoms.symm, hearliest j other hother heq⟩
    · exact .inl (hatoms ▸ hprec)

end

/-! ## Scanning for a request -/

theorem split_verb_start (path : Str) : (split_verb path).1 <+: path := by
  unfold split_verb
  split
  · simp only
    split
    · exact prefix_refl path
    · split
      · exact prefix_refl path
      · exact take_prefix _ path
  · exact prefix_refl path

theorem split_start (routes : List Route) (path : Str) : (split routes path).1 <+: path := by
  unfold split
  split
  · exact split_verb_start path
  · exact prefix_refl path

variable {body : Str}

theorem Chars.of_start (h : Chars path) (hp : body <+: path) : Chars body := by
  obtain ⟨tail, rfl⟩ := hp
  exact (isChain_append.mp h).1

theorem all_of_start (h : path.all allowed = true) (hp : body <+: path) : body.all allowed = true := by
  obtain ⟨tail, rfl⟩ := hp
  rw [all_append, Bool.and_eq_true] at h
  exact h.1

/-- A scan that reaches as deep as the trie, or to the end of the path. -/
structure Deep (body : Str) (deepest : Nat) (cap : Nat) (scanned : ScannedPath) : Prop where
  scan : Scanned body cap scanned
  le : cap ≤ deepest
  far : ∀ i < deepest, i < (segments body).length → i < cap

variable {scanned : ScannedPath}

theorem Deep.reads {deepest cap : Nat} (h : Deep body deepest cap scanned)
    (method : String) (verb : Option Str) : Walk.Reads ⟨scanned, method, verb⟩ (segments body) deepest := by
  refine ⟨h.scan.count_eq, fun i => ?_⟩
  simp only [h.scan.segment_eq]
  by_cases hi : i < cap
  · rw [if_pos hi, if_pos (Nat.lt_of_lt_of_le hi h.le)]
  · rw [if_neg hi]
    by_cases hd : i < deepest
    · rw [if_pos hd, getElem?_eq_none]
      exact Nat.le_of_not_lt fun hlen => hi (h.far i hd hlen)
    · rw [if_neg hd]

variable {T : Type}

theorem resolve_scans (r : RawResolver T) (method : String) (path : Str) {parts : Str × Option Str}
    (hparts : (if r.any_verb then split_verb path else (path, none)) = parts) (hbody : parts.1.all allowed = true) :
    ∃ cap scanned, Deep parts.1 r.max_segments cap scanned ∧
      ∀ fuel, r.resolve fuel method path = r.finish_scanned fuel method parts.2 scanned := by
  obtain ⟨body, verb⟩ := parts
  have hvalid : ∀ cap, (scan body cap).valid = true := fun cap => by
    rw [(scan_scanned body cap).valid_eq]
    exact hbody
  have hcount : ∀ cap, (scan body cap).count = (segments body).length := fun cap =>
    (scan_scanned body cap).count_eq
  by_cases hinline : r.max_segments ≤ INLINE_SEGMENTS
  · refine ⟨_, _, ⟨scan_scanned body r.max_segments, Nat.le_refl _, fun i hi _ => hi⟩, fun fuel => ?_⟩
    unfold resolve
    simp only [hparts, hvalid, if_pos hinline, if_true]
  · by_cases hlong : (segments body).length > INLINE_SEGMENTS
    · refine ⟨_, _, ⟨scan_scanned body (min (segments body).length r.max_segments), Nat.min_le_right _ _,
        fun i h1 h2 => Nat.lt_min.mpr ⟨h2, h1⟩⟩, fun fuel => ?_⟩
      unfold resolve
      simp only [hparts, hvalid, hcount, if_neg hinline, if_pos hlong, if_true]
    · refine ⟨_, _, ⟨scan_scanned body INLINE_SEGMENTS, Nat.le_of_not_le hinline,
        fun i _ h2 => Nat.lt_of_lt_of_le h2 (Nat.not_lt.mp hlong)⟩, fun fuel => ?_⟩
      unfold resolve
      simp only [hparts, hvalid, hcount, if_neg hinline, if_neg hlong, if_true]

/-! ## The resolver -/

/-- The match of a route: its leaf and value, and what its variables capture. -/
structure RawMatch.Of {T : Type} (entry : Route × T) (i : Nat) (body : Str) (m : RawMatch T) : Prop where
  leaf_eq : m.leaf = entry.1.leaf i
  value_eq : m.value = entry.2
  captures_eq : m.captures = captured body 0 entry.1.template.segments

theorem route_cuts_out (route : Route) (i : Nat) {deepest cap : Nat}
    (hscan : Deep body deepest cap scanned) (hchars : Chars body) (hhits : Matches route.atoms (segments body))
    (hdeep : route.atoms.length ≤ deepest) :
    List.Forall₂ (CutsOut scanned) (route.leaf i).vars (captured body 0 route.template.segments) := by
  have hlocated : Located body route.atoms cap scanned :=
    ⟨hscan.scan, hchars, hhits, fun j hj hlen => hscan.far j (by omega) hlen⟩
  have hplans := hlocated.plans_ok route.atoms_restLast route.template.parsed [] route.atoms_eq
  have hvars : (route.leaf i).vars = (var_spans 0 route.template.segments).map
      (VarSpan.plan (route.atoms.getLast? == some .rest) route.atoms.length) := by
    simp only [Route.leaf, Route.atoms, flatten_eq]
  rwa [length_nil, ← hvars] at hplans

theorem keys_of_cuts_out {vars : List VarPlan} {captures : List (Str × Str)}
    (h : List.Forall₂ (CutsOut scanned) vars captures) : vars.map VarPlan.key = captures.map Prod.fst := by
  have hsame : List.Forall₂ Eq (vars.map VarPlan.key) (captures.map Prod.fst) :=
    List.forall₂_map_left_iff.mpr (List.forall₂_map_right_iff.mpr (h.imp fun _ _ h => h.1))
  rwa [List.forall₂_eq_eq_eq] at hsame

theorem finish_ok (entry : Route × T) (i : Nat)
    (hcuts : List.Forall₂ (CutsOut scanned) (entry.1.leaf i).vars (captured body 0 entry.1.template.segments)) :
    ∃ m, (RawResolver.finish (entry.1.leaf i) entry.2 scanned).run () = (.ok m, ()) ∧ RawMatch.Of entry i body m := by
  have hvalues : List.Forall₂ (fun plan value => (materialize plan scanned).run () = (.ok value, ()))
      (entry.1.leaf i).vars ((captured body 0 entry.1.template.segments).map Prod.snd) :=
    List.forall₂_map_right_iff.mpr (hcuts.imp fun _ _ h => h.2)
  refine ⟨⟨entry.1.leaf i, (captured body 0 entry.1.template.segments).map Prod.snd, entry.2⟩, ?_, rfl, rfl, ?_⟩
  · unfold finish
    rw [bind_ok (mapM_ok hvalues)]
    rfl
  · unfold RawMatch.captures
    rw [keys_of_cuts_out hcuts, zip_map']
    simp

/-- What the answer to a request has to be. -/
def Answers {T : Type} (entries : List (Route × T)) (method : String) (path : Str) : Option (RawMatch T) → Prop
  | none => ∀ i route, ¬ Candidate (entries.map Prod.fst) method path i route
  | some m => ∃ i entry, entries[i]? = some entry ∧ Selected (entries.map Prod.fst) method path i entry.1 ∧
      m.Of entry i (split (entries.map Prod.fst) path).1

theorem Selected.entry {entries : List (Route × T)} {method : String} {i : Nat} {route : Route}
    (h : Selected (entries.map Prod.fst) method path i route) : ∃ entry, entries[i]? = some entry ∧ entry.1 = route := by
  have hdeclared := h.candidate.declared
  rw [getElem?_map] at hdeclared
  exact Option.map_eq_some_iff.mp hdeclared

/-- A resolver with the trie of a route list answers every request. -/
theorem resolve_answers {entries : List (Route × T)} {trie : Trie}
    (htrie : trie.Holds (entries.map Prod.fst).zipIdx) {rt : RtNode} (hcompiled : Compiled trie.root rt)
    (method path : String) (hallowed : (split (entries.map Prod.fst) (utf8 path)).1.all allowed = true) :
    ∃ result k, Answers entries method (utf8 path) result ∧ ∀ fuel, k ≤ fuel →
      (RawResolver.resolve ⟨rt, trie.max_segments, trie.any_verb, entries.map Prod.snd⟩ fuel method (utf8 path)).run () =
        (.ok result, ()) := by
  let routes := entries.map Prod.fst
  have hprefix := split_start routes (utf8 path)
  have hparts : (if trie.any_verb then split_verb (utf8 path) else (utf8 path, none)) = split routes (utf8 path) := by
    rw [htrie.any_verb_eq]
    rfl
  obtain ⟨cap, scanned, hdeep, hresolve⟩ := resolve_scans
    ⟨rt, trie.max_segments, trie.any_verb, entries.map Prod.snd⟩ method (utf8 path) hparts hallowed
  have hwalk := descend_iterative_eq trie.any_verb (hdeep.reads method (split routes (utf8 path)).2)
    (hcompiled.bounded htrie.bounded)
  have hselected := answer_selected method (utf8 path) scanned htrie hcompiled
  unfold finish_scanned at hresolve
  cases hanswer : answer (request routes method (utf8 path) scanned) trie.any_verb
    (segments (split routes (utf8 path)).1) rt with
  | none =>
    rw [hanswer] at hselected hwalk
    refine ⟨none, cost (segments (split routes (utf8 path)).1) rt + 1, hselected, fun fuel hfuel => ?_⟩
    rw [hresolve, bind_ok (hwalk fuel hfuel)]
    rfl
  | some leaf =>
    rw [hanswer] at hselected hwalk
    obtain ⟨i, route, rfl, hsel⟩ := hselected
    obtain ⟨entry, hentry, rfl⟩ := hsel.entry
    have hmem : (entry.1, i) ∈ routes.zipIdx := mk_mem_zipIdx_iff_getElem?.mpr hsel.candidate.declared
    obtain ⟨m, hrun, hof⟩ := finish_ok entry i
      (route_cuts_out entry.1 i hdeep ((chars_utf8 path).of_start hprefix) hsel.candidate.hits (htrie.deep _ hmem))
    have hpayload : (entries.map Prod.snd)[(entry.1.leaf i).route_index]? = some entry.2 := by
      simp [Route.leaf, hentry]
    refine ⟨some m, cost (segments (split routes (utf8 path)).1) rt + 1, ⟨i, entry, hentry, hsel, hof⟩, fun fuel hfuel => ?_⟩
    rw [hresolve, bind_ok (hwalk fuel hfuel)]
    simp only [hpayload, expect_some, pure_then]
    rw [bind_ok hrun]
    rfl

theorem with_values_ok (entries : List (Route × T)) :
    let trie := build_trie (entries.map Prod.fst)
    ∃ rt, Compiled trie.root rt ∧ ∀ fuel, sizeOf trie.root + 1 ≤ fuel → (RawResolver.with_values fuel entries).run () =
      (.ok ⟨rt, trie.max_segments, trie.any_verb, entries.map Prod.snd⟩, ()) := by
  obtain ⟨rt, hcompiled, hcompile⟩ := compile_ok (build_trie_holds (entries.map Prod.fst)).sorted
  refine ⟨rt, hcompiled, fun fuel hfuel => ?_⟩
  unfold with_values
  simp only
  rw [bind_ok (hcompile fuel hfuel)]
  rfl

/-- The resolver of a route list is built, and answers every request by the declared precedence. -/
theorem resolve_meets_precedence {T : Type} (entries : List (Route × T)) :
    ∃ (r : RawResolver T) (n : Nat), (∀ fuel, n ≤ fuel → (RawResolver.with_values fuel entries).run () = (.ok r, ())) ∧
      ∀ (method path : String), (utf8 path).all allowed = true →
        ∃ result k, Answers entries method (utf8 path) result ∧
          ∀ fuel, k ≤ fuel → (r.resolve fuel method (utf8 path)).run () = (.ok result, ()) := by
  obtain ⟨rt, hcompiled, hbuilt⟩ := with_values_ok entries
  refine ⟨_, _, hbuilt, fun method path hallowed => ?_⟩
  exact resolve_answers (build_trie_holds _) hcompiled method path (all_of_start hallowed (split_start _ _))

def user_by_id : Route := ⟨"by_id", "GET", ⟨[.literal [118], .var ⟨[105, 100], [.single], by simp⟩], none, by decide, by decide, by decide⟩⟩

def user_me : Route := ⟨"me", "GET", ⟨[.literal [118], .literal [109, 101]], none, by decide, by decide, by decide⟩⟩

/-- The literal route is taken, although the other one is declared first. -/
theorem resolve_meets_precedence_literal_first :
    ∃ (r : RawResolver Nat) (n : Nat),
      (∀ fuel, n ≤ fuel → (RawResolver.with_values fuel [(user_by_id, 0), (user_me, 1)]).run () = (.ok r, ())) ∧
      ∃ m k, m.value = 1 ∧ ∀ fuel, k ≤ fuel → (r.resolve fuel "GET" (utf8 "/v/me")).run () = (.ok (some m), ()) := by
  obtain ⟨r, n, hbuilt, hall⟩ := resolve_meets_precedence [(user_by_id, 0), (user_me, 1)]
  obtain ⟨result, k, hanswers, hrun⟩ := hall "GET" "/v/me" (by decide)
  have hme : Candidate [user_by_id, user_me] "GET" (utf8 "/v/me") 1 user_me :=
    ⟨rfl, rfl, rfl, show Matches [.literal [118], .literal [109, 101]] [[118], [109, 101]] from ⟨rfl, rfl, rfl⟩⟩
  refine ⟨r, n, hbuilt, ?_⟩
  cases result with
  | none => exact absurd hme (hanswers 1 user_me)
  | some m =>
    obtain ⟨i, entry, hentry, hselected, hof⟩ := hanswers
    refine ⟨m, k, ?_, hrun⟩
    match i, hentry with
    | 0, hentry =>
      cases hentry
      rcases hselected.first 1 user_me hme with hprec | heq
      · exact absurd hprec (show ¬ Precedes [.literal [118], .single] [.literal [118], .literal [109, 101]] by
          simp [Precedes, Atom.Before, Atom.rank])
      · exact absurd heq.1 (by decide)
    | 1, hentry =>
      cases hentry
      exact hof.value_eq

end Routing
