import Mathlib
import EightBit.Isa.Mode
import EightBit.Proofs.Scan

/-!
# What a pattern looks at

Whether tokens match a pattern depends only on which components accept them, and a match of a whole run
that ignores blanks has all its other tokens.

* `Component.Alike`: two tokens that some components do not tell apart.
* `Mode.match?_eq`: the match of operand tokens, by tokens that are alike.
-/

namespace EightBit

namespace Component

/-- Two tokens that some components do not tell apart. -/
structure Alike (cs : List Component) (t u : Token) : Prop where
  /-- Both are blanks, or none. -/
  isSpace_eq : t.isSpace = u.isSpace
  /-- Each component accepts both or none. -/
  accepts_eq : ∀ c ∈ cs, c.accepts t = c.accepts u

theorem Alike.trans {cs : List Component} {t u v : Token} (h : Alike cs t u) (h' : Alike cs u v) :
    Alike cs t v :=
  ⟨h.isSpace_eq.trans h'.isSpace_eq, fun c hc => (h.accepts_eq c hc).trans (h'.accepts_eq c hc)⟩

/-- Whether a component looks at nothing but the kind and the text of a token. -/
def isLexical : Component → Bool
  | synthetic => false
  | either first second => first.isLexical && second.isLexical
  | _ => true

/-- The value of a token that is no expression comes from its lexeme. -/
theorem valueIn_eq {t u : Token} (h : t.lexeme = u.lexeme) (hkind : t.kind ≠ .expression) (d : Dialect) :
    t.valueIn d = u.valueIn d := by
  obtain ⟨kind, text, loc, id, outcome⟩ := t
  obtain ⟨kind', text', loc', id', outcome'⟩ := u
  obtain ⟨rfl, rfl⟩ : kind = kind' ∧ text = text' := by simpa [Token.lexeme] using h
  -- Only an expression carries its value with it.
  cases kind <;> first | rfl | exact absurd rfl hkind

theorem accepts_eq {t u : Token} (h : t.lexeme = u.lexeme) (hkind : t.kind ≠ .expression)
    {c : Component} (hc : c.isLexical) : c.accepts t = c.accepts u := by
  have hkinds : t.kind = u.kind := congrArg Lexeme.kind h
  have htexts : t.text = u.text := congrArg Lexeme.text h
  induction c with
  | literal text fold => simp [accepts, htexts]
  | kinds ks => simp [accepts, hkinds]
  | constant => simp [accepts, hkinds]
  | fitting d size unsigned =>
    have hsize : t.sizeIn d = u.sizeIn d := by
      simp [Token.sizeIn, valueIn_eq h hkind, Token.writtenSize, Token.digitsIn, Token.radix, hkinds,
        htexts]
    simp [accepts, hkinds, hsize, valueIn_eq h hkind]
  | register d names => simp [accepts, hkinds, htexts]
  | either first second hfirst hsecond =>
    simp only [isLexical, Bool.and_eq_true] at hc
    simp [accepts, hfirst hc.1, hsecond hc.2]
  | synthetic => simp [isLexical] at hc

/-- A token is like any other of its lexeme. -/
theorem alike_of_lexeme {cs : List Component} (hcs : ∀ c ∈ cs, c.isLexical) {t u : Token}
    (h : t.lexeme = u.lexeme) (hkind : t.kind ≠ .expression) : Alike cs t u :=
  ⟨congrArg (fun l => l.kind.isSpace) h, fun c hc => accepts_eq h hkind (hcs c hc)⟩

end Component

namespace Pattern

open Component

section Alike

variable {all : List Component} {ts us : List Token}

theorem ignored_eq (h : List.Forall₂ (Alike all) ts us) (skip : Bool) :
    ignored skip ts = ignored skip us := by
  unfold ignored
  split_ifs
  · induction h with
    | nil => rfl
    | cons hab _ ih =>
      rw [List.takeWhile_cons, List.takeWhile_cons, hab.isSpace_eq]
      split_ifs
      · simp [ih]
      · rfl
  · rfl

/-- How many tokens components use up depends only on which tokens they accept. -/
theorem take?_eq (h : List.Forall₂ (Alike all) ts us) (skip : Bool) {cs : List Component} (hcs : cs ⊆ all) :
    (take? skip cs ts).map Prod.fst = (take? skip cs us).map Prod.fst := by
  induction cs generalizing ts us with
  | nil => rfl
  | cons c cs ih =>
    obtain ⟨hc, hcs⟩ := List.cons_subset.1 hcs
    -- Tokens that are alike start with equally many blanks, so that both runs go on at the same place.
    have hdrop := List.forall₂_drop (ignored skip ts) h
    simp only [take?, ← ignored_eq h skip]
    generalize ts.drop (ignored skip ts) = ts', us.drop (ignored skip ts) = us' at hdrop ⊢
    cases hdrop with
    | nil => rfl
    | cons hab hrest =>
      simp only [hab.accepts_eq c hc]
      split_ifs
      · have hmap := ih hrest hcs
        simp only [Option.map_map, Function.comp_def] at hmap ⊢
        simpa [Function.comp_def] using congrArg (Option.map (ignored skip ts + 1 + ·)) hmap
      · rfl

/-- Whether a whole run matches depends only on which tokens the components accept. -/
theorem isSome_matchExact_eq (h : List.Forall₂ (Alike all) ts us) {p : Pattern} (hp : p.components ⊆ all) :
    (p.matchExact ts).isSome = (p.matchExact us).isSome := by
  have htake := take?_eq h p.skipSpace hp
  simp only [matchExact, matchStart]
  cases hts : take? p.skipSpace p.components ts with
  | none =>
    have hus : take? p.skipSpace p.components us = none := by simpa [hts] using htake.symm
    rw [hus]
    rfl
  | some r =>
    obtain ⟨s, hus, hs⟩ : ∃ s, take? p.skipSpace p.components us = some s ∧ s.1 = r.1 := by
      simpa [hts] using htake.symm
    have hrest := List.forall₂_drop r.1 h
    simp [hus, hs, Option.isSome_filter, ignored_eq hrest, h.length_eq]

end Alike

theorem isSpace_head_dropWhile {ts rest : List Token} {t : Token}
    (h : ts.dropWhile Token.isSpace = t :: rest) : t.isSpace = false := by
  have hhead := List.head?_dropWhile_not Token.isSpace ts
  simpa [h] using hhead

theorem drop_ignored (ts : List Token) : ts.drop (ignored true ts) = ts.dropWhile Token.isSpace := by
  calc ts.drop (ts.takeWhile Token.isSpace).length
    _ = (ts.takeWhile Token.isSpace ++ ts.dropWhile Token.isSpace).drop
          (ts.takeWhile Token.isSpace).length := by rw [List.takeWhile_append_dropWhile]
    _ = ts.dropWhile Token.isSpace := List.drop_left

theorem ignored_le_length (skip : Bool) (ts : List Token) : ignored skip ts ≤ ts.length := by
  unfold ignored
  split_ifs
  · exact ( List.takeWhile_prefix _).length_le
  · exact Nat.zero_le _

/-- The blanks that a run starts with are not among its other tokens. -/
theorem filter_dropWhile (ts : List Token) :
    ts.filter (fun t => !t.isSpace) = (ts.dropWhile Token.isSpace).filter fun t => !t.isSpace := by
  induction ts with
  | nil => rfl
  | cons t ts ih => cases ht : t.isSpace <;> simp [ht, ih]

/-- What components accept where blanks are ignored are the other tokens. -/
theorem tokens_take? {cs : List Component} {ts matched : List Token} {n : Nat}
    (h : take? true cs ts = some (n, matched)) : matched = (ts.take n).filter fun t => !t.isSpace := by
  induction cs generalizing ts matched n with
  | nil =>
    cases h
    rfl
  | cons c cs ih =>
    simp only [take?, drop_ignored] at h
    cases hdrop : ts.dropWhile Token.isSpace with
    | nil => simp [hdrop] at h
    | cons t rest =>
      simp only [hdrop] at h
      split_ifs at h with hc
      obtain ⟨⟨k, more⟩, htake, hr⟩ := Option.map_eq_some_iff.1 h
      obtain ⟨rfl, rfl⟩ : ignored true ts + 1 + k = n ∧ t :: more = matched := by simpa using hr
      -- What is used up are the blanks in front, the accepted token and what the other components use.
      have hts : ts = ts.takeWhile Token.isSpace ++ t :: rest := by
        rw [← hdrop, List.takeWhile_append_dropWhile]
      have hblanks : (ts.takeWhile Token.isSpace).filter (fun t => !t.isSpace) = [] := by
        rw [List.filter_eq_nil_iff]
        intro u hu
        simpa using List.mem_takeWhile_imp hu
      have hfirst : ts.take (ignored true ts + 1 + k) = ts.takeWhile Token.isSpace ++ t :: rest.take k :=
        calc ts.take (ignored true ts + 1 + k)
          _ = (ts.takeWhile Token.isSpace ++ t :: rest).take
                ((ts.takeWhile Token.isSpace).length + (k + 1)) := by
            rw [← hts, Nat.add_assoc, Nat.add_comm 1 k]
            rfl
          _ = ts.takeWhile Token.isSpace ++ t :: rest.take k := by
            rw [List.take_length_add_append, List.take_succ_cons]
      rw [ih htake, hfirst, List.filter_append, hblanks, List.nil_append,
        List.filter_cons_of_pos (by simp [isSpace_head_dropWhile hdrop])]

/-- A token that is no blank ends the blanks in front of it. -/
theorem ignored_append {t : Token} (ht : t.isSpace = false) (ts rest : List Token) :
    ignored true (ts ++ t :: rest) = ignored true ts := by
  simp only [ignored, if_true]
  induction ts with
  | nil => simp [ht]
  | cons u ts ih => cases hu : u.isSpace <;> simp [hu, ih]

/-- Components that ignore blanks do not look behind a token that none of them accepted. -/
theorem take?_append_iff {cs : List Component} {ts rest : List Token} {t : Token} (ht : t.isSpace = false)
    {n : Nat} {matched : List Token} (hmatched : t ∉ matched) :
    take? true cs (ts ++ t :: rest) = some (n, matched) ↔ take? true cs ts = some (n, matched) := by
  induction cs generalizing ts n matched with
  | nil => rfl
  | cons c cs ih =>
    simp only [take?, ignored_append ht, List.drop_append_of_le_length (ignored_le_length true ts)]
    cases ts.drop (ignored true ts) with
    | nil =>
      refine iff_of_false ?_ nofun
      simp only [List.nil_append]
      split_ifs
      · intro h
        obtain ⟨⟨k, more⟩, -, heq⟩ := Option.map_eq_some_iff.1 h
        obtain ⟨-, rfl⟩ := Prod.mk.inj heq
        exact hmatched List.mem_cons_self
      · nofun
    | cons u us =>
      simp only [List.cons_append]
      split_ifs
      · rw [Option.map_eq_some_iff, Option.map_eq_some_iff]
        refine exists_congr fun r => and_congr_left fun heq => ?_
        obtain ⟨k, more⟩ := r
        obtain ⟨-, rfl⟩ := Prod.mk.inj heq
        exact ih fun hmem => hmatched (List.mem_cons_of_mem u hmem)
      · rfl

theorem le_length_of_take? {skip : Bool} {cs : List Component} {ts matched : List Token} {n : Nat}
    (h : take? skip cs ts = some (n, matched)) : n ≤ ts.length := by
  induction cs generalizing ts n matched with
  | nil =>
    cases h
    exact Nat.zero_le _
  | cons c cs ih =>
    simp only [take?] at h
    have hlength := congrArg List.length (List.take_append_drop (ignored skip ts) ts)
    have hle := ignored_le_length skip ts
    cases hdrop : ts.drop (ignored skip ts) with
    | nil => simp [hdrop] at h
    | cons t rest =>
      simp only [hdrop] at h
      split_ifs at h
      obtain ⟨⟨k, more⟩, hk, heq⟩ := Option.map_eq_some_iff.1 h
      obtain ⟨rfl, -⟩ := Prod.mk.inj heq
      have hrest := ih hk
      rw [hdrop, List.length_append, List.length_take, List.length_cons] at hlength
      omega

/-- Every component accepted the token in its place. -/
theorem forall₂_accepts_of_take? {skip : Bool} {cs : List Component} {ts matched : List Token} {n : Nat}
    (h : take? skip cs ts = some (n, matched)) : List.Forall₂ (fun c t => c.accepts t) cs matched := by
  induction cs generalizing ts n matched with
  | nil =>
    cases h
    exact .nil
  | cons c cs ih =>
    simp only [take?] at h
    cases hdrop : ts.drop (ignored skip ts) with
    | nil => simp [hdrop] at h
    | cons t rest =>
      simp only [hdrop] at h
      split_ifs at h with hc
      obtain ⟨⟨k, more⟩, hk, heq⟩ := Option.map_eq_some_iff.1 h
      obtain ⟨-, rfl⟩ := Prod.mk.inj heq
      exact .cons hc (ih hk)

/-- A match of a whole run that ignores blanks has all its other tokens. -/
theorem tokens_matchExact {p : Pattern} (hp : p.skipSpace) {ts : List Token} {m : Match}
    (h : p.matchExact ts = some m) : m.tokens = ts.filter fun t => !t.isSpace := by
  simp only [matchExact, matchStart, Option.filter_eq_some_iff, Option.map_eq_some_iff, hp] at h
  obtain ⟨⟨⟨n, matched⟩, htake, rfl⟩, hrest⟩ := h
  -- Only blanks are left behind what the components used up.
  have hblank : (ts.drop n).filter (fun t => !t.isSpace) = [] := by
    rw [List.filter_eq_nil_iff]
    have hall : (ts.drop n).takeWhile Token.isSpace = ts.drop n :=
      ( List.takeWhile_prefix _).eq_of_length (by simpa [ignored] using (beq_iff_eq.1 hrest).symm)
    intro t ht
    rw [← hall] at ht
    simpa using List.mem_takeWhile_imp ht
  calc matched = (ts.take n).filter (fun t => !t.isSpace) := tokens_take? htake
    _ = (ts.take n ++ ts.drop n).filter (fun t => !t.isSpace) := by
      rw [List.filter_append, hblank, List.append_nil]
    _ = ts.filter (fun t => !t.isSpace) := by rw [List.take_append_drop]

/-- The tokens of a match are accepted by the components in order. -/
theorem accepts_of_matchExact {p : Pattern} {ts : List Token} {m : Match} (h : p.matchExact ts = some m) :
    List.Forall₂ (fun c t => c.accepts t) p.components m.tokens := by
  obtain ⟨hstart, -⟩ := Option.filter_eq_some_iff.1 h
  obtain ⟨⟨n, matched⟩, htake, rfl⟩ := Option.map_eq_some_iff.1 hstart
  exact forall₂_accepts_of_take? htake

/-- Components that accept the tokens of a run one by one, blanks ignored, use up the run but for blanks. -/
theorem exists_take? {cs : List Component} {ts : List Token}
    (h : List.Forall₂ (fun c t => c.accepts t) cs (ts.filter fun t => !t.isSpace)) :
    ∃ n, take? true cs ts = some (n, ts.filter fun t => !t.isSpace) ∧ ∀ t ∈ ts.drop n, t.isSpace := by
  induction cs generalizing ts with
  | nil =>
    have hblank : ts.filter (fun t => !t.isSpace) = [] := List.forall₂_nil_left_iff.1 h
    refine ⟨0, by rw [hblank]; rfl, fun t ht => ?_⟩
    simpa using List.filter_eq_nil_iff.1 hblank t ht
  | cons c cs ih =>
    -- The blanks in front of the first token are ignored.
    rw [filter_dropWhile] at h ⊢
    cases hdrop : ts.dropWhile Token.isSpace with
    | nil =>
      rw [hdrop] at h
      cases h
    | cons t rest =>
      have ht : t.isSpace = false := isSpace_head_dropWhile hdrop
      rw [hdrop, List.filter_cons_of_pos (by simp [ht])] at h
      obtain ⟨hc, hrest⟩ := List.forall₂_cons.1 h
      obtain ⟨n, htake, hblank⟩ := ih hrest
      refine ⟨ignored true ts + 1 + n, ?_, ?_⟩
      · rw [take?]
        simp only [drop_ignored, hdrop, if_pos hc, htake, Option.map_some,
          List.filter_cons_of_pos (p := fun t => !t.isSpace) (a := t) (by simp [ht])]
      · rw [Nat.add_assoc, ← List.drop_drop, drop_ignored, hdrop, Nat.add_comm 1 n]
        exact hblank

/-- A run matches a pattern that ignores blanks if its other tokens are accepted one by one. -/
theorem matchExact_spaced_iff {cs : List Component} {ts matched : List Token} :
    (∃ m, (spaced cs).matchExact ts = some m ∧ m.tokens = matched) ↔
      List.Forall₂ (fun c t => c.accepts t) cs matched ∧ (ts.filter fun t => !t.isSpace) = matched := by
  constructor
  · rintro ⟨m, hm, rfl⟩
    exact ⟨accepts_of_matchExact hm, (tokens_matchExact rfl hm).symm⟩
  · rintro ⟨haccepts, rfl⟩
    obtain ⟨n, htake, hblank⟩ := exists_take? haccepts
    refine ⟨⟨0, n, _⟩, ?_, rfl⟩
    have hall : (ts.drop n).takeWhile Token.isSpace = ts.drop n := List.takeWhile_eq_self_iff.2 hblank
    rw [matchExact, matchStart, show (spaced cs).skipSpace = true from rfl, show (spaced cs).components = cs from rfl,
      htake, Option.map_some, Option.filter_some, if_pos]
    simp [ignored, hall]

end Pattern

namespace Mode

/-- Operand tokens match a mode if tokens like them do, and then the operand is found among those that are
no blanks. -/
theorem match?_eq {m : Mode} (hspaced : ∀ p ∈ m.patterns, p.skipSpace) {cs : List Component}
    (hcs : ∀ p ∈ m.patterns, p.components ⊆ cs) {ts us : List Token}
    (h : List.Forall₂ (Component.Alike cs) ts us) :
    m.match? ts = if (m.match? us).isSome then
      some (m.operand.bind ((ts.filter fun t => !t.isSpace)[·]?)) else none := by
  -- Which pattern matches first does not matter: each yields the tokens that are no blanks.
  have hsome : (m.match? us).isSome = (m.patterns.findSome? (·.matchExact ts)).isSome := by
    rw [match?, Option.isSome_map, List.isSome_findSome?, List.isSome_findSome?]
    have hmap : m.patterns.map (fun p => (p.matchExact us).isSome) =
        m.patterns.map fun p => (p.matchExact ts).isSome :=
      List.map_congr_left fun p hp => (Pattern.isSome_matchExact_eq h (hcs p hp)).symm
    simpa [List.any_map, Function.comp_def] using congrArg (fun bs => bs.any id) hmap
  rw [hsome, match?]
  cases hfound : m.patterns.findSome? (·.matchExact ts) with
  | none => rfl
  | some r =>
    obtain ⟨p, hp, hr⟩ := List.exists_of_findSome?_eq_some hfound
    rw [Option.map_some, Pattern.tokens_matchExact (hspaced p hp) hr]
    rfl

end Mode

end EightBit
