import Mathlib.Data.List.Basic

/-! # Glob patterns

The patterns of Go's `filepath.Match`, as its documentation gives them: `*` and
`?` do not match a separator, `[` opens a class of characters and a backslash
takes the next character as it is. The reader goes through a pattern character
by character; `Mode` is where it stands in the grammar. -/
namespace Ldap2pg.Lib.Glob

variable {p : List Char} {c : Char}

inductive Term where
  | star
  | any
  | set (negated : Bool) (ranges : List (Char × Char))
  | char (c : Char)
  deriving DecidableEq

inductive Mode where
  /-- at the start of a term -/
  | term
  | escape
  /-- after `[` -/
  | opened
  /-- at the start of a range, or at `]` -/
  | ranges (negated : Bool) (ranges : List (Char × Char))
  | lowEscape (negated : Bool) (ranges : List (Char × Char))
  /-- after the first character of a range -/
  | low (negated : Bool) (ranges : List (Char × Char)) (lo : Char)
  /-- after `-` -/
  | high (negated : Bool) (ranges : List (Char × Char)) (lo : Char)
  | highEscape (negated : Bool) (ranges : List (Char × Char)) (lo : Char)
  deriving DecidableEq

/-- The start of a range, or the end of the class: it is not empty. -/
def rangeStart (negated : Bool) (ranges : List (Char × Char)) (c : Char) :
    Option (Mode × List Term) :=
  if c = ']' then if ranges = [] then none else some (.term, [.set negated ranges])
  else if c = '\\' then some (.lowEscape negated ranges, [])
  else if c = '-' then none
  else some (.low negated ranges c, [])

/-- Reads one character: the next mode and the terms that are complete. -/
def Mode.step : Mode → Char → Option (Mode × List Term)
  | .term, c =>
    if c = '*' then some (.term, [.star])
    else if c = '?' then some (.term, [.any])
    else if c = '[' then some (.opened, [])
    else if c = '\\' then some (.escape, [])
    else some (.term, [.char c])
  | .escape, c => some (.term, [.char c])
  | .opened, c => if c = '^' then some (.ranges true [], []) else rangeStart false [] c
  | .ranges negated done, c => rangeStart negated done c
  | .lowEscape negated done, c => some (.low negated done c, [])
  | .low negated done lo, c =>
    if c = '-' then some (.high negated done lo, [])
    else rangeStart negated (done ++ [(lo, lo)]) c
  | .high negated done lo, c =>
    if c = '\\' then some (.highEscape negated done lo, [])
    else if c = '-' ∨ c = ']' then none
    else some (.ranges negated (done ++ [(lo, c)]), [])
  | .highEscape negated done lo, c => some (.ranges negated (done ++ [(lo, c)]), [])

/-- The terms of a pattern; `none` is a bad pattern. -/
def parse : Mode → List Char → Option (List Term)
  | mode, [] => if mode = .term then some [] else none
  | mode, c :: p =>
    match mode.step c with
    | none => none
    | some (mode, terms) => (parse mode p).map (terms ++ ·)

def Term.accepts : Term → Char → Bool
  | .star, _ => false
  | .any, c => c != '/'
  | .set negated ranges, c => (ranges.any fun r => r.1 ≤ c && c ≤ r.2) != negated
  | .char d, c => c == d

variable {terms : List Term}

/-- What is left of a name after any sequence of characters but separators. -/
def skips : List Char → List (List Char)
  | [] => [[]]
  | c :: name => (c :: name) :: if c = '/' then [] else skips name

/-- The terms match all of the name. -/
def isMatch : List Term → List Char → Bool
  | [], name => name.isEmpty
  | .star :: terms, name => (skips name).any (isMatch terms)
  | _ :: _, [] => false
  | t :: terms, c :: name => t.accepts c && isMatch terms name

/-! ## Patterns that match themselves -/

/-- A character that does not stand for itself. -/
def Special (c : Char) : Prop := c = '[' ∨ c = '\\'

instance : DecidablePred Special := fun c => inferInstanceAs (Decidable (c = '[' ∨ c = '\\'))

/-- The term of a character that is not special. -/
def plain (c : Char) : Term :=
  if c = '*' then .star else if c = '?' then .any else .char c

theorem step_plain (h : ¬ Special c) : Mode.term.step c = some (.term, [plain c]) := by
  obtain ⟨hopen, hescape⟩ := not_or.mp h
  simp only [Mode.step, plain, if_neg hopen, if_neg hescape]
  split
  · rfl
  · split <;> rfl

theorem step_special (h : Special c) :
    ∃ mode, mode ≠ .term ∧ Mode.term.step c = some (mode, []) := by
  rcases h with rfl | rfl
  · exact ⟨.opened, nofun, rfl⟩
  · exact ⟨.escape, nofun, rfl⟩

theorem parse_plain (h : ∀ c ∈ p, ¬ Special c) : parse .term p = some (p.map plain) := by
  induction p with
  | nil => rfl
  | cons c p ih =>
    obtain ⟨hc, hp⟩ := List.forall_mem_cons.mp h
    rw [parse, step_plain hc]
    simp only [ih hp, Option.map_some]
    rfl

theorem self_mem_skips (name : List Char) : name ∈ skips name := by
  cases name with
  | nil => exact List.mem_singleton.mpr rfl
  | cons c name => exact List.mem_cons_self

/-- Without special characters each term takes the character it was read from. -/
theorem isMatch_plain (p : List Char) : isMatch (p.map plain) p = true := by
  induction p with
  | nil => rfl
  | cons c p ih =>
    by_cases hstar : c = '*'
    · subst hstar
      show (skips ('*' :: p)).any (isMatch (p.map plain)) = true
      refine List.any_eq_true.mpr ⟨p, ?_, ih⟩
      exact List.mem_cons_of_mem _ (self_mem_skips p)
    · by_cases hany : c = '?'
      · subst hany
        exact ih
      · have hc : plain c = .char c := by rw [plain, if_neg hstar, if_neg hany]
        rw [List.map_cons, hc]
        show (c == c && isMatch (p.map plain) p) = true
        rw [ih, beq_self_eq_true]
        rfl

/-- A term is complete only back at the start of one. -/
theorem rangeStart_out {negated : Bool} {ranges : List (Char × Char)} {mode : Mode}
    (h : rangeStart negated ranges c = some (mode, terms)) :
    .star ∉ terms ∧ (terms = [] ∨ mode = .term ∧ terms.length = 1) := by
  unfold rangeStart at h
  split at h
  · split at h
    · cases h
    · cases h
      exact ⟨by simp, .inr ⟨rfl, rfl⟩⟩
  · split at h
    · cases h
      exact ⟨List.not_mem_nil, .inl rfl⟩
    · split at h
      · cases h
      · cases h
        exact ⟨List.not_mem_nil, .inl rfl⟩

/-- Inside a term: nothing is complete, or one term that is not a star. -/
theorem step_inside {mode mode' : Mode} (hmode : mode ≠ .term)
    (h : mode.step c = some (mode', terms)) :
    .star ∉ terms ∧ (terms = [] ∨ mode' = .term ∧ terms.length = 1) := by
  cases mode with
  | term => exact absurd rfl hmode
  | escape => cases h; exact ⟨by simp, .inr ⟨rfl, rfl⟩⟩
  | opened =>
    simp only [Mode.step] at h
    split at h
    · cases h; exact ⟨List.not_mem_nil, .inl rfl⟩
    · exact rangeStart_out h
  | ranges negated done => exact rangeStart_out h
  | lowEscape negated ranges => cases h; exact ⟨List.not_mem_nil, .inl rfl⟩
  | low negated ranges lo =>
    simp only [Mode.step] at h
    split at h
    · cases h; exact ⟨List.not_mem_nil, .inl rfl⟩
    · exact rangeStart_out h
  | high negated ranges lo =>
    simp only [Mode.step] at h
    split at h
    · cases h; exact ⟨List.not_mem_nil, .inl rfl⟩
    · split at h
      · cases h
      · cases h; exact ⟨List.not_mem_nil, .inl rfl⟩
  | highEscape negated ranges lo => cases h; exact ⟨List.not_mem_nil, .inl rfl⟩

theorem parse_cons {mode : Mode} (h : parse mode (c :: p) = some terms) :
    ∃ mode' out rest, mode.step c = some (mode', out) ∧ parse mode' p = some rest ∧
      terms = out ++ rest := by
  rw [parse] at h
  split at h
  · cases h
  · rename_i mode' out hstep
    obtain ⟨rest, hrest, rfl⟩ := Option.map_eq_some_iff.mp h
    exact ⟨mode', out, rest, hstep, hrest, rfl⟩

/-- There are at most as many terms as characters, and fewer if one of them is
special. -/
theorem parse_length : ∀ {mode terms}, parse mode p = some terms →
    terms.length ≤ p.length ∧ (mode = .term → (∃ c ∈ p, Special c) → terms.length < p.length) := by
  induction p with
  | nil =>
    intro mode terms h
    rw [parse] at h
    split at h
    · cases h
      refine ⟨Nat.le_refl 0, ?_⟩
      rintro _ ⟨c, hc, _⟩
      cases hc
    · cases h
  | cons c p ih =>
    intro mode terms h
    obtain ⟨mode', out, rest, hstep, hrest, rfl⟩ := parse_cons h
    obtain ⟨hle, hlt⟩ := ih hrest
    rw [List.length_append, List.length_cons]
    by_cases hmode : mode = .term
    · subst hmode
      by_cases hc : Special c
      · obtain ⟨mode'', _, hspecial⟩ := step_special hc
        cases hstep.symm.trans hspecial
        exact ⟨by simp; omega, fun _ _ => by simp; omega⟩
      · cases hstep.symm.trans (step_plain hc)
        refine ⟨by simp; omega, ?_⟩
        rintro _ ⟨d, hd, hspecial⟩
        rcases List.mem_cons.mp hd with rfl | hd
        · exact absurd hspecial hc
        · have := hlt rfl ⟨d, hd, hspecial⟩
          simp
          omega
    · refine ⟨?_, fun he => absurd he hmode⟩
      rcases (step_inside hmode hstep).2 with rfl | ⟨_, hone⟩
      · simp
        omega
      · omega

theorem star_mem_of_parse : ∀ {mode terms}, parse mode p = some terms →
    .star ∈ terms → '*' ∈ p := by
  induction p with
  | nil =>
    intro mode terms h hstar
    rw [parse] at h
    split at h
    · cases h
      cases hstar
    · cases h
  | cons c p ih =>
    intro mode terms h hstar
    obtain ⟨mode', out, rest, hstep, hrest, rfl⟩ := parse_cons h
    rcases List.mem_append.mp hstar with hstar | hstar
    · by_cases hmode : mode = .term
      · subst hmode
        by_cases hc : Special c
        · obtain ⟨mode'', _, hspecial⟩ := step_special hc
          cases hstep.symm.trans hspecial
          cases hstar
        · cases hstep.symm.trans (step_plain hc)
          have hplain := List.mem_singleton.mp hstar
          unfold plain at hplain
          split at hplain
          · rename_i he
            exact he ▸ List.mem_cons_self
          · split at hplain <;> cases hplain
      · exact absurd hstar (step_inside hmode hstep).1
    · exact List.mem_cons_of_mem c (ih hrest hstar)

theorem length_of_isMatch (hstar : .star ∉ terms) :
    ∀ {name}, isMatch terms name = true → name.length = terms.length := by
  induction terms with
  | nil =>
    intro name h
    exact congrArg List.length (List.isEmpty_iff.mp h)
  | cons t terms ih =>
    intro name h
    have ht : t ≠ .star := fun he => hstar (he ▸ List.mem_cons_self)
    cases name with
    | nil => cases t <;> first | exact absurd rfl ht | cases h
    | cons c name =>
      have hrest : isMatch terms name = true := by
        cases t <;> first | exact absurd rfl ht | exact (Bool.and_eq_true _ _ ▸ h).2
      rw [List.length_cons, List.length_cons, ih (fun he => hstar (List.mem_cons_of_mem t he)) hrest]

/-- A pattern without special characters matches itself; if it has no star, only
such a pattern does. -/
theorem isMatch_self :
    ((∀ c ∈ p, ¬ Special c) → ∃ terms, parse .term p = some terms ∧ isMatch terms p = true) ∧
      ∀ terms, parse .term p = some terms → '*' ∉ p → isMatch terms p = true →
        ∀ c ∈ p, ¬ Special c := by
  refine ⟨fun h => ⟨_, parse_plain h, isMatch_plain p⟩, fun terms hparse hstar hmatch c hc hs => ?_⟩
  have hlen := length_of_isMatch (fun h => hstar (star_mem_of_parse hparse h)) hmatch
  have hlt := (parse_length hparse).2 rfl ⟨c, hc, hs⟩
  omega

end Ldap2pg.Lib.Glob
