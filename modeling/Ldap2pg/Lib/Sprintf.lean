import Mathlib.Data.List.Basic
import Mathlib.Data.List.TakeWhile

/-! # Go's `fmt.Sprintf` without operands

The format is read as `doPrintf` does: flags, an argument index, a width, a precision,
another index, a verb. Without operands a verb other than `%%` is reported in the
output. **A format is its own output exactly when it has no percent sign.** With
operands, only formats of texts, `%%` and `%s` are described. -/
namespace Ldap2pg.Lib.Sprintf

variable (s : List Char)

/-! ## 1. The formatter -/

def isFlag (c : Char) : Bool := c ∈ ['#', '0', '+', '-', ' ']

/-- `parsenum`: whether a number was read, and what is left. A number that is too
large goes to the end. -/
def parsenum : Nat → Bool → List Char → Bool × List Char
  | _, isnum, [] => (isnum, [])
  | num, isnum, c :: s =>
    if '0' ≤ c ∧ c ≤ '9' then
      if 1000000 < num then (false, []) else parsenum (num * 10 + (c.toNat - '0'.toNat)) true s
    else (isnum, c :: s)

/-- A verb being read: what it already wrote, whether its index is bad, whether an
index was just read, what is left of the format. -/
structure Verb where
  text : List Char := []
  bad : Bool := false
  afterIndex : Bool := false
  rest : List Char

variable (v : Verb)

/-- `argNumber`: `[n]`. No operand has an index. -/
def argNumber (v : Verb) : Verb :=
  match v.rest with
  | '[' :: s =>
    if s.length < 2 ∨ ']' ∉ s then { v with bad := true, afterIndex := false, rest := s }
    else
      let number := parsenum 0 false (s.takeWhile (· ≠ ']'))
      { v with bad := true, afterIndex := number.1 && number.2.isEmpty,
               rest := (s.dropWhile (· ≠ ']')).drop 1 }
  | s => { v with afterIndex := false, rest := s }

def width (v : Verb) : Verb :=
  match v.rest with
  | '*' :: s =>
    { v with text := v.text ++ "%!(BADWIDTH)".toList, afterIndex := false, rest := s }
  | s =>
    { v with bad := v.bad || (v.afterIndex && (parsenum 0 false s).1),
             rest := (parsenum 0 false s).2 }

def starPrecision (v : Verb) : Verb :=
  match v.rest with
  | '*' :: s =>
    { v with text := v.text ++ "%!(BADPREC)".toList, afterIndex := false, rest := s }
  | s => { v with rest := (parsenum 0 false s).2 }

def precision (v : Verb) : Verb :=
  match v.rest with
  | '.' :: s => starPrecision (argNumber { v with bad := v.bad || v.afterIndex, rest := s })
  | s => { v with rest := s }

/-- What the verb writes in the end, and what is left. -/
def finish (v : Verb) : List Char × List Char :=
  match v.rest with
  | [] => (v.text ++ "%!(NOVERB)".toList, [])
  | c :: rest =>
    if c = '%' then (v.text ++ ['%'], rest)
    else if v.bad then (v.text ++ '%' :: '!' :: c :: "(BADINDEX)".toList, rest)
    else (v.text ++ '%' :: '!' :: c :: "(MISSING)".toList, rest)

/-- Flags, index, width, precision. -/
def options (s : List Char) : Verb :=
  precision (width (argNumber { rest := s.dropWhile isFlag }))

/-- What follows a percent sign. -/
def directive (s : List Char) : List Char × List Char :=
  let v := options s
  finish (if v.afterIndex then v else argNumber v)

/-- `doPrintf`, for a number of verbs. -/
def doPrintf : Nat → List Char → List Char
  | 0, _ => []
  | fuel + 1, s =>
    s.takeWhile (· ≠ '%') ++
      match s.dropWhile (· ≠ '%') with
      | [] => []
      | _ :: s => (directive s).1 ++ doPrintf fuel (directive s).2

def sprintf (s : List Char) : List Char := doPrintf (s.length + 1) s

/-! ## 2. What a verb reads and writes -/

theorem parsenum_suffix (num : Nat) (isnum : Bool) (s : List Char) :
    (parsenum num isnum s).2 <:+ s := by
  fun_induction parsenum num isnum s with
  | case1 => exact List.suffix_rfl
  | case2 => exact List.nil_suffix
  | case3 num _ c s _ _ ih => exact ih.trans (List.suffix_cons c s)
  | case4 => exact List.suffix_rfl

/-- Every percent sign is followed by an exclamation mark. -/
def Marked (text : List Char) : Prop :=
  ∀ before after, text = before ++ '%' :: after → after.head? = some '!'

theorem marked_nil : Marked [] := by
  intro before after h
  simp at h

theorem Marked.append {a b : List Char} (ha : Marked a) (hb : Marked b) : Marked (a ++ b) := by
  intro before after h
  rcases List.append_eq_append_iff.mp h with ⟨mid, hbefore, hb'⟩ | ⟨mid, ha', hafter⟩
  · exact hb mid after hb'
  · cases mid with
    | nil => exact hb [] after (by simpa using hafter.symm)
    | cons c mid =>
      obtain ⟨rfl, htail⟩ := List.cons.inj hafter
      have hhead := ha before mid ha'
      cases mid with
      | nil => cases hhead
      | cons d mid => exact htail ▸ hhead

/-- A report: a percent sign, an exclamation mark, no other percent sign. -/
theorem marked_report {text : List Char} (h : '%' ∉ text) : Marked ('%' :: '!' :: text) := by
  intro before after heq
  cases before with
  | nil => rw [← (List.cons.inj heq).2]; rfl
  | cons c before =>
    have hmem : '%' ∈ '!' :: text := by
      rw [(List.cons.inj heq).2]
      simp
    simp [h] at hmem

/-- A stage of the verb reads on and writes reports. -/
structure Step (v v' : Verb) : Prop where
  suffix : v'.rest <:+ v.rest
  marked : Marked v.text → Marked v'.text

theorem Step.trans {v v' v'' : Verb} (h : Step v v') (h' : Step v' v'') : Step v v'' :=
  ⟨h'.suffix.trans h.suffix, fun hm => h'.marked (h.marked hm)⟩

theorem argNumber_step : Step v (argNumber v) := by
  unfold argNumber
  split
  · next s hs =>
    split
    · exact ⟨hs ▸ List.suffix_cons _ s, id⟩
    · refine ⟨?_, id⟩
      rw [hs]
      exact (List.drop_suffix _ _).trans ((List.dropWhile_suffix _).trans (List.suffix_cons _ s))
  · exact ⟨List.suffix_rfl, id⟩

theorem width_step : Step v (width v) := by
  unfold width
  split
  · next s hs =>
    exact ⟨hs ▸ List.suffix_cons _ s, fun hm => hm.append (marked_report (by decide))⟩
  · exact ⟨parsenum_suffix 0 false _, id⟩

theorem starPrecision_step : Step v (starPrecision v) := by
  unfold starPrecision
  split
  · next s hs =>
    exact ⟨hs ▸ List.suffix_cons _ s, fun hm => hm.append (marked_report (by decide))⟩
  · exact ⟨parsenum_suffix 0 false _, id⟩

theorem precision_step : Step v (precision v) := by
  unfold precision
  split
  · next s hs =>
    have hdot : Step v { v with bad := v.bad || v.afterIndex, rest := s } :=
      ⟨hs ▸ List.suffix_cons _ s, id⟩
    exact hdot.trans ((argNumber_step _).trans (starPrecision_step _))
  · exact ⟨List.suffix_rfl, id⟩

theorem options_step : Step { rest := s } (options s) := by
  have hflags : Step { rest := s } { rest := s.dropWhile isFlag } :=
    ⟨List.dropWhile_suffix _, id⟩
  exact hflags.trans ((argNumber_step _).trans ((width_step _).trans (precision_step _)))

/-- What a directive reads and writes: it reads the beginning `consumed`, and each
percent sign it writes starts a report, but for one that it read. -/
structure Directive (s : List Char) (consumed : List Char) : Prop where
  splits : s = consumed ++ (directive s).2
  percents : ∀ before after, (directive s).1 = before ++ '%' :: after →
    after.head? = some '!' ∨ (after = [] ∧ '%' ∈ consumed)

theorem finish_suffix : (finish v).2 <:+ v.rest := by
  unfold finish
  split
  · exact List.nil_suffix
  · next c rest hrest =>
    rw [hrest]
    split
    · exact List.suffix_cons c rest
    · split <;> exact List.suffix_cons c rest

theorem finish_percents {v : Verb} (h : Marked v.text) (before after : List Char)
    (heq : (finish v).1 = before ++ '%' :: after) :
    after.head? = some '!' ∨ (after = [] ∧ v.rest = '%' :: (finish v).2) := by
  unfold finish at heq ⊢
  split at heq
  · exact .inl (h.append (marked_report (by decide)) before after heq)
  · next c rest hrest =>
    split at heq
    · next hc =>
      -- the last character written may be the percent sign that was read
      subst hc
      rcases List.append_eq_append_iff.mp heq with ⟨mid, hbefore, hmid⟩ | ⟨mid, htext, hafter⟩
      · have hlen := congrArg List.length hmid
        cases mid with
        | nil => exact .inr ⟨(List.cons.inj hmid).2.symm, by simp [hrest]⟩
        | cons d mid => simp at hlen
      · cases mid with
        | nil =>
          refine .inr ⟨?_, by simp [hrest]⟩
          exact (List.cons.inj hafter).2
        | cons d mid =>
          obtain ⟨rfl, htail⟩ := List.cons.inj hafter
          have hhead := h before mid htext
          cases mid with
          | nil => cases hhead
          | cons d mid => exact .inl (htail ▸ hhead)
    · next hc =>
      split at heq
      · exact .inl (h.append (marked_report (by simpa using Ne.symm hc)) before after heq)
      · exact .inl (h.append (marked_report (by simpa using Ne.symm hc)) before after heq)

theorem exists_directive : ∃ consumed, Directive s consumed := by
  have hstep : Step { rest := s } (if (options s).afterIndex then options s
      else argNumber (options s)) := by
    split
    · exact options_step s
    · exact (options_step s).trans (argNumber_step _)
  obtain ⟨read, hread⟩ := hstep.suffix
  obtain ⟨last, hlast⟩ := finish_suffix (if (options s).afterIndex then options s
      else argNumber (options s))
  have hsplit : s = (read ++ last) ++ (directive s).2 := by
    rw [List.append_assoc, directive, hlast, hread]
  refine ⟨read ++ last, hsplit, fun before after heq => ?_⟩
  rcases finish_percents (hstep.marked marked_nil) before after heq with h | ⟨hafter, hrest⟩
  · exact .inl h
  · refine .inr ⟨hafter, List.mem_append_right _ ?_⟩
    have hone : last = ['%'] := by
      rw [hrest, ← List.singleton_append] at hlast
      exact List.append_cancel_right hlast
    simp [hone]

theorem directive_length : (directive s).2.length ≤ s.length := by
  obtain ⟨consumed, h⟩ := exists_directive s
  have hlen := congrArg List.length h.splits
  rw [List.length_append] at hlen
  omega

theorem directive_bang : directive ('!' :: s) = ("%!!(MISSING)".toList, s) := by
  simp [directive, options, argNumber, width, precision, parsenum, finish, isFlag]

/-! ## 3. A whole format -/

/-- More fuel than characters changes nothing. -/
theorem doPrintf_fuel : ∀ (fuel : Nat) (s : List Char), s.length < fuel →
    doPrintf fuel s = sprintf s := by
  have hsame : ∀ (fuel fuel' : Nat) (s : List Char), s.length < fuel → s.length < fuel' →
      doPrintf fuel s = doPrintf fuel' s := by
    intro fuel
    induction fuel with
    | zero => intro fuel' s h _; omega
    | succ fuel ih =>
      intro fuel' s h h'
      cases fuel' with
      | zero => omega
      | succ fuel' =>
        have hdrop := (List.dropWhile_suffix (l := s) fun c => decide (c ≠ '%')).length_le
        rw [doPrintf, doPrintf]
        cases hrest : s.dropWhile (fun c => decide (c ≠ '%')) with
        | nil => rfl
        | cons c rest =>
          have hlen := directive_length rest
          rw [hrest, List.length_cons] at hdrop
          simp only [ih fuel' (directive rest).2 (by omega) (by omega)]
  exact fun fuel s h => hsame fuel (s.length + 1) s h (by omega)

theorem sprintf_plain {s : List Char} (h : '%' ∉ s) : sprintf s = s := by
  have hall : ∀ c ∈ s, decide (c ≠ '%') = true := fun c hc => by
    simpa using fun he : c = '%' => h (he ▸ hc)
  rw [sprintf, doPrintf, List.takeWhile_eq_self_iff.mpr hall, List.dropWhile_eq_nil_iff.mpr hall,
    List.append_nil]

/-- A text up to a percent sign, then the directive. -/
theorem sprintf_percent {text : List Char} (h : '%' ∉ text) (s : List Char) :
    sprintf (text ++ '%' :: s) = text ++ ((directive s).1 ++ sprintf (directive s).2) := by
  have hall : ∀ c ∈ text, decide (c ≠ '%') = true := fun c hc => by
    simpa using fun he : c = '%' => h (he ▸ hc)
  have hlen := directive_length s
  rw [sprintf, doPrintf, List.takeWhile_append_of_pos hall, List.dropWhile_append_of_pos hall]
  simp only [List.takeWhile_cons, List.dropWhile_cons, ne_eq, not_true, decide_false,
    Bool.false_eq_true, if_false, List.append_nil]
  rw [doPrintf_fuel _ _ (by simp; omega)]

theorem sprintf_append {text : List Char} (h : '%' ∉ text) (s : List Char) :
    sprintf (text ++ s) = text ++ sprintf s := by
  by_cases hs : '%' ∈ s
  · obtain ⟨before, after, rfl, hbefore⟩ := List.eq_append_cons_of_mem hs
    rw [sprintf_percent hbefore, ← List.append_assoc, sprintf_percent (by simp [h, hbefore]),
      List.append_assoc]
  · rw [sprintf_plain hs, sprintf_plain (by simp [h, hs])]

/-- A format cannot start with the end of the report on itself. -/
theorem missing_ne : ∀ (n : Nat) (s : List Char), s.length ≤ n →
    s ≠ "!(MISSING)".toList ++ sprintf s
  | 0, s, hn, h => by
    rw [List.eq_nil_of_length_eq_zero (Nat.le_zero.mp hn)] at h
    cases h
  | n + 1, s, hn, h => by
    have hlen := congrArg List.length h
    rw [List.length_append] at hlen
    have hpos : "!(MISSING)".toList.length = 10 := by decide
    have hnext : sprintf s = "!(MISSING)".toList ++ sprintf (sprintf s) := by
      have hs : sprintf s = sprintf ("!(MISSING)".toList ++ sprintf s) := congrArg sprintf h
      rwa [sprintf_append (by decide)] at hs
    exact missing_ne n (sprintf s) (by omega) hnext

/-- The verb `!` does not write itself. -/
theorem no_bang {rest lead mid : List Char} (hdirect : (directive rest).1 = lead ++ '%' :: mid)
    (hbang : mid.head? = some '!') (hout : rest = mid ++ sprintf (directive rest).2) : False := by
  cases mid with
  | nil => cases hbang
  | cons c mid =>
    cases hbang
    cases rest with
    | nil => cases hout
    | cons d s =>
      obtain ⟨rfl, hout⟩ := List.cons.inj hout
      rw [directive_bang] at hdirect hout
      cases lead with
      | nil =>
        have hmid : mid = "!(MISSING)".toList := (List.cons.inj (List.cons.inj hdirect).2).2.symm
        rw [hmid] at hout
        exact missing_ne s.length s (Nat.le_refl _) hout
      | cons e lead =>
        have hmem : '%' ∈ "!!(MISSING)".toList := by
          have htail : "!!(MISSING)".toList = lead ++ '%' :: '!' :: mid := (List.cons.inj hdirect).2
          rw [htail]
          simp
        exact absurd hmem (by decide)

/-- The output never is the format after a text, but for a format without percent
sign and no text. -/
theorem sprintf_eq_append : ∀ (n : Nat) (s : List Char), s.length ≤ n → ∀ text : List Char,
    sprintf s = text ++ s → text = [] ∧ '%' ∉ s := by
  intro n
  induction n with
  | zero =>
    intro s hn text h
    rw [List.eq_nil_of_length_eq_zero (Nat.le_zero.mp hn)] at h ⊢
    exact ⟨by simpa [sprintf_plain] using h.symm, by simp⟩
  | succ n ih =>
    intro s hn text h
    by_cases hs : '%' ∈ s
    · exfalso
      obtain ⟨plain, rest, rfl, hplain⟩ := List.eq_append_cons_of_mem hs
      obtain ⟨consumed, hdir⟩ := exists_directive rest
      have hshort : (directive rest).2.length ≤ n := by
        have hle := directive_length rest
        simp only [List.length_append, List.length_cons] at hn
        omega
      -- both sides start with the text before the percent sign
      obtain ⟨lead, hlead⟩ : ∃ lead, text ++ plain = plain ++ lead := by
        have hplain' : plain <+: sprintf (plain ++ '%' :: rest) := by
          rw [sprintf_percent hplain]
          exact List.prefix_append _ _
        have htext : text ++ plain <+: sprintf (plain ++ '%' :: rest) := by
          rw [h, ← List.append_assoc]
          exact List.prefix_append _ _
        obtain ⟨lead, hlead⟩ := List.prefix_of_prefix_length_le hplain' htext (by simp)
        exact ⟨lead, hlead.symm⟩
      have hmain : (directive rest).1 ++ sprintf (directive rest).2 = lead ++ '%' :: rest := by
        rw [sprintf_percent hplain, ← List.append_assoc text, hlead, List.append_assoc] at h
        exact List.append_cancel_left h
      rcases List.append_eq_append_iff.mp hmain with ⟨mid, hmid, hout⟩ | ⟨mid, hdirect, hmid⟩
      · -- the directive wrote no more than what stands before
        have hrest : sprintf (directive rest).2 =
            (mid ++ '%' :: consumed) ++ (directive rest).2 := by
          rw [hout, List.append_assoc, List.cons_append, ← hdir.splits]
        have hnil := (ih _ hshort _ hrest).1
        simp at hnil
      · cases mid with
        | nil =>
          have hrest : sprintf (directive rest).2 = ('%' :: consumed) ++ (directive rest).2 := by
            rw [List.cons_append, ← hdir.splits]
            exact hmid.symm
          cases (ih _ hshort _ hrest).1
        | cons c mid =>
          obtain ⟨rfl, hout⟩ := List.cons.inj hmid
          rcases hdir.percents lead mid hdirect with hbang | ⟨rfl, hpercent⟩
          · exact no_bang hdirect hbang hout
          · have hrest : sprintf (directive rest).2 = consumed ++ (directive rest).2 :=
              hout.symm.trans hdir.splits
            rw [(ih _ hshort _ hrest).1] at hpercent
            cases hpercent
    · rw [sprintf_plain hs] at h
      exact ⟨List.append_left_eq_self.mp h.symm, hs⟩

/-- **A format is its own output exactly when it has no percent sign.** -/
theorem sprintf_eq_iff : sprintf s = s ↔ '%' ∉ s :=
  ⟨fun h => (sprintf_eq_append s.length s (Nat.le_refl _) [] h).2, sprintf_plain⟩

/-! ## 4. The verb `%s` -/

/-- The output for a format of texts, `%%`, and one `%s` for each operand. -/
def expand : List Char → List (List Char) → Option (List Char)
  | [], [] => some []
  | [], _ :: _ => none
  | '%' :: '%' :: s, ops => (expand s ops).map ('%' :: ·)
  | '%' :: 's' :: s, op :: ops => (expand s ops).map (op ++ ·)
  | c :: s, ops => if c = '%' then none else (expand s ops).map (c :: ·)

/-- The number of verbs `%s`. -/
def verbs : List Char → Nat
  | [] => 0
  | '%' :: '%' :: s => verbs s
  | '%' :: 's' :: s => verbs s + 1
  | _ :: s => verbs s

theorem expand_char {c : Char} (h : c ≠ '%') (s : List Char) (ops : List (List Char)) :
    expand (c :: s) ops = (expand s ops).map (c :: ·) := by
  rw [expand, if_neg h]
  · intro s' hc; exact absurd hc h
  · intro _ _ _ _ hc; exact absurd hc h

theorem verbs_char {c : Char} (h : c ≠ '%') (s : List Char) : verbs (c :: s) = verbs s := by
  rw [verbs]
  · intro s' hc; exact absurd hc h
  · intro s' hc; exact absurd hc h

theorem expand_append {u : List Char} (h : '%' ∉ u) (s : List Char) (ops : List (List Char)) :
    expand (u ++ s) ops = (expand s ops).map (u ++ ·) := by
  induction u with
  | nil => simp
  | cons c u ih =>
    obtain ⟨hc, hu⟩ := List.ne_and_not_mem_of_not_mem_cons h
    rw [List.cons_append, expand_char (Ne.symm hc), ih hu, Option.map_map]
    rfl

theorem verbs_append {u : List Char} (h : '%' ∉ u) (s : List Char) :
    verbs (u ++ s) = verbs s := by
  induction u with
  | nil => rfl
  | cons c u ih =>
    obtain ⟨hc, hu⟩ := List.ne_and_not_mem_of_not_mem_cons h
    rw [List.cons_append, verbs_char (Ne.symm hc), ih hu]

theorem directive_percent : directive ('%' :: s) = (['%'], s) := by
  simp [directive, options, argNumber, width, precision, parsenum, finish, isFlag]

/-- Without operands this is what the formatter writes. -/
theorem sprintf_of_expand {s out : List Char} (h : expand s [] = some out) : sprintf s = out := by
  generalize hops : ([] : List (List Char)) = ops at h
  fun_induction expand s ops generalizing out with
  | case1 =>
    obtain rfl := Option.some.inj h
    exact sprintf_plain List.not_mem_nil
  | case2 => cases h
  | case3 s ops ih =>
    obtain ⟨out, hout, rfl⟩ := Option.map_eq_some_iff.mp h
    have hpercent := sprintf_percent List.not_mem_nil ('%' :: s)
    rw [directive_percent, ih hops hout] at hpercent
    exact hpercent
  | case4 => cases hops
  | case5 => cases h
  | case6 c s ops _ _ hc ih =>
    obtain ⟨out, hout, rfl⟩ := Option.map_eq_some_iff.mp h
    have hplain : '%' ∉ [c] := by simpa using Ne.symm hc
    have happend := sprintf_append hplain s
    rw [ih hops hout] at happend
    exact happend

end Ldap2pg.Lib.Sprintf
