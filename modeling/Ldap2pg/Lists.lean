import Ldap2pg.Lib.Glob
import Ldap2pg.Lib.Cartesian
import Ldap2pg.Pyfmt

/-! # `internal/lists`: the role blacklist and the product of value lists -/
namespace Ldap2pg.Lists
open Lib (tuples length_tuples)
open Pyfmt (Panic)

/-- `filepath.Match`: whether it finds a match, or that the pattern is malformed. The
end of a pattern is not read if the name differs before, so that the error depends on
the name. The empty pattern matches the empty name only. -/
structure Glob where
  isMatch : String → String → Bool
  isBad : String → String → Bool := fun _ _ => false
  empty_only : ∀ name, isMatch "" name = true → name = ""

/-- `filepath.Match` as it is documented. -/
def filepathMatch : Glob where
  isMatch pattern name :=
    match Lib.Glob.parse .term pattern.toList with
    | some terms => Lib.Glob.isMatch terms name.toList
    | none => false
  isBad pattern _ := (Lib.Glob.parse .term pattern.toList).isNone
  empty_only := by
    intro name h
    exact String.toList_eq_nil_iff.mp (List.isEmpty_iff.mp h)

/-- `Blacklist.Check`: the patterns are tried on one name. -/
def check (glob : Glob) (blacklist : List String) : Except String Unit :=
  if blacklist.any (glob.isBad · "pouet") then .error "syntax error in pattern" else .ok ()

/-- `Blacklist.MatchString`: the first pattern that matches, or the empty string. A
malformed pattern on the way is a panic. -/
def matchString (glob : Glob) : List String → String → Except Panic String
  | [], _ => .ok ""
  | pattern :: blacklist, item =>
    if glob.isBad pattern item then .error .badPattern
    else if glob.isMatch pattern item then .ok pattern
    else matchString glob blacklist item

/-- What `MatchString` returns if it does not panic. -/
def firstMatch (glob : Glob) (blacklist : List String) (item : String) : String :=
  (blacklist.find? fun pattern => glob.isMatch pattern item).getD ""

section Blacklist
variable {glob : Glob} {blacklist : List String} {item : String}

theorem check_eq_ok {u : Unit} (h : check glob blacklist = .ok u) :
    ∀ pattern ∈ blacklist, glob.isBad pattern "pouet" = false := by
  unfold check at h
  split at h
  · cases h
  · rename_i hgood
    exact fun pattern hin => Bool.eq_false_iff.mpr fun hbad =>
      hgood (List.any_eq_true.mpr ⟨pattern, hin, hbad⟩)

theorem firstMatch_cons {pattern : String} : firstMatch glob (pattern :: blacklist) item =
    if glob.isMatch pattern item then pattern else firstMatch glob blacklist item := by
  unfold firstMatch
  rw [List.find?_cons]
  cases glob.isMatch pattern item <;> rfl

theorem matchString_eq_ok {found : String} (h : matchString glob blacklist item = .ok found) :
    found = firstMatch glob blacklist item := by
  induction blacklist with
  | nil => cases h; rfl
  | cons pattern blacklist ih =>
    rw [matchString] at h
    rw [firstMatch_cons]
    split at h
    · cases h
    · split at h
      · cases h
        exact (if_pos ‹_›).symm
      · rw [ih h, if_neg ‹_›]

theorem matchString_error {p : Panic} (h : matchString glob blacklist item = .error p) :
    p = .badPattern ∧ ∃ pattern ∈ blacklist, glob.isBad pattern item = true := by
  induction blacklist with
  | nil => cases h
  | cons pattern blacklist ih =>
    rw [matchString] at h
    split at h
    · cases h
      exact ⟨rfl, pattern, List.mem_cons_self, ‹_›⟩
    · split at h
      · cases h
      · obtain ⟨hp, pattern, hin, hbad⟩ := ih h
        exact ⟨hp, pattern, List.mem_cons_of_mem _ hin, hbad⟩

theorem matchString_of_good (h : ∀ pattern ∈ blacklist, glob.isBad pattern item = false) :
    matchString glob blacklist item = .ok (firstMatch glob blacklist item) := by
  cases hm : matchString glob blacklist item with
  | ok found => rw [matchString_eq_ok hm]
  | error p =>
    obtain ⟨_, pattern, hin, hbad⟩ := matchString_error hm
    exact Bool.noConfusion ((h pattern hin).symm.trans hbad)

/-- An empty answer on a non-empty name means that no pattern matches it. -/
theorem firstMatch_eq_empty (hne : item ≠ "") : firstMatch glob blacklist item = "" ↔
      ∀ pattern ∈ blacklist, glob.isMatch pattern item = false := by
  unfold firstMatch
  cases h : blacklist.find? fun pattern => glob.isMatch pattern item with
  | none =>
    simp only [List.find?_eq_none, Bool.not_eq_true] at h
    simpa using h
  | some p =>
    obtain ⟨hm, hp⟩ := List.find?_some h, List.mem_of_find?_eq_some h
    simp only [Option.getD_some]
    constructor
    · intro he; subst he; exact absurd (glob.empty_only item hm) hne
    · intro hall; rw [hall p hp] at hm; cases hm

end Blacklist

/-- One pass of the inner loop of `Product`, from the last list to the first:
a list whose position passes its end starts again and the list before it moves.
`none` when all of them did: the product is over. -/
def advance {α : Type} : List (List α × Nat) → Option (List (List α × Nat))
  | [] => none
  | (l, i) :: rest =>
    match advance rest with
    | some rest' => some ((l, i) :: rest')
    | none =>
      if i + 1 = l.length then none
      else some ((l, i + 1) :: rest.map fun x => (x.1, 0))

/-- The combination at the current positions. -/
def combination {α : Type} (st : List (List α × Nat)) : List α :=
  st.filterMap fun x => x.1[x.2]?

def productLoop {α : Type} : Nat → List (List α × Nat) → List (List α)
  | 0, _ => []
  | fuel + 1, st =>
    combination st :: match advance st with
      | none => []
      | some st' => productLoop fuel st'

/-- `lists.Product`: nothing for no list or when one of them is empty. The
loop sends one combination for each tuple of positions. -/
def product {α : Type} (lists : List (List α)) : List (List α) :=
  if lists.isEmpty || lists.any List.isEmpty then []
  else productLoop (lists.map List.length).prod (lists.map fun l => (l, 0))

@[simp] theorem product_nil {α : Type} : product ([] : List (List α)) = [] := rfl

section Product
variable {α : Type} {st st' : List (List α × Nat)}

/-- The combinations from the current positions on. -/
def remaining : List (List α × Nat) → List (List α)
  | [] => [[]]
  | (l, i) :: rest =>
    match l.drop i with
    | [] => []
    | a :: more => (remaining rest).map (a :: ·) ++
        more.flatMap fun b => (tuples (rest.map Prod.fst)).map (b :: ·)

/-- The positions are inside their lists. -/
def Inside (st : List (List α × Nat)) : Prop := ∀ x ∈ st, x.2 < x.1.length

theorem remaining_start (lists : List (List α)) :
    remaining (lists.map fun l => (l, 0)) = tuples lists := by
  induction lists with
  | nil => rfl
  | cons l lists ih =>
    have hlists : (lists.map fun l => (l, 0)).map Prod.fst = lists := by
      rw [List.map_map]
      exact List.map_id _
    rw [List.map_cons, remaining, List.drop_zero, ih, hlists]
    cases l <;> rfl

/-- How positions move: in the lists after the first one or, at their end, in the first
one with the others back at their start. -/
theorem advance_cons {l : List α} {i : Nat} {rest st' : List (List α × Nat)}
    (h : advance ((l, i) :: rest) = some st') :
    (∃ rest', advance rest = some rest' ∧ st' = (l, i) :: rest') ∨
      (advance rest = none ∧ i + 1 ≠ l.length ∧ st' = (l, i + 1) :: rest.map fun x => (x.1, 0)) := by
  rw [advance] at h
  cases hrest : advance rest with
  | some rest' =>
    rw [hrest] at h
    exact .inl ⟨rest', rfl, (Option.some.inj h).symm⟩
  | none =>
    rw [hrest] at h
    simp only [Option.ite_none_left_eq_some, Option.some.injEq] at h
    exact .inr ⟨rfl, h.1, h.2.symm⟩

theorem advance_lists (h : advance st = some st') : st'.map Prod.fst = st.map Prod.fst := by
  induction st generalizing st' with
  | nil => cases h
  | cons x rest ih =>
    rcases advance_cons h with ⟨rest', hrest, rfl⟩ | ⟨_, _, rfl⟩
    · rw [List.map_cons, ih hrest, List.map_cons]
    · simp

theorem advance_inside (hst : Inside st) (h : advance st = some st') : Inside st' := by
  induction st generalizing st' with
  | nil => cases h
  | cons x rest ih =>
    have hx : x.2 < x.1.length := hst x List.mem_cons_self
    have hrest : Inside rest := fun y hy => hst y (List.mem_cons_of_mem x hy)
    rcases advance_cons h with ⟨rest', hadvance, rfl⟩ | ⟨_, hend, rfl⟩
    · exact List.forall_mem_cons.mpr ⟨hx, ih hrest hadvance⟩
    · refine List.forall_mem_cons.mpr ⟨Nat.lt_of_le_of_ne hx hend, fun y hy => ?_⟩
      obtain ⟨z, hz, rfl⟩ := List.mem_map.mp hy
      exact Nat.zero_lt_of_lt (hrest z hz)

/-- One turn of the loop sends the first of them. -/
theorem remaining_step (hst : Inside st) :
    remaining st = combination st :: (advance st).elim [] remaining := by
  induction st with
  | nil => rfl
  | cons x rest ih =>
    obtain ⟨l, i⟩ := x
    have hi : i < l.length := hst (l, i) List.mem_cons_self
    have hrest := ih fun y hy => hst y (List.mem_cons_of_mem _ hy)
    have hdrop : l.drop i = l[i] :: l.drop (i + 1) := List.drop_eq_getElem_cons hi
    have hcomb : combination ((l, i) :: rest) = l[i] :: combination rest := by
      simp [combination, hi]
    have hfrom : ∀ st : List (List α × Nat), remaining ((l, i) :: st) =
        (remaining st).map (l[i] :: ·) ++
          (l.drop (i + 1)).flatMap fun b => (tuples (st.map Prod.fst)).map (b :: ·) := by
      intro st
      rw [remaining, hdrop]
    rw [hfrom, hrest, hcomb, advance]
    cases hadvance : advance rest with
    | some rest' => simp [hfrom, advance_lists hadvance]
    | none =>
      -- the first list moves to its next value, if there is one
      rcases Nat.lt_or_eq_of_le hi with hnext | hend
      · have hdrop' : l.drop (i + 1) = l[i + 1] :: l.drop (i + 2) := List.drop_eq_getElem_cons hnext
        have hstart : remaining (rest.map fun x => (x.1, 0)) = tuples (rest.map Prod.fst) := by
          rw [← remaining_start, List.map_map]
          rfl
        show _ :: _ = _ :: (if i + 1 = l.length then none else some _).elim [] remaining
        rw [if_neg (Nat.ne_of_lt hnext), Option.elim_some, remaining, hdrop', List.flatMap_cons, hstart,
          List.map_map]
        rfl
      · show _ :: _ = _ :: (if i + 1 = l.length then none else some _).elim [] remaining
        rw [if_pos hend, List.drop_of_length_le (Nat.le_of_eq hend.symm)]
        rfl

/-- The loop ends when they are all sent. -/
theorem productLoop_eq {fuel : Nat} (hst : Inside st) (hfuel : (remaining st).length ≤ fuel) :
    productLoop fuel st = remaining st := by
  induction fuel generalizing st with
  | zero =>
    rw [remaining_step hst] at hfuel
    cases hfuel
  | succ fuel ih =>
    rw [remaining_step hst] at hfuel ⊢
    rw [productLoop]
    cases hadvance : advance st with
    | none => rfl
    | some st' =>
      rw [hadvance] at hfuel
      exact congrArg _ (ih (advance_inside hst hadvance) (Nat.le_of_succ_le_succ hfuel))

/-- **`Product` sends every tuple once**, in order, unless there is no list at all. -/
theorem product_eq {lists : List (List α)} (h : lists ≠ []) : product lists = tuples lists := by
  unfold product
  split
  case isTrue hempty =>
    have hnil : [] ∈ lists := by simpa [h] using hempty
    rw [Lib.tuples_eq_nil hnil]
  case isFalse hfull =>
    have hinside : Inside (lists.map fun l => (l, 0)) := by
      intro x hx
      obtain ⟨l, hl, rfl⟩ := List.mem_map.mp hx
      refine List.length_pos_of_ne_nil fun hnil => hfull ?_
      simp only [Bool.or_eq_true, List.any_eq_true]
      exact .inr ⟨l, hl, List.isEmpty_iff.mpr hnil⟩
    rw [productLoop_eq hinside, remaining_start]
    rw [remaining_start, length_tuples]

end Product

example : product [["1", "2"], ["a", "b"]] = [["1", "a"], ["1", "b"], ["2", "a"], ["2", "b"]] := by
  decide

end Ldap2pg.Lists
